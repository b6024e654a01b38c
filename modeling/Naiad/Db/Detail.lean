import Mathlib.Data.Fintype.Order
import Mathlib.Order.CompletePartialOrder
import Naiad.Core.RelationSections
import Naiad.Db.Display
import Naiad.Db.Services
import Naiad.Lib.Join

/-!
# Naiad.Db.Detail

The tags of a file as the detail panel shows them, each with the services that carry it, where it
came from and whether it has relations.

* `filterMap_serviceNameMap`: the names of a set of services, by ascending id.
* `tagDetail_shown`: an entry of the panel is one of the plain list, with more said of it.
* `details_agree`: **the panel shows the tags that the plain list shows, and says rightly where each
  comes from**, whatever the order in which the maps on the way are visited.
-/

namespace Naiad
namespace Db

open Lib Core Netproto

structure TagDetail where
  tag : Tag
  presence : TagPresence
  /-- Names of the shared services that carry the tag. -/
  services : List String
  /-- It has an alias, a parent or a child. -/
  relations : Bool
  /-- The tool that produced it; none for a manual tag. -/
  origin : Option String
deriving DecidableEq

def TagDetail.shown (d : TagDetail) : TagWithPresence := ⟨d.tag, d.presence⟩

/-! ## The rows -/

structure DetailRow where
  tag : Nat
  service : Nat
  origin : Option String

/-- `SELECT m.tag_id, m.service_id, o.name .. LEFT JOIN origins o`, without the rows that are not
visible. -/
def detailRows (u : Unicode) (db : Db) (services : List Nat) (file : Nat) : List DetailRow :=
  (db.mappings.entries.filter fun e =>
    e.1.1 = file ∧ e.2.status = .current ∧ e.1.2.2 ∈ services ∧
      tagVisible (db.blockMatcher u) (some db.rejectMatcher) e.1.2.2 file e.1.2.1).map
    fun e => ⟨e.1.2.1, e.1.2.2, e.2.originId.bind db.origins.valueOf⟩

/-- By tag id: who asserts it, which pulled services carry it, and its origin. -/
structure Gathered where
  presence : Table Nat (Bool × Bool)
  pulled : Table Nat (Finset Nat)
  origin : Table Nat String

/-- One pass over the rows; the first origin of a tag stays. -/
def gather (locals : List Nat) (rows : List DetailRow) : Gathered where
  presence := assertAll (rows.map fun r =>
    (r.tag, decide (r.service ∈ locals), decide (r.service ∉ locals)))
  pulled := joinAll ((rows.filter (·.service ∉ locals)).map fun r => (r.tag, {r.service}))
  origin := firsts (rows.filterMap fun r => r.origin.map fun name => (r.tag, name))

/-- The same by canonical id, from maps that are visited in some order. -/
def Gathered.canonical (g : Gathered) (order : HashOrder Nat) (siblings : SiblingEdges Nat) :
    Gathered where
  presence := assertAll ((order.visit g.presence).map fun e => (canonicalize e.1 siblings, e.2))
  pulled := joinAll ((order.visit g.pulled).map fun e => (canonicalize e.1 siblings, e.2))
  origin := firsts ((order.visit g.presence).filterMap fun e =>
    (g.origin.lookup e.1).map fun name => (canonicalize e.1 siblings, name))

/-- Shared-service `id -> display name` map; detached services are not in it. -/
def serviceNameMap (db : Db) : Table Nat String :=
  Table.collect (db.listSharedServices.map fun s => (s.id, s.name))

def tagDetail (db : Db) (graph : RelationGraph Nat) (raw canon : Gathered) (id : Nat) :
    Option TagDetail :=
  (presenceOf ((canon.presence.lookup id).getD
      (raw.presence.entries.any fun e => e.2.1, raw.presence.entries.any fun e => e.2.2))).bind
    fun presence => (db.tags.valueOf id).map fun tag =>
      { tag, presence
        services := ((canon.pulled.lookup id).map fun ids =>
          (ids.sort (· ≤ ·)).filterMap db.serviceNameMap.lookup).getD []
        relations := graph.hasRelations id
        origin := canon.origin.lookup id }

def displayTagsDetailed (order : HashOrder Nat) (u : Unicode) (db : Db) (file : Nat)
    (scope : ReadScope) : Option (List TagDetail) :=
  (db.relationGraph (db.includedServices scope)).bind fun graph =>
    let raw := gather db.localServiceIds (db.detailRows u (db.includedServices scope) file)
    let canon := raw.canonical order graph.siblings
    (((effectiveTags raw.presence.keys graph.siblings graph.parents).sort (· ≤ ·)).mapM
      (db.tagDetail graph raw canon)).map (orderBy fun d => toLex (d.tag.ns, d.tag.subtag))

/-! ## Where a tag comes from -/

section Gathering

variable {u : Unicode} {db : Db} {services locals : List Nat} {file id : Nat}
  {rows : List DetailRow} {order : HashOrder Nat} {siblings : SiblingEdges Nat}

theorem assertAll_eq_joinAll (items : List (Nat × Bool × Bool)) : assertAll items = joinAll items :=
  rfl

theorem presence_gather : (gather db.localServiceIds (db.detailRows u services file)).presence =
    db.rawPresence u services file := by
  simp only [gather, rawPresence, detailRows, displayRows, List.map_map]
  rfl

/-- The order of the visits does not show in the presence. -/
theorem lookup_presence_canonical (g : Gathered) : (g.canonical order siblings).presence.lookup id =
    (effPresence siblings g.presence).lookup id := by
  rw [Gathered.canonical, effPresence, assertAll_eq_joinAll, assertAll_eq_joinAll]
  refine lookup_joinAll_congr ?_
  intro bits
  simp only [List.mem_map]
  constructor
  · rintro ⟨e, he, heq⟩
    exact ⟨⟨e.1, e.2⟩, Table.mem_entries.2 (order.mem_visit.1 he), heq⟩
  · rintro ⟨e, he, heq⟩
    exact ⟨(e.1, e.2), order.mem_visit.2 (Table.mem_entries.1 he), heq⟩

theorem mem_pulled_gather {t s : Nat} : s ∈ ((gather locals rows).pulled.lookup t).getD ∅ ↔
    ∃ r ∈ rows, r.tag = t ∧ r.service = s ∧ s ∉ locals := by
  rw [gather, mem_joinAll_union]
  simp only [List.mem_map, List.mem_filter, decide_eq_true_eq, Prod.mk.injEq]
  constructor
  · rintro ⟨_, ⟨r, ⟨hr, hlocal⟩, rfl, rfl⟩, hs⟩
    rw [Finset.mem_singleton] at hs
    subst hs
    exact ⟨r, hr, rfl, rfl, hlocal⟩
  · rintro ⟨r, hr, rfl, rfl, hlocal⟩
    exact ⟨_, ⟨r, ⟨hr, hlocal⟩, rfl, rfl⟩, by simp⟩

theorem mem_pulled {s : Nat} :
    s ∈ (((gather locals rows).canonical order siblings).pulled.lookup id).getD ∅ ↔
      ∃ r ∈ rows, canonicalize r.tag siblings = id ∧ r.service = s ∧ s ∉ locals := by
  rw [Gathered.canonical, mem_joinAll_union]
  simp only [List.mem_map, Prod.mk.injEq]
  constructor
  · rintro ⟨ids, ⟨⟨t, ids'⟩, he, rfl, rfl⟩, hs⟩
    have hmem : s ∈ ((gather locals rows).pulled.lookup t).getD ∅ := by
      rw [order.mem_visit.1 he]
      exact hs
    obtain ⟨r, hr, rfl, hservice⟩ := mem_pulled_gather.1 hmem
    exact ⟨r, hr, rfl, hservice⟩
  · rintro ⟨r, hr, rfl, hservice⟩
    have hmem := mem_pulled_gather.2 ⟨r, hr, rfl, hservice⟩
    cases hl : (gather locals rows).pulled.lookup r.tag with
    | none => simp [hl] at hmem
    | some ids =>
      rw [hl] at hmem
      exact ⟨ids, ⟨(r.tag, ids), order.mem_visit.2 hl, rfl, rfl⟩, hmem⟩

theorem origin_gather_none {t : Nat} : (gather locals rows).origin.lookup t = none ↔
    ∀ r ∈ rows, r.tag = t → r.origin = none := by
  rw [gather, firsts_none]
  simp only [List.mem_filterMap, Option.map_eq_some_iff, Prod.mk.injEq]
  constructor
  · intro h r hr ht
    cases ho : r.origin with
    | none => rfl
    | some name => exact absurd ⟨r, hr, name, ho, ht, rfl⟩ (h name)
  · rintro h name ⟨r, hr, name', ho, ht, rfl⟩
    rw [h r hr ht] at ho
    cases ho

theorem origin_gather_some {t : Nat} {name : String}
    (h : (gather locals rows).origin.lookup t = some name) :
    ∃ r ∈ rows, r.tag = t ∧ r.origin = some name := by
  obtain ⟨r, hr, hmap⟩ := List.mem_filterMap.1 (firsts_some h)
  obtain ⟨name', ho, heq⟩ := Option.map_eq_some_iff.1 hmap
  cases heq
  exact ⟨r, hr, rfl, ho⟩

theorem origin_some {name : String}
    (h : ((gather locals rows).canonical order siblings).origin.lookup id = some name) :
    ∃ r ∈ rows, canonicalize r.tag siblings = id ∧ r.origin = some name := by
  obtain ⟨e, _, hmap⟩ := List.mem_filterMap.1 (firsts_some h)
  obtain ⟨name', ho, heq⟩ := Option.map_eq_some_iff.1 hmap
  cases heq
  obtain ⟨r, hr, ht, hname⟩ := origin_gather_some ho
  exact ⟨r, hr, by rw [ht], hname⟩

theorem origin_none
    (h : ((gather locals rows).canonical order siblings).origin.lookup id = none) :
    ∀ r ∈ rows, canonicalize r.tag siblings = id → r.origin = none := by
  intro r hr hid
  cases ho : (gather locals rows).origin.lookup r.tag with
  | none => exact origin_gather_none.1 ho r hr rfl
  | some name =>
    -- every tag of a row is visited
    have hkey : r.tag ∈ (gather locals rows).presence :=
      mem_assertAll.2 ⟨_, List.mem_map.2 ⟨r, hr, rfl⟩⟩
    obtain ⟨bits, hbits⟩ := Option.isSome_iff_exists.1 (AList.lookup_isSome.2 hkey)
    refine absurd ?_ (firsts_none.1 h name)
    exact List.mem_filterMap.2 ⟨_, order.mem_visit.2 hbits, by simp [ho, hid]⟩

end Gathering

/-! ## Names of services -/

section Names

variable {db : Db}

theorem mem_listSharedServices {svc : SharedService} : svc ∈ db.listSharedServices ↔
    ∃ row, db.services.lookup svc.id = some row ∧ row.scope = .shared ∧ row.name = svc.name ∧
      row.url = some svc.url := by
  rw [listSharedServices, List.mem_filterMap]
  simp only [mem_orderBy]
  constructor
  · rintro ⟨⟨id, row⟩, he, h⟩
    obtain ⟨hscope, hurl⟩ := Option.ite_none_right_eq_some.1 h
    obtain ⟨url, hrow, rfl⟩ := Option.map_eq_some_iff.1 hurl
    exact ⟨row, Table.mem_entries.1 he, hscope, rfl, hrow⟩
  · rintro ⟨row, hl, hscope, hname, hurl⟩
    refine ⟨⟨svc.id, row⟩, Table.mem_entries.2 hl, ?_⟩
    rw [if_pos hscope, hurl, Option.map_some, hname]

theorem not_local_of_shared {svc : SharedService} (h : svc ∈ db.listSharedServices) :
    svc.id ∉ db.localServiceIds := by
  intro hlocal
  obtain ⟨row, hl, hscope, _⟩ := mem_listSharedServices.1 h
  obtain ⟨⟨id, row'⟩, he, rfl⟩ := List.mem_map.1 hlocal
  obtain ⟨hmem, hp⟩ := List.mem_filter.1 (mem_orderBy.1 he)
  rw [Table.mem_entries.1 hmem] at hl
  cases hl
  simp [hscope] at hp

theorem listSharedServices_ascending (db : Db) :
    (db.listSharedServices.map SharedService.id).Pairwise (· < ·) := by
  have hkeys : ((orderBy (fun e : Sigma fun _ : Nat => ServiceRow => e.1)
      db.services.entries).map Sigma.fst).Pairwise (· < ·) :=
    orderBy_strict db.services.nodupKeys
  rw [List.pairwise_map] at hkeys ⊢
  refine hkeys.filterMap _ ?_
  intro e e' hlt svc hsvc svc' hsvc'
  obtain ⟨_, hurl⟩ := Option.ite_none_right_eq_some.1 hsvc
  obtain ⟨_, hurl'⟩ := Option.ite_none_right_eq_some.1 hsvc'
  obtain ⟨_, _, rfl⟩ := Option.map_eq_some_iff.1 hurl
  obtain ⟨_, _, rfl⟩ := Option.map_eq_some_iff.1 hurl'
  exact hlt

theorem lookup_serviceNameMap {s : Nat} {name : String} :
    db.serviceNameMap.lookup s = some name ↔
      ∃ svc ∈ db.listSharedServices, svc.id = s ∧ svc.name = name := by
  have hmem : ∀ name, (s, name) ∈ db.listSharedServices.map (fun s => (s.id, s.name)) ↔
      ∃ svc ∈ db.listSharedServices, svc.id = s ∧ svc.name = name := by
    intro name
    simp
  constructor
  · intro h
    exact (hmem name).1 (Table.collect_some h)
  · intro h
    refine Table.collect_of_mem ((hmem name).2 h) ?_
    obtain ⟨svc, hsvc, rfl, rfl⟩ := h
    intro name' hname'
    obtain ⟨svc', hsvc', hid, rfl⟩ := (hmem name').1 hname'
    obtain ⟨row, hl, _, hname, _⟩ := mem_listSharedServices.1 hsvc
    obtain ⟨row', hl', _, hname', _⟩ := mem_listSharedServices.1 hsvc'
    rw [hid, hl] at hl'
    cases hl'
    rw [← hname, hname']

/-- The names of a set of services, by ascending id: those of the attached shared ones in it. -/
theorem filterMap_serviceNameMap (ids : Finset Nat) :
    (ids.sort (· ≤ ·)).filterMap db.serviceNameMap.lookup =
      (db.listSharedServices.filter fun svc => svc.id ∈ ids).map SharedService.name := by
  have hnamed : (ids.sort (· ≤ ·)).filter (fun s => (db.serviceNameMap.lookup s).isSome) =
      (db.listSharedServices.filter fun svc => svc.id ∈ ids).map SharedService.id := by
    refine strict_ext ?_ ?_ ?_
    · exact (Finset.sortedLT_sort ids).pairwise.sublist List.filter_sublist
    · exact (listSharedServices_ascending db).sublist (List.filter_sublist.map _)
    · intro s
      simp only [List.mem_filter, Finset.mem_sort, List.mem_map, decide_eq_true_eq,
        Option.isSome_iff_exists, lookup_serviceNameMap]
      constructor
      · rintro ⟨hs, name, svc, hsvc, rfl, _⟩
        exact ⟨svc, ⟨hsvc, hs⟩, rfl⟩
      · rintro ⟨svc, ⟨hsvc, hs⟩, rfl⟩
        exact ⟨hs, svc.name, svc, hsvc, rfl, rfl⟩
  have hskip : ∀ l : List Nat, l.filterMap db.serviceNameMap.lookup =
      (l.filter fun s => (db.serviceNameMap.lookup s).isSome).filterMap
        db.serviceNameMap.lookup := by
    intro l
    rw [List.filterMap_filter]
    refine List.filterMap_congr ?_
    intro s _
    cases db.serviceNameMap.lookup s <;> rfl
  rw [hskip, hnamed, List.filterMap_map, ← List.filterMap_eq_map]
  refine List.filterMap_congr ?_
  intro svc hsvc
  exact lookup_serviceNameMap.2 ⟨svc, (List.mem_filter.1 hsvc).1, rfl, rfl⟩

end Names

/-! ## The panel -/

/-- A visible mapping of the service carries some spelling of a canonical tag. -/
def supplies (u : Unicode) (db : Db) (scope : ReadScope) (file : Nat) (siblings : SiblingEdges Nat)
    (id service : Nat) : Bool :=
  (db.detailRows u (db.includedServices scope) file).any fun r =>
    canonicalize r.tag siblings = id ∧ r.service = service

/-- What the panel says of a tag, from the visible mappings of its spellings. -/
structure Explained (u : Unicode) (db : Db) (scope : ReadScope) (file : Nat)
    (graph : RelationGraph Nat) (d : TagDetail) (id : Nat) : Prop where
  canonical : canonicalize id graph.siblings = id
  text : db.tags.valueOf id = some d.tag
  services : d.services = (db.listSharedServices.filter fun svc =>
    db.supplies u scope file graph.siblings id svc.id).map SharedService.name
  unshared : d.presence = .local → d.services = []
  origin_some : ∀ name, d.origin = some name →
    ∃ r ∈ db.detailRows u (db.includedServices scope) file,
      canonicalize r.tag graph.siblings = id ∧ r.origin = some name
  origin_none : d.origin = none → ∀ r ∈ db.detailRows u (db.includedServices scope) file,
    canonicalize r.tag graph.siblings = id → r.origin = none
  relations : d.relations = graph.hasRelations id

section Panel

variable {u : Unicode} {db : Db} {scope : ReadScope} {file id : Nat} {order : HashOrder Nat}
  {graph : RelationGraph Nat}

theorem mapM_map_of {α β γ : Type} {f : α → Option β} {f' : α → Option γ} {g : β → γ}
    (h : ∀ a, (f a).map g = f' a) (l : List α) : (l.mapM f).map (List.map g) = l.mapM f' := by
  induction l with
  | nil => rfl
  | cons a l ih =>
    rw [List.mapM_cons, List.mapM_cons, ← ih, ← h a]
    cases f a with
    | none => rfl
    | some b => cases l.mapM f <;> rfl

theorem of_mem_mapM {α β : Type} {f : α → Option β} {l : List α} {bs : List β}
    (h : l.mapM f = some bs) {b : β} (hb : b ∈ bs) : ∃ a ∈ l, f a = some b := by
  induction l generalizing bs with
  | nil =>
    cases h
    cases hb
  | cons a l ih =>
    rw [List.mapM_cons] at h
    obtain ⟨b', hb', h⟩ := Option.bind_eq_some_iff.1 h
    obtain ⟨bs', hbs', h⟩ := Option.bind_eq_some_iff.1 h
    cases h
    rcases List.mem_cons.1 hb with rfl | hb
    · exact ⟨a, by simp, hb'⟩
    · obtain ⟨a', ha', hf⟩ := ih hbs' hb
      exact ⟨a', List.mem_cons_of_mem _ ha', hf⟩

theorem map_orderBy {α β γ : Type} [LinearOrder γ] (key : β → γ) (g : α → β) (l : List α) :
    (orderBy (fun a => key (g a)) l).map g = orderBy key (l.map g) :=
  List.map_insertionSort _ _ _ _ fun _ _ _ _ => Iff.rfl

/-- The raw maps of a read of the panel. -/
def gathered (u : Unicode) (db : Db) (scope : ReadScope) (file : Nat) : Gathered :=
  gather db.localServiceIds (db.detailRows u (db.includedServices scope) file)

/-- A tag of the panel is that of the plain list, with more said of it. -/
theorem tagDetail_shown (order : HashOrder Nat) (id : Nat) :
    (db.tagDetail graph (db.gathered u scope file)
      ((db.gathered u scope file).canonical order graph.siblings) id).map TagDetail.shown =
    db.tagWithPresence (db.rawPresence u (db.includedServices scope) file)
      (effPresence graph.siblings (db.rawPresence u (db.includedServices scope) file)) id := by
  rw [tagDetail, tagWithPresence, lookup_presence_canonical, gathered, presence_gather]
  cases presenceOf _ with
  | none => rfl
  | some presence => cases db.tags.valueOf id <;> rfl

theorem supplies_iff {s : Nat} (hs : s ∉ db.localServiceIds) :
    db.supplies u scope file graph.siblings id s = true ↔
      s ∈ (((db.gathered u scope file).canonical order graph.siblings).pulled.lookup id).getD ∅ := by
  rw [gathered, mem_pulled, supplies, List.any_eq_true]
  simp only [decide_eq_true_eq]
  constructor
  · rintro ⟨r, hr, hid, hservice⟩
    exact ⟨r, hr, hid, hservice, hs⟩
  · rintro ⟨r, hr, hid, hservice, _⟩
    exact ⟨r, hr, hid, hservice⟩

/-- A tag that a shared service carries is not shown as the user's alone. -/
theorem not_local_of_supplies (order : HashOrder Nat) {s : Nat} (hs : s ∉ db.localServiceIds)
    (h : db.supplies u scope file graph.siblings id s = true) :
    ∃ bits, ((db.gathered u scope file).canonical order graph.siblings).presence.lookup id =
      some bits ∧ bits.2 = true := by
  obtain ⟨r, hr, hmatch⟩ := List.any_eq_true.1 h
  obtain ⟨hid, hservice⟩ := of_decide_eq_true hmatch
  have hraw : (r.tag, decide (r.service ∈ db.localServiceIds), true) ∈
      (db.detailRows u (db.includedServices scope) file).map fun r =>
        (r.tag, decide (r.service ∈ db.localServiceIds),
          decide (r.service ∉ db.localServiceIds)) := by
    refine List.mem_map.2 ⟨r, hr, ?_⟩
    rw [hservice]
    simp [hs]
  obtain ⟨bits, hbits⟩ := Option.isSome_iff_exists.1
    (AList.lookup_isSome.2 (mem_assertAll.2 ⟨_, hraw⟩))
  have hle := joinAll_le_iff.1 (le_refl _) _ hraw
  rw [← assertAll_eq_joinAll, hbits, Option.getD_some] at hle
  have hvisit : (id, bits) ∈ (order.visit (db.gathered u scope file).presence).map fun e =>
      (canonicalize e.1 graph.siblings, e.2) :=
    List.mem_map.2 ⟨(r.tag, bits), order.mem_visit.2 hbits, by rw [hid]⟩
  obtain ⟨bits', hbits'⟩ := Option.isSome_iff_exists.1
    (AList.lookup_isSome.2 (mem_assertAll.2 ⟨_, hvisit⟩))
  have hle' := joinAll_le_iff.1 (le_refl _) _ hvisit
  rw [← assertAll_eq_joinAll, hbits', Option.getD_some] at hle'
  refine ⟨bits', hbits', ?_⟩
  exact Bool.le_iff_imp.1 (hle.2.trans hle'.2) rfl

/-- What is shown is canonical. -/
theorem canonical_of_effective {raw : List Nat}
    (h : id ∈ effectiveTags raw graph.siblings graph.parents) :
    canonicalize id graph.siblings = id := by
  obtain ⟨t, _, hpath⟩ := mem_effectiveTags.1 h
  cases hpath with
  | refl => exact canonicalize_canonicalize t graph.siblings
  | tail _ hstep => exact canonicalize_of_mem_implied hstep

theorem tagDetail_explained {d : TagDetail} (hid : canonicalize id graph.siblings = id)
    (h : db.tagDetail graph (db.gathered u scope file)
      ((db.gathered u scope file).canonical order graph.siblings) id = some d) :
    Explained u db scope file graph d id := by
  obtain ⟨presence, hpresence, hmap⟩ := Option.bind_eq_some_iff.1 h
  obtain ⟨tag, htag, rfl⟩ := Option.map_eq_some_iff.1 hmap
  have hservices : (((((db.gathered u scope file).canonical order graph.siblings).pulled.lookup
      id).map fun ids => (ids.sort (· ≤ ·)).filterMap db.serviceNameMap.lookup).getD []) =
      (db.listSharedServices.filter fun svc =>
        db.supplies u scope file graph.siblings id svc.id).map SharedService.name := by
    have hids : (db.listSharedServices.filter fun svc =>
        db.supplies u scope file graph.siblings id svc.id) =
        db.listSharedServices.filter fun svc => svc.id ∈
          (((db.gathered u scope file).canonical order graph.siblings).pulled.lookup id).getD ∅ := by
      refine List.filter_congr ?_
      intro svc hsvc
      rw [Bool.eq_iff_iff, decide_eq_true_eq, supplies_iff (not_local_of_shared hsvc)]
    rw [hids, ← filterMap_serviceNameMap]
    cases ((db.gathered u scope file).canonical order graph.siblings).pulled.lookup id with
    | none => simp
    | some ids => rfl
  refine ⟨hid, htag, hservices, ?_, fun name ho => origin_some ho, fun ho => origin_none ho, rfl⟩
  intro hlocal
  rw [hservices, List.map_eq_nil_iff, List.filter_eq_nil_iff]
  intro svc hsvc hsupplies
  obtain ⟨bits, hbits, htrue⟩ := not_local_of_supplies order (not_local_of_shared hsvc) hsupplies
  rw [hbits, Option.getD_some] at hpresence
  simp only at hlocal
  subst hlocal
  obtain ⟨l, p⟩ := bits
  simp only at htrue
  subst htrue
  cases l <;> cases hpresence

/-- A read of the panel, entry by entry. -/
theorem displayTagsDetailed_spec (order : HashOrder Nat) (u : Unicode) (file : Nat)
    (hc : db.Constraints) {scope : ReadScope} {graph : RelationGraph Nat}
    (hg : db.relationGraph (db.includedServices scope) = some graph)
    (hs : EdgesKnown db graph.siblings) (hp : ParentsKnown db graph.parents) :
    ∃ details, db.displayTagsDetailed order u file scope = some details ∧
      db.displayTagsOf u file scope = some (details.map TagDetail.shown) ∧
      ∀ d ∈ details, ∃ id ∈ effectiveTags
          (db.rawPresence u (db.includedServices scope) file).keys graph.siblings graph.parents,
        Explained u db scope file graph d id := by
  obtain ⟨shown, hshown, _⟩ := displayTagsOf_spec u file hc hg hs hp
  have hplain := hshown
  rw [displayTagsOf, hg, Option.bind_some, ← mapM_map_of (tagDetail_shown order), Option.map_map,
    Option.map_eq_some_iff] at hplain
  obtain ⟨ds, hds, hsorted⟩ := hplain
  refine ⟨orderBy (fun d => toLex (d.tag.ns, d.tag.subtag)) ds, ?_, ?_, ?_⟩
  · have hraw : (gather db.localServiceIds
        (db.detailRows u (db.includedServices scope) file)).presence.keys =
        (db.rawPresence u (db.includedServices scope) file).keys := by
      rw [presence_gather]
    rw [displayTagsDetailed, hg, Option.bind_some]
    simp only [hraw]
    exact congrArg (Option.map _) hds
  · rw [hshown, ← hsorted]
    exact congrArg some
      (map_orderBy (fun t : TagWithPresence => toLex (t.tag.ns, t.tag.subtag)) TagDetail.shown
        ds).symm
  · intro d hd
    obtain ⟨id, hmem, hid⟩ := of_mem_mapM hds (mem_orderBy.1 hd)
    have hmem := (Finset.mem_sort _).1 hmem
    exact ⟨id, hmem, tagDetail_explained (canonical_of_effective hmem) hid⟩

/-- **The panel agrees with the plain list.** In whatever order its maps are visited, a read of the
panel shows the tags of the plain list with their presence, in the same order. It names, by
ascending id, the attached shared services with a visible mapping of some spelling of the tag, none
for a tag that is only the user's or only derived; the origin is that of such a mapping, and is
missing only where none of them has one. -/
theorem details_agree (order : HashOrder Nat) (u : Unicode) (db : Db) (hc : db.Constraints)
    (file : Nat) (scope : ReadScope) :
    ∃ graph details, db.relationGraph (db.includedServices scope) = some graph ∧
      db.displayTagsDetailed order u file scope = some details ∧
      db.displayTagsOf u file scope = some (details.map TagDetail.shown) ∧
      ∀ d ∈ details, ∃ id, Explained u db scope file graph d id := by
  obtain ⟨graph, hg, hs, hp⟩ := relationGraph_spec hc scope
  obtain ⟨details, hdetails, hshown, hexplained⟩ :=
    displayTagsDetailed_spec order u file hc hg hs hp
  refine ⟨graph, details, hg, hdetails, hshown, ?_⟩
  intro d hd
  obtain ⟨id, _, hid⟩ := hexplained d hd
  exact ⟨id, hid⟩

/-- A file with a pulled spelling of a tag and the user's own; the tag has a parent. -/
def twoSpellings : Db :=
  { Db.empty with
    tags := ⟨[(3, ⟨"", "animal"⟩), (2, ⟨"", "feline"⟩), (1, ⟨"", "cat"⟩)], by decide⟩
    origins := ⟨[(1, "wd14-tagger")], by decide⟩
    services := ([⟨1, { name := "my tags", scope := .local, priority := 1000 }⟩,
      ⟨2, { name := "ptr", scope := .shared, url := some "http://ptr/" }⟩] :
        List (Sigma fun _ : Nat => ServiceRow)).toAList
    mappings := ([⟨(1, 1, 2), ⟨.current, 0, 1, some 1⟩⟩, ⟨(1, 2, 1), ⟨.current, 0, 1, none⟩⟩] :
      List (Sigma fun _ : Nat × Nat × Nat => MappingRow)).toAList
    siblings := AList.singleton (1, 2) ⟨2, .current⟩
    parents := AList.singleton (2, 3, 1) .current }

theorem twoSpellings_constraints : twoSpellings.Constraints :=
  .of_entries (by decide) (by decide) (by decide) (by decide) (by decide) (by decide)

theorem details_agree_twoSpellings :
    ∃ graph details, twoSpellings.relationGraph (twoSpellings.includedServices .merged) =
        some graph ∧
      twoSpellings.displayTagsDetailed (.reversed Nat) .asciiText 1 .merged = some details ∧
      twoSpellings.displayTagsOf .asciiText 1 .merged = some (details.map TagDetail.shown) ∧
      ∀ d ∈ details, ∃ id, Explained .asciiText twoSpellings .merged 1 graph d id :=
  details_agree (.reversed Nat) .asciiText twoSpellings twoSpellings_constraints 1 .merged

end Panel

end Db
end Naiad
