import Naiad.Db.Detail
import Naiad.Db.RelationCache

/-!
# Naiad.Db.Popover

The popover of a tag: its canonical form, how many files have it, and its aliases, parents and
children with their counts. The graph and the merged counts come from the relation cache.

* `Lists`: a section shows the first ids of a list up to the cap, ranked by count.
* `popover_lists`: **a popover opens on every tag and shows the relations and counts there are**,
  whatever has been committed and read before.
* `panel_popovers`: **the popovers of a file's panel agree with the panel**.
-/

namespace Naiad

open Lib Core Netproto Db

structure RelationTag where
  tag : Tag
  count : Nat
deriving DecidableEq

/-- Count descending, then namespace and subtag ascending. -/
def RelationTag.rank (r : RelationTag) : Lex (ℤ × Lex (String × String)) :=
  toLex (-(r.count : ℤ), toLex (r.tag.ns, r.tag.subtag))

/-- At most the cap's number of tags; the total is that before the cap. -/
structure RelationSection where
  items : List RelationTag
  total : Nat
deriving DecidableEq

def RelationSection.empty : RelationSection := ⟨[], 0⟩

structure TagRelations where
  canonical : Tag
  count : Nat
  viaAlias : Bool
  aliases : RelationSection
  parents : RelationSection
  children : RelationSection
deriving DecidableEq

namespace CountedDb

/-- The merged count of a canonical tag; without aliases that count, its own. -/
def displayCount (c : CountedDb) (completion : RelationCompletion) (canon : Nat) : Nat :=
  match completion.mergedCount canon with
  | some merged => merged
  | none => c.rawCount canon

/-- A row of a section: an alias shows its own count, a parent or a child that of its canonical. -/
def relationTag (c : CountedDb) (graph : RelationGraph Nat) (completion : RelationCompletion)
    (aliasRaw : Bool) (id : Nat) : Option RelationTag :=
  (c.tags.valueOf id).map fun tag =>
    ⟨tag, if aliasRaw then c.rawCount id
      else c.displayCount completion (canonicalize id graph.siblings)⟩

def resolveRelationSection (c : CountedDb) (capped : RelationCapped Nat)
    (graph : RelationGraph Nat) (completion : RelationCompletion) (aliasRaw : Bool) :
    Option RelationSection :=
  (capped.ids.mapM (c.relationTag graph completion aliasRaw)).map fun items =>
    ⟨orderBy RelationTag.rank items, capped.total⟩

/-- The file has a current mapping of an alias; on which service, and whether it is shown, does not
matter. -/
def viaAlias (c : CountedDb) (graph : RelationGraph Nat) (canonical : Nat) : Option Nat → Bool
  | none => false
  | some file =>
    match graph.siblingPreimage.lookup canonical with
    | none => false
    | some bads => !bads.isEmpty && c.mappings.entries.any fun e =>
        e.1.1 = file ∧ e.2.status = .current ∧ e.1.2.1 ∈ bads

/-- `tag_relations`, once it has its graph and overlay. -/
def relationsWith (c : CountedDb) (graph : RelationGraph Nat) (completion : RelationCompletion)
    (tag : Tag) (file : Option Nat) (cap : Nat) : Option TagRelations :=
  match c.tagId tag with
  | none => some ⟨tag, 0, false, .empty, .empty, .empty⟩
  | some rawId => do
    let canonicalId := canonicalize rawId graph.siblings
    let canonical ← c.tags.valueOf canonicalId
    let sections := graph.relationsOf canonicalId cap
    let aliases ← c.resolveRelationSection sections.aliases graph completion true
    let parents ← c.resolveRelationSection sections.parents graph completion false
    let children ← c.resolveRelationSection sections.children graph completion false
    return ⟨canonical, c.displayCount completion canonicalId, c.viaAlias graph canonicalId file,
      aliases, parents, children⟩

end CountedDb

/-- No transaction commits while the popover is read. -/
def CachedDb.tagRelations (c : CachedDb) (tag : Tag) (file : Option Nat) (scope : ReadScope)
    (cap : Nat) : Option TagRelations :=
  (c.ensureRelationCache (c.db.includedServices scope) []).1.bind fun relations =>
    c.db.relationsWith relations.1 relations.2 tag file cap

/-- `REFERENCES tags(id)` of `child_tag_id`. -/
def Db.ChildTags (db : Db) : Prop :=
  ∀ child p s st, db.parents.lookup (child, p, s) = some st → child ∈ db.tags.ids

/-! ## Sections -/

/-- The first ids of a list, up to the cap, each with its text and its count, ranked. -/
structure RelationSection.Lists (c : CountedDb) (ids : List Nat) (cap : Nat) (count : Nat → Nat)
    (s : RelationSection) : Prop where
  total : s.total = ids.length
  items : ∀ item, item ∈ s.items ↔
    ∃ id ∈ ids.take cap, c.tags.valueOf id = some item.tag ∧ item.count = count id
  length : s.items.length = min cap ids.length
  ranked : (s.items.map RelationTag.rank).Pairwise (· < ·)

theorem RelationSection.Lists.total_ne_zero {c : CountedDb} {ids : List Nat} {cap : Nat}
    {count : Nat → Nat} {s : RelationSection} (h : s.Lists c ids cap count) :
    s.total ≠ 0 ↔ ∃ x, x ∈ ids := by
  rw [h.total, ne_eq, List.length_eq_zero_iff, List.eq_nil_iff_forall_not_mem]
  simp

namespace CountedDb

section Sections

variable {c : CountedDb} {graph : RelationGraph Nat} {id cap : Nat}

/-- Whether or not an alias counts, the count shown is that of all spellings. -/
theorem displayCount_eq (hid : canonicalize id graph.siblings = id) :
    c.displayCount (c.buildRelationCompletion graph) id = c.mergedTotal graph.siblings id := by
  unfold displayCount
  cases hm : (c.buildRelationCompletion graph).mergedCount id with
  | some merged => exact (mergedCount_eq_some.1 hm).2.1
  | none =>
    cases halias : hasAlias graph.siblings id with
    | false => exact (mergedTotal_of_plain hid halias).symm
    | true =>
      -- aliases, but nothing counted
      have hzero : c.mergedTotal graph.siblings id = 0 := by
        by_contra hpos
        rw [mergedCount_eq_some.2 ⟨halias, rfl, Nat.pos_of_ne_zero hpos⟩] at hm
        cases hm
      have hle : c.rawCount id ≤ c.mergedTotal graph.siblings (canonicalize id graph.siblings) :=
        c.rawCount_le_mergedTotal id
      rw [hid, hzero] at hle
      rw [hzero]
      exact Nat.le_zero.1 hle

theorem mapM_of_some {α β : Type} {f : α → Option β} {g : α → β} {l : List α}
    (h : ∀ a ∈ l, f a = some (g a)) : l.mapM f = some (l.map g) := by
  induction l with
  | nil => rfl
  | cons a l ih =>
    rw [List.mapM_cons, h a (by simp), ih fun b hb => h b (List.mem_cons_of_mem _ hb)]
    rfl

/-- A tag of the dictionary with a count. -/
def row (c : CountedDb) (count : Nat → Nat) (id : Nat) : RelationTag :=
  ⟨(c.tags.valueOf id).getD ⟨"", ""⟩, count id⟩

theorem valueOf_row (h : id ∈ c.tags.ids) (count : Nat → Nat) :
    c.tags.valueOf id = some (c.row count id).tag := by
  obtain ⟨tag, htag⟩ := IdTable.exists_valueOf h
  rw [row, htag, Option.getD_some]

theorem rank_injective {r r' : RelationTag} (h : r.rank = r'.rank) : r.tag = r'.tag := by
  obtain ⟨⟨ns, subtag⟩, count⟩ := r
  obtain ⟨⟨ns', subtag'⟩, count'⟩ := r'
  simp only [RelationTag.rank, EmbeddingLike.apply_eq_iff_eq, Prod.mk.injEq] at h
  obtain ⟨_, rfl, rfl⟩ := h
  rfl

/-- A section is read without fail where its ids are known. -/
theorem lists_resolve (hu : c.tags.Unique) {ids : List Nat} (hnodup : ids.Nodup)
    (hknown : ∀ x ∈ ids, x ∈ c.tags.ids) {completion : RelationCompletion} {aliasRaw : Bool}
    {count : Nat → Nat} (hcount : ∀ x ∈ ids, (if aliasRaw then c.rawCount x
      else c.displayCount completion (canonicalize x graph.siblings)) = count x) (cap : Nat) :
    ∃ s, c.resolveRelationSection (capIds ids cap) graph completion aliasRaw = some s ∧
      s.Lists c ids cap count := by
  have hrows : (ids.take cap).mapM (c.relationTag graph completion aliasRaw) =
      some ((ids.take cap).map (c.row count)) := by
    refine mapM_of_some ?_
    intro x hx
    have hx := List.mem_of_mem_take hx
    rw [relationTag, valueOf_row (hknown x hx) count, Option.map_some, hcount x hx]
    rfl
  refine ⟨⟨orderBy RelationTag.rank ((ids.take cap).map (c.row count)), ids.length⟩, ?_, rfl, ?_, ?_,
    ?_⟩
  · rw [resolveRelationSection, capIds, hrows]
    rfl
  · intro item
    simp only [mem_orderBy, List.mem_map]
    constructor
    · rintro ⟨x, hx, rfl⟩
      exact ⟨x, hx, valueOf_row (hknown x (List.mem_of_mem_take hx)) count, rfl⟩
    · rintro ⟨x, hx, htag, hcount⟩
      refine ⟨x, hx, ?_⟩
      rw [row, htag, Option.getD_some, ← hcount]
  · rw [(perm_orderBy _ _).length_eq, List.length_map, List.length_take]
  · refine orderBy_strict ?_
    rw [List.map_map]
    refine (hnodup.sublist (List.take_sublist _ _)).map_on ?_
    intro x hx y hy heq
    have htag := rank_injective heq
    have hx := valueOf_row (hknown x (List.mem_of_mem_take hx)) count
    have hy := valueOf_row (hknown y (List.mem_of_mem_take hy)) count
    rw [← htag] at hy
    have hx := IdTable.valueOf_eq_some.1 hx
    have hy := IdTable.valueOf_eq_some.1 hy
    exact (Prod.mk.inj (List.inj_on_of_nodup_map hu hx hy rfl)).1

/-- Canonical ids are listed with their merged counts. -/
theorem lists_merged (hu : c.tags.Unique) {ids : List Nat} (hascending : ids.Pairwise (· < ·))
    (hknown : ∀ x ∈ ids, x ∈ c.tags.ids) (hcanon : ∀ x ∈ ids, canonicalize x graph.siblings = x)
    (cap : Nat) :
    ∃ s, c.resolveRelationSection (capIds ids cap) graph (c.buildRelationCompletion graph) false =
        some s ∧ s.Lists c ids cap (c.mergedTotal graph.siblings) := by
  refine lists_resolve hu (hascending.imp fun hlt => ne_of_lt hlt) hknown ?_ cap
  intro x hx
  rw [hcanon x hx]
  exact displayCount_eq (hcanon x hx)

end Sections

end CountedDb

/-! ## What a popover shows -/

/-- The popover of a canonical tag. -/
structure Opened (c : CountedDb) (graph : RelationGraph Nat) (id : Nat) (file : Option Nat)
    (cap : Nat) (r : TagRelations) : Prop where
  text : c.tags.valueOf id = some r.canonical
  count : r.count = c.mergedTotal graph.siblings id
  viaAlias : r.viaAlias = true ↔ ∃ f raw s row, file = some f ∧
    c.mappings.lookup (f, raw, s) = some row ∧ row.status = .current ∧
      canonicalize raw graph.siblings = id ∧ raw ≠ id
  aliases : r.aliases.Lists c (graph.aliasIds id) cap c.rawCount
  parents : r.parents.Lists c (graph.parentIds id) cap (c.mergedTotal graph.siblings)
  children : r.children.Lists c (graph.childIds id) cap (c.mergedTotal graph.siblings)

section Known

variable {db : Db} {services : List Nat} {graph : RelationGraph Nat} {id x : Nat}

theorem child_of_load (h : db.ChildTags) {service : Nat} {e : Sigma fun _ : Nat => List Nat}
    (he : e ∈ (db.loadParentEdges service).entries) : e.1 ∈ db.tags.ids := by
  have hkey : e.1 ∈ db.loadParentEdges service := AList.mem_keys.2 (List.mem_map_of_mem he)
  rcases (Table.mem_groupOnto ∅ _ _).1 hkey with hempty | ⟨p, hp⟩
  · cases hempty
  · obtain ⟨⟨⟨child, p', s⟩, st⟩, hmem, hedge⟩ := List.mem_filterMap.1 hp
    obtain ⟨_, heq⟩ := Option.ite_none_right_eq_some.1 hedge
    cases heq
    exact h _ p' s st (Table.mem_entries.1 hmem)

def ChildrenKnown (db : Db) (merged : ParentEdges Nat) : Prop :=
  ∀ child ∈ merged, child ∈ db.tags.ids

theorem mergedParentEdges_children (h : db.ChildTags) (services : List Nat) :
    ChildrenKnown db (db.mergedParentEdges services) := by
  refine List.foldlRecOn (motive := ChildrenKnown db) services _ ?_ ?_
  · intro child hchild
    cases hchild
  · intro merged hmerged service _
    refine List.foldlRecOn (motive := ChildrenKnown db) (db.loadParentEdges service).entries _
      hmerged ?_
    intro merged hmerged e he child hchild
    rcases (AList.mem_insert _).1 hchild with rfl | hchild
    · exact child_of_load h he
    · exact hmerged child hchild

end Known

section Popover

variable {v : VersionedDb} {graph : RelationGraph Nat} {id x : Nat}

theorem alias_known (h : Queries.BothKnown v graph.siblings) (hx : x ∈ graph.aliasIds id) :
    x ∈ v.tags.ids := by
  obtain ⟨hcanon, hne⟩ := RelationGraph.mem_aliasIds.1 hx
  have hkey : x ∈ graph.siblings.keys := mem_keys_of_canonicalize_ne fun hself =>
    hne (hself.symm.trans hcanon)
  obtain ⟨ideal, hl⟩ := Option.isSome_iff_exists.1 (AList.lookup_isSome.2 hkey)
  exact (h x ideal hl).1

theorem parent_known (hs : EdgesKnown v.toDb graph.siblings) (hp : ParentsKnown v.toDb graph.parents)
    (hx : x ∈ graph.parentIds id) : x ∈ v.tags.ids := by
  obtain ⟨ps, hl, p, hmem, rfl⟩ := mem_implied.1 (RelationGraph.mem_parentIds.1 hx).1
  exact canonicalize_mem_ids hs (hp _ ps hl p hmem)

theorem child_known (h : ChildrenKnown v.toDb graph.parents) (hx : x ∈ graph.childIds id) :
    x ∈ v.tags.ids := by
  obtain ⟨ps, hl, _⟩ := mem_implied.1 (RelationGraph.mem_childIds.1 hx).1.2
  exact h x (AList.lookup_isSome.1 (by rw [hl]; rfl))

theorem viaAlias_iff {c : CountedDb} {file : Option Nat} :
    c.viaAlias graph id file = true ↔ ∃ f raw s row, file = some f ∧
      c.mappings.lookup (f, raw, s) = some row ∧ row.status = .current ∧
        canonicalize raw graph.siblings = id ∧ raw ≠ id := by
  cases file with
  | none => simp [CountedDb.viaAlias]
  | some f =>
    simp only [CountedDb.viaAlias, Option.some.injEq]
    constructor
    · intro h
      cases hl : graph.siblingPreimage.lookup id with
      | none => simp [hl] at h
      | some bads =>
        simp only [hl, Bool.and_eq_true] at h
        obtain ⟨e, he, hmatch⟩ := List.any_eq_true.1 h.2
        obtain ⟨hf, hcurrent, hbad⟩ := of_decide_eq_true hmatch
        obtain ⟨⟨f', raw, s⟩, row⟩ := e
        cases hf
        obtain ⟨hcanon, hne⟩ := ((CountedDb.mem_preimage hl).2.2 raw).1 hbad
        exact ⟨f', raw, s, row, rfl, Table.mem_entries.1 he, hcurrent, hcanon, hne.symm⟩
    · rintro ⟨_, raw, s, row, rfl, hl, hcurrent, hcanon, hne⟩
      obtain ⟨bads, hbads, hmem⟩ := CountedDb.exists_preimage hcanon hne.symm
      simp only [hbads, Bool.and_eq_true]
      refine ⟨?_, List.any_eq_true.2 ⟨_, Table.mem_entries.2 hl, by simp [hcurrent, hmem]⟩⟩
      cases bads with
      | nil => cases hmem
      | cons _ _ => rfl

/-- With a graph of known tags and a fresh overlay, every popover opens. -/
theorem relationsWith_opened (hc : v.toDb.Constraints) (hchild : v.toDb.ChildTags)
    (htags : v.SiblingTags) {services : List Nat}
    (hg : v.toDb.relationGraph services = some graph) (hp : ParentsKnown v.toDb graph.parents)
    {tag : Tag} (htag : v.tagId tag = some id) (file : Option Nat) (cap : Nat) :
    ∃ r, v.relationsWith graph (v.buildRelationCompletion graph) tag file cap = some r ∧
      Opened v.toCountedDb graph (canonicalize id graph.siblings) file cap r := by
  obtain ⟨siblings, hsiblings, hgraph⟩ := Option.map_eq_some_iff.1 hg
  have hboth : Queries.BothKnown v graph.siblings := by
    rw [← hgraph]
    exact Queries.mergedSiblingEdges_bothKnown htags hsiblings
  have hchildren : ChildrenKnown v.toDb graph.parents := by
    rw [← hgraph]
    exact mergedParentEdges_children hchild services
  have hs : EdgesKnown v.toDb graph.siblings := fun bad ideal hl => (hboth bad ideal hl).2
  have hid : id ∈ v.tags.ids := IdTable.mem_ids_of_mem
    ((IdTable.mem_rows_iff_idOf hc.tags_unique).2 htag)
  have hcanon := canonicalize_canonicalize id graph.siblings
  obtain ⟨text, htext⟩ := IdTable.exists_valueOf (canonicalize_mem_ids hs hid)
  have hsections : graph.relationsOf (canonicalize id graph.siblings) cap =
      ⟨capIds (graph.aliasIds (canonicalize id graph.siblings)) cap,
        capIds (graph.parentIds (canonicalize id graph.siblings)) cap,
        capIds (graph.childIds (canonicalize id graph.siblings)) cap⟩ := by
    simp only [RelationGraph.relationsOf, hcanon]
  obtain ⟨aliases, haliases, haliasList⟩ : ∃ s, v.resolveRelationSection
        (capIds (graph.aliasIds (canonicalize id graph.siblings)) cap) graph
        (v.buildRelationCompletion graph) true = some s ∧
      s.Lists v.toCountedDb (graph.aliasIds (canonicalize id graph.siblings)) cap v.rawCount :=
    CountedDb.lists_resolve hc.tags_unique ((graph.aliasIds_strict _).imp fun hlt => ne_of_lt hlt)
      (fun x hx => alias_known hboth hx) (fun _ _ => rfl) cap
  -- parents and children are canonical already
  obtain ⟨parents, hparents, hparentList⟩ := CountedDb.lists_merged hc.tags_unique
    (graph.parentIds_strict (canonicalize id graph.siblings)) (fun x hx => parent_known hs hp hx)
    (fun x hx => canonicalize_of_mem_implied (RelationGraph.mem_parentIds.1 hx).1) cap
  obtain ⟨children, hchildren, hchildList⟩ := CountedDb.lists_merged hc.tags_unique
    (graph.childIds_strict (canonicalize id graph.siblings)) (fun x hx => child_known hchildren hx)
    (fun x hx => (RelationGraph.mem_childIds.1 hx).1.1) cap
  refine ⟨⟨text, v.displayCount (v.buildRelationCompletion graph) (canonicalize id graph.siblings),
    v.viaAlias graph (canonicalize id graph.siblings) file, aliases, parents, children⟩, ?_, htext,
    CountedDb.displayCount_eq hcanon, viaAlias_iff, haliasList, hparentList, hchildList⟩
  unfold CountedDb.relationsWith
  rw [htag]
  simp only [htext, hsections, haliases, hparents, hchildren, Option.bind_eq_bind, Option.bind_some,
    Option.pure_def]

end Popover

namespace CachedDb

section Served

variable {c : CachedDb}

/-- A read that nothing is committed under gets the current graph and overlay. -/
theorem Coherent.ensure_eq (h : c.Coherent) (services : List Nat) :
    (c.ensureRelationCache services []).1 = c.db.freshRelations services := by
  have hdb := c.db_ensureRelationCache_nil services
  have hserved := (h.ensureRelationCache services []).steady (by rw [hdb])
  rwa [hdb] at hserved

theorem Coherent.tagRelations_eq (h : c.Coherent) {scope : ReadScope} {graph : RelationGraph Nat}
    (hg : c.db.toDb.relationGraph (c.db.includedServices scope) = some graph) (tag : Tag)
    (file : Option Nat) (cap : Nat) : c.tagRelations tag file scope cap =
      c.db.relationsWith graph (c.db.buildRelationCompletion graph) tag file cap := by
  rw [tagRelations, h.ensure_eq, VersionedDb.freshRelations, hg]
  rfl

/-- **What a popover lists.** Whatever has been committed and read before, a popover opens on every
tag. A tag that no row names has nothing to show. Any other is shown in its canonical form, with the
number of current mappings of all its spellings. Its aliases are listed with their own counts, its
canonical parents and children with their merged ones: the first ids up to the cap, ranked by count
and then by text, with the number there are without the cap. The alias mark says exactly that the
file has a current mapping of another spelling. -/
theorem popover_lists {v : VersionedDb} (hv : v.SiblingTags) (steps : List Step) {c : CachedDb}
    (hrun : run step ⟨v, []⟩ steps = c) (hc : c.db.toDb.Constraints)
    (hchild : c.db.toDb.ChildTags) (scope : ReadScope) (file : Option Nat) (cap : Nat) :
    ∃ graph, c.db.toDb.relationGraph (c.db.includedServices scope) = some graph ∧
      ∀ tag, ∃ r, c.tagRelations tag file scope cap = some r ∧
        (c.db.tagId tag = none → r = ⟨tag, 0, false, .empty, .empty, .empty⟩) ∧
        ∀ id, c.db.tagId tag = some id →
          Opened c.db.toCountedDb graph (canonicalize id graph.siblings) file cap r := by
  have hcoherent := coherent_run hv steps
  rw [hrun] at hcoherent
  obtain ⟨graph, hg, _, hp⟩ := relationGraph_spec hc scope
  refine ⟨graph, hg, ?_⟩
  intro tag
  rw [hcoherent.tagRelations_eq hg]
  cases htag : c.db.tagId tag with
  | none =>
    refine ⟨_, ?_, fun _ => rfl, ?_⟩
    · rw [CountedDb.relationsWith, htag]
    · intro id hid
      cases hid
  | some id =>
    obtain ⟨r, hr, hopened⟩ := relationsWith_opened hc hchild hcoherent.tags hg hp htag file cap
    refine ⟨r, hr, ?_, ?_⟩
    · intro hnone
      cases hnone
    · intro id' hid'
      cases hid'
      exact hopened

/-- The file of two spellings with its counts, before anything is read. -/
def counted : VersionedDb :=
  ⟨⟨twoSpellings, ([⟨1, 1⟩, ⟨2, 1⟩] : List (Sigma fun _ : Nat => Nat)).toAList, ∅⟩, 0⟩

/-- The user adds the spelling after a read of the relations. -/
def readBetween : List Step :=
  [.commit [.tag ⟨"", "dog"⟩], .read [1, 2] [],
    .commit [.mapping (.insert (1, 1, 1) ⟨.current, 0, 1, none⟩) false]]

theorem counted_siblingTags : counted.SiblingTags := by
  intro bad s row h
  have hmem := Table.mem_entries.2 h
  have hall : ∀ e ∈ counted.siblings.entries,
      e.1.1 ∈ counted.tags.ids ∧ e.2.ideal ∈ counted.tags.ids := by
    decide
  exact hall _ hmem

theorem readBetween_constraints : (run step ⟨counted, []⟩ readBetween).db.toDb.Constraints :=
  .of_entries (by decide) (by decide) (by decide) (by decide) (by decide) (by decide)

theorem readBetween_childTags : (run step ⟨counted, []⟩ readBetween).db.toDb.ChildTags := by
  intro child p s st h
  have hall : ∀ e ∈ (run step ⟨counted, []⟩ readBetween).db.parents.entries,
      e.1.1 ∈ (run step ⟨counted, []⟩ readBetween).db.tags.ids := by
    decide
  exact hall _ (Table.mem_entries.2 h)

theorem popover_lists_readBetween :
    ∃ graph, (run step ⟨counted, []⟩ readBetween).db.toDb.relationGraph
        ((run step ⟨counted, []⟩ readBetween).db.includedServices .merged) = some graph ∧
      ∀ tag, ∃ r, (run step ⟨counted, []⟩ readBetween).tagRelations tag (some 1) .merged 10 =
          some r ∧
        ((run step ⟨counted, []⟩ readBetween).db.tagId tag = none →
          r = ⟨tag, 0, false, .empty, .empty, .empty⟩) ∧
        ∀ id, (run step ⟨counted, []⟩ readBetween).db.tagId tag = some id →
          Opened (run step ⟨counted, []⟩ readBetween).db.toCountedDb graph
            (canonicalize id graph.siblings) (some 1) 10 r :=
  popover_lists counted_siblingTags readBetween rfl readBetween_constraints readBetween_childTags
    .merged (some 1) 10

/-- **The popovers of a panel.** Whatever has been committed and read before, every tag of a file's
panel has a popover, which shows it as it stands there. The panel marks a tag as related just when
its popover has something to list. Every parent that a popover lists is itself in the panel, and no
alias that it lists is. -/
theorem panel_popovers {v : VersionedDb} (hv : v.SiblingTags) (steps : List Step) {c : CachedDb}
    (hrun : run step ⟨v, []⟩ steps = c) (hc : c.db.toDb.Constraints)
    (hchild : c.db.toDb.ChildTags) (order : HashOrder Nat) (u : Unicode) (file : Nat)
    (scope : ReadScope) (cap : Nat) :
    ∃ details, c.db.toDb.displayTagsDetailed order u file scope = some details ∧
      ∀ d ∈ details, ∃ r, c.tagRelations d.tag (some file) scope cap = some r ∧
        r.canonical = d.tag ∧
        (d.relations = true ↔
          r.aliases.total ≠ 0 ∨ r.parents.total ≠ 0 ∨ r.children.total ≠ 0) ∧
        (∀ p ∈ r.parents.items, ∃ d' ∈ details, d'.tag = p.tag) ∧
        ∀ a ∈ r.aliases.items, ∀ d' ∈ details, d'.tag ≠ a.tag := by
  have hcoherent := coherent_run hv steps
  rw [hrun] at hcoherent
  obtain ⟨graph, hg, hs, hp⟩ := relationGraph_spec hc scope
  obtain ⟨details, hdetails, hshown, hexplained⟩ :=
    displayTagsDetailed_spec order u file hc hg hs hp
  obtain ⟨shown, hplain, hall⟩ := displayTagsOf_spec u file hc hg hs hp
  rw [hshown, Option.some.injEq] at hplain
  subst hplain
  refine ⟨details, hdetails, ?_⟩
  intro d hd
  obtain ⟨id, heffective, hid⟩ := hexplained d hd
  obtain ⟨r, hr, hopened⟩ := relationsWith_opened hc hchild hcoherent.tags hg hp
    ((tagId_eq_some hc).2 hid.text) (some file) cap
  rw [hid.canonical] at hopened
  refine ⟨r, by rw [hcoherent.tagRelations_eq hg, hr], ?_, ?_, ?_, ?_⟩
  · have htext := hopened.text
    rw [hid.text] at htext
    exact (Option.some.inj htext).symm
  · rw [hid.relations, RelationGraph.hasRelations_iff, hid.canonical, hopened.aliases.total_ne_zero,
      hopened.parents.total_ne_zero, hopened.children.total_ne_zero]
  · intro p hp
    obtain ⟨x, hx, htext, _⟩ := (hopened.parents.items p).1 hp
    have himplied := (RelationGraph.mem_parentIds.1 (List.mem_of_mem_take hx)).1
    obtain ⟨t, ht, hpath⟩ := mem_effectiveTags.1 heffective
    obtain ⟨t', ht', heq⟩ := (hall p.tag).2 ⟨x, htext, mem_effectiveTags.2 ⟨t, ht, hpath.tail himplied⟩⟩
    obtain ⟨d', hd', rfl⟩ := List.mem_map.1 ht'
    exact ⟨d', hd', heq⟩
  · intro a ha d' hd' heq
    obtain ⟨x, hx, htext, _⟩ := (hopened.aliases.items a).1 ha
    obtain ⟨hcanon, hne⟩ := RelationGraph.mem_aliasIds.1 (List.mem_of_mem_take hx)
    obtain ⟨id', _, hid'⟩ := hexplained d' hd'
    have htag := (tagId_eq_some hc).2 hid'.text
    rw [heq, (tagId_eq_some hc).2 htext] at htag
    cases htag
    exact hne (hid'.canonical.symm.trans hcanon)

theorem panel_popovers_readBetween :
    ∃ details, (run step ⟨counted, []⟩ readBetween).db.toDb.displayTagsDetailed (.reversed Nat)
        .asciiText 1 .merged = some details ∧
      ∀ d ∈ details, ∃ r, (run step ⟨counted, []⟩ readBetween).tagRelations d.tag (some 1)
          .merged 10 = some r ∧
        r.canonical = d.tag ∧
        (d.relations = true ↔
          r.aliases.total ≠ 0 ∨ r.parents.total ≠ 0 ∨ r.children.total ≠ 0) ∧
        (∀ p ∈ r.parents.items, ∃ d' ∈ details, d'.tag = p.tag) ∧
        ∀ a ∈ r.aliases.items, ∀ d' ∈ details, d'.tag ≠ a.tag :=
  panel_popovers counted_siblingTags readBetween rfl readBetween_constraints readBetween_childTags
    (.reversed Nat) .asciiText 1 .merged 10

end Served

end CachedDb

end Naiad
