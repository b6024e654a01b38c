import Naiad.Db.Completion
import Naiad.Lib.Reading
import Naiad.Lib.Run

/-!
# Naiad.Db.RelationCache

The relation graph and the completion overlay as reads are served them: from a cache whose entries
are stamped with the version of the tables they were built from, which row triggers count up.
Statements are those of SQL on single rows; the queries of a build see what has been committed by
then.

* `clock`: every row written moves the version, and a new tag changes nothing a build reads.
* `Coherent`: an entry with the current stamp is what a build would give now.
* `relation_cache_coherent`: **a cached read gives what a fresh build would**.
-/

namespace Naiad

open Lib Core Netproto Db

/-- A statement on one row. -/
inductive RowWrite (K V : Type)
  | insert (k : K) (v : V)
  | update (k k' : K) (v : V)
  | delete (k : K)

namespace RowWrite

variable {K V : Type}

/-- The row it leaves. -/
def row : RowWrite K V → Option (K × V)
  | .insert k v => some (k, v)
  | .update _ k' v => some (k', v)
  | .delete _ => none

variable [DecidableEq K]

/-- The table after a statement that finds its row; one whose key is taken is rejected. -/
def apply (t : Table K V) : RowWrite K V → Option (Table K V)
  | .insert k v => if (t.lookup k).isSome then none else some (t.insert k v)
  | .update k k' v =>
    if (t.lookup k).isSome ∧ (k' = k ∨ (t.lookup k').isNone) then some ((t.erase k).insert k' v)
    else none
  | .delete k => if (t.lookup k).isSome then some (t.erase k) else none

theorem lookup_apply {t t' : Table K V} {w : RowWrite K V} (h : w.apply t = some t') {k : K} {v : V}
    (hl : t'.lookup k = some v) : t.lookup k = some v ∨ w.row = some (k, v) := by
  have hinsert : ∀ {t : Table K V} {k' : K} {v' : V}, (t.insert k' v').lookup k = some v →
      t.lookup k = some v ∨ (k', v') = (k, v) := by
    intro t k' v' hl
    by_cases hk : k = k'
    · subst hk
      rw [AList.lookup_insert] at hl
      cases hl
      exact .inr rfl
    · rw [AList.lookup_insert_ne hk] at hl
      exact .inl hl
  cases w with
  | insert k' v' =>
    obtain ⟨_, heq⟩ := Option.ite_none_left_eq_some.1 h
    cases heq
    exact (hinsert hl).imp_right (congrArg some)
  | update k₀ k' v' =>
    obtain ⟨_, heq⟩ := Option.ite_none_right_eq_some.1 h
    cases heq
    rcases hinsert hl with hl | heq
    · exact .inl (Table.of_lookup_erase hl).2
    · exact .inr (congrArg some heq)
  | delete k' =>
    obtain ⟨_, heq⟩ := Option.ite_none_right_eq_some.1 h
    cases heq
    exact .inl (Table.of_lookup_erase hl).2

end RowWrite

/-- A database with its row of `relation_graph_version`. -/
structure VersionedDb extends CountedDb where
  relationGraphVersion : Int

/-- Writes to the tables a build reads; `watched` says that the `SET` list of an update of a mapping
names its tag or its status. -/
inductive RelationWrite
  | sibling (w : RowWrite (Nat × Nat) SiblingRow)
  | parent (w : RowWrite (Nat × Nat × Nat) MappingStatus)
  | service (w : RowWrite Nat ServiceRow)
  | mapping (w : RowWrite (Nat × Nat × Nat) MappingRow) (watched : Bool)
  | tag (tag : Tag)

namespace VersionedDb

/-- The `_relver_` triggers: `UPDATE relation_graph_version SET version = version + 1`. -/
def bump (v : VersionedDb) : VersionedDb :=
  { v with relationGraphVersion := v.relationGraphVersion + 1 }

/-- `REFERENCES tags(id)` of both columns. -/
def siblingAllowed (v : VersionedDb) (w : RowWrite (Nat × Nat) SiblingRow) : Bool :=
  w.row.all fun e => e.1.1 ∈ v.tags.ids ∧ e.2.ideal ∈ v.tags.ids

/-- The triggers of the completion counts, on a mapping row written. -/
def countTriggers (c : CountedDb) (old : Table (Nat × Nat × Nat) MappingRow) (watched : Bool) :
    RowWrite (Nat × Nat × Nat) MappingRow → CountedDb
  | .insert k new => c.completionAfterInsert k.2.1 new
  | .update k k' new =>
    match old.lookup k with
    | some row => if watched then c.completionAfterUpdate k.2.1 row k'.2.1 new else c
    | none => c
  | .delete k =>
    match old.lookup k with
    | some row => c.completionAfterDelete k.2.1 row
    | none => c

def write (v : VersionedDb) : RelationWrite → VersionedDb
  | .sibling w =>
    match w.apply v.siblings with
    | some siblings => if v.siblingAllowed w then bump { v with siblings := siblings } else v
    | none => v
  | .parent w =>
    match w.apply v.parents with
    | some parents => bump { v with parents := parents }
    | none => v
  | .service w =>
    match w.apply v.services with
    | some services => bump { v with services := services }
    | none => v
  | .mapping w watched =>
    match w.apply v.mappings with
    | some mappings =>
      bump { v with
        toCountedDb :=
          countTriggers { v.toCountedDb with mappings := mappings } v.mappings watched w }
    | none => v
  | .tag tag => { v with toCountedDb := v.internTag tag }

end VersionedDb

/-! ## Builds -/

namespace Queries

def mergeSiblingsOf (st : Table Nat Int × SiblingEdges Nat) (service : Nat) :
    Reading VersionedDb (Table Nat Int × SiblingEdges Nat) := do
  let priority ← .queryRow fun v => v.servicePriority service
  let candidates ← .query fun v => v.loadSiblingCandidates service
  return candidates.foldl (mergeSibling priority) st

def mergedSiblingEdges (services : List Nat) : Reading VersionedDb (SiblingEdges Nat) := do
  let st ← services.foldlM mergeSiblingsOf (∅, ∅)
  return st.2

def mergedParentEdges (services : List Nat) : Reading VersionedDb (ParentEdges Nat) :=
  services.foldlM (fun merged service => do
    let edges ← .query fun v => v.loadParentEdges service
    return edges.entries.foldl (fun merged e => mergeParents merged e.1 e.2) merged) ∅

/-- Canonical ideals and their aliases. -/
def involvedIds (graph : RelationGraph Nat) : List Nat :=
  graph.siblingPreimage.entries.flatMap fun e => e.1 :: e.2

def sumOf (raw : Nat → Nat) (canon : Nat) (bads : List Nat) : Nat := raw canon + (bads.map raw).sum

/-- The overlay, from the counts and names of the ids involved. -/
def overlay (graph : RelationGraph Nat) (raw : Nat → Nat) (names : Nat → Option Tag) :
    RelationCompletion where
  aliasToCanonical := Table.collect
    (graph.siblingPreimage.entries.flatMap fun e => e.2.map fun bad => (bad, e.1))
  merged := Table.collect (graph.siblingPreimage.entries.filterMap fun e =>
    if 0 < sumOf raw e.1 e.2 then some (e.1, sumOf raw e.1 e.2) else none)
  aliasNames := graph.siblingPreimage.entries.flatMap fun e =>
    e.2.filterMap fun bad => (names bad).map fun name => (e.1, name)
  idealNames := graph.siblingPreimage.entries.filterMap fun e =>
    if 0 < sumOf raw e.1 e.2 then (names e.1).map fun name => (e.1, name) else none

def buildRelationCompletion (graph : RelationGraph Nat) : Reading VersionedDb RelationCompletion :=
  if graph.siblingPreimage.entries.isEmpty then pure ⟨∅, ∅, [], []⟩
  else do
    let ids := involvedIds graph
    let raw ← .query fun v => v.completionCounts.select fun id _ => id ∈ ids
    let names ← .query fun v => v.tags.rows.filter fun r => r.1 ∈ ids
    return overlay graph (fun id => (raw.lookup id).getD 0)
      fun id => (names.find? (·.1 = id)).map Prod.snd

def build (services : List Nat) : Reading VersionedDb (RelationGraph Nat × RelationCompletion) := do
  let siblings ← mergedSiblingEdges services
  let parents ← mergedParentEdges services
  let graph := RelationGraph.new siblings parents
  let completion ← buildRelationCompletion graph
  return (graph, completion)

end Queries

/-! ## The cache -/

structure RelationCache where
  services : List Nat
  relationVersion : Int
  graph : RelationGraph Nat
  completion : RelationCompletion

def relationCacheCap : Nat := 4

/-- A database and the entries of one cache store, oldest first. -/
structure CachedDb where
  db : VersionedDb
  entries : List RelationCache

namespace CachedDb

def commit (db : VersionedDb) (ws : List RelationWrite) : VersionedDb := ws.foldl .write db

/-- The store after a new entry, without its oldest when it is full. -/
def pushEntry (entries : List RelationCache) (e : RelationCache) : List RelationCache :=
  (if relationCacheCap ≤ entries.length then entries.eraseIdx 0 else entries) ++ [e]

/-- A build and its entry, stamped with the version read before it. -/
def rebuild (c : CachedDb) (services : List Nat) (pending : List (List RelationWrite)) :
    Option (RelationGraph Nat × RelationCompletion) × CachedDb :=
  let out := (Queries.build services).run commit c.db pending
  match out.1 with
  | none => (none, ⟨out.2, c.entries⟩)
  | some built =>
    (some built,
      ⟨out.2, pushEntry c.entries ⟨services, c.db.relationGraphVersion, built.1, built.2⟩⟩)

/-- `pending` are the transactions committed between the queries of the build, should there be one. -/
def ensureRelationCache (c : CachedDb) (services : List Nat) (pending : List (List RelationWrite)) :
    Option (RelationGraph Nat × RelationCompletion) × CachedDb :=
  match c.entries.find? fun e => e.services = services with
  | some cache =>
    if cache.relationVersion = c.db.relationGraphVersion then
      (some (cache.graph, cache.completion), c)
    else
      -- stale: dropped before the build, which may fail
      rebuild ⟨c.db, c.entries.eraseP fun e => e.services = services⟩ services pending
  | none => rebuild c services pending

inductive Step
  | commit (ws : List RelationWrite)
  | read (services : List Nat) (pending : List (List RelationWrite))

def step (c : CachedDb) : Step → CachedDb
  | .commit ws => ⟨commit c.db ws, c.entries⟩
  | .read services pending => (c.ensureRelationCache services pending).2

end CachedDb

/-- What a fresh build gives. -/
def VersionedDb.freshRelations (v : VersionedDb) (services : List Nat) :
    Option (RelationGraph Nat × RelationCompletion) :=
  (v.relationGraph services).map fun graph => (graph, v.buildRelationCompletion graph)

/-! ## The clock -/

theorem filter_suffix_ids {t t' : IdTable Tag} (h : t.rows <:+ t'.rows) {ids : List Nat}
    (hids : ∀ id ∈ ids, id ∈ t.ids) :
    t'.rows.filter (fun r => r.1 ∈ ids) = t.rows.filter fun r => r.1 ∈ ids := by
  obtain ⟨new, hnew⟩ := h
  have hfresh := t'.fresh
  rw [← hnew, List.map_append, List.pairwise_append] at hfresh
  rw [← hnew, List.filter_append, List.append_left_eq_self, List.filter_eq_nil_iff]
  intro r hr hmem
  have hid := hids r.1 (by simpa using hmem)
  exact absurd (hfresh.2.2 r.1 (List.mem_map_of_mem hr) r.1 hid) (Nat.lt_irrefl _)

namespace VersionedDb

/-- The references of the sibling rows. -/
def SiblingTags (v : VersionedDb) : Prop :=
  ∀ bad s row, v.siblings.lookup (bad, s) = some row → bad ∈ v.tags.ids ∧ row.ideal ∈ v.tags.ids

/-- What a build reads is the same, but for new tags. -/
structure SameRelations (v v' : VersionedDb) : Prop where
  siblings : v'.siblings = v.siblings
  parents : v'.parents = v.parents
  services : v'.services = v.services
  completionCounts : v'.completionCounts = v.completionCounts
  tags : v.tags.rows <:+ v'.tags.rows

theorem SameRelations.refl (v : VersionedDb) : SameRelations v v :=
  ⟨rfl, rfl, rfl, rfl, List.suffix_rfl⟩

theorem SameRelations.trans {v v' v'' : VersionedDb} (h : SameRelations v v')
    (h' : SameRelations v' v'') : SameRelations v v'' :=
  ⟨h'.siblings.trans h.siblings, h'.parents.trans h.parents, h'.services.trans h.services,
    h'.completionCounts.trans h.completionCounts, h.tags.trans h'.tags⟩

@[simp] theorem toDb_countTriggers (c : CountedDb) (old : Table (Nat × Nat × Nat) MappingRow)
    (watched : Bool) (w : RowWrite (Nat × Nat × Nat) MappingRow) :
    (countTriggers c old watched w).toDb = c.toDb := by
  cases w with
  | insert k new => simp [countTriggers]
  | update k k' new =>
    simp only [countTriggers]
    cases old.lookup k with
    | none => rfl
    | some row =>
      cases watched with
      | false => rfl
      | true => simp
  | delete k =>
    simp only [countTriggers]
    cases old.lookup k with
    | none => rfl
    | some row => simp

variable {v : VersionedDb}

/-- A write that touches a row is counted; one that touches none, and a new tag, are not read. -/
theorem write_cases (v : VersionedDb) (w : RelationWrite) :
    (v.write w).relationGraphVersion = v.relationGraphVersion + 1 ∨
      ((v.write w).relationGraphVersion = v.relationGraphVersion ∧
        SameRelations v (v.write w)) := by
  cases w with
  | sibling w =>
    simp only [write]
    cases w.apply v.siblings with
    | none => exact .inr ⟨rfl, .refl v⟩
    | some siblings =>
      by_cases hallowed : v.siblingAllowed w = true
      · exact .inl (by simp [hallowed, bump])
      · exact .inr (by simp [hallowed, SameRelations.refl])
  | parent w =>
    simp only [write]
    cases w.apply v.parents with
    | none => exact .inr ⟨rfl, .refl v⟩
    | some parents => exact .inl rfl
  | service w =>
    simp only [write]
    cases w.apply v.services with
    | none => exact .inr ⟨rfl, .refl v⟩
    | some services => exact .inl rfl
  | mapping w watched =>
    simp only [write]
    cases w.apply v.mappings with
    | none => exact .inr ⟨rfl, .refl v⟩
    | some mappings => exact .inl rfl
  | tag tag => exact .inr ⟨rfl, rfl, rfl, rfl, rfl, IdTable.suffix_intern v.tags tag⟩

theorem SiblingTags.write (h : v.SiblingTags) (w : RelationWrite) : (v.write w).SiblingTags := by
  cases w with
  | sibling w =>
    simp only [VersionedDb.write]
    cases happly : w.apply v.siblings with
    | none => exact h
    | some siblings =>
      by_cases hallowed : v.siblingAllowed w = true
      · simp only [hallowed, if_true]
        intro bad s row hl
        rcases RowWrite.lookup_apply happly hl with hold | hrow
        · exact h bad s row hold
        · rw [siblingAllowed, hrow] at hallowed
          have hrefs : bad ∈ v.tags.ids ∧ row.ideal ∈ v.tags.ids := by simpa using hallowed
          exact hrefs
      · simpa [hallowed] using h
  | parent w =>
    simp only [VersionedDb.write]
    cases w.apply v.parents with
    | none => exact h
    | some parents => exact h
  | service w =>
    simp only [VersionedDb.write]
    cases w.apply v.services with
    | none => exact h
    | some services => exact h
  | mapping w watched =>
    simp only [VersionedDb.write]
    cases w.apply v.mappings with
    | none => exact h
    | some mappings =>
      intro bad s row hl
      simp only [bump, toDb_countTriggers] at hl ⊢
      exact h bad s row hl
  | tag tag =>
    intro bad s row hl
    have hold := h bad s row hl
    exact ⟨IdTable.mem_ids_intern hold.1, IdTable.mem_ids_intern hold.2⟩

end VersionedDb

namespace CachedDb

open VersionedDb

/-- The clock of single row writes. -/
def rowClock : Clock VersionedDb RelationWrite where
  commit := .write
  version := VersionedDb.relationGraphVersion
  inv := SiblingTags
  same := SameRelations
  same_refl := .refl
  same_trans := .trans
  inv_commit w h := h.write w
  le_commit {v} w _ := by
    rcases v.write_cases w with h | h
    · omega
    · omega
  same_commit {v} w _ heq := by
    rcases v.write_cases w with h | h
    · omega
    · exact h.2

def clock : Clock VersionedDb (List RelationWrite) := rowClock.transactions

end CachedDb

/-! ## What a build reads -/

namespace Queries

open VersionedDb CachedDb

variable {v : VersionedDb}

theorem eval_mergeSiblingsOf (st : Table Nat Int × SiblingEdges Nat) (service : Nat) :
    (mergeSiblingsOf st service).eval v = Db.mergeSiblingsOf v.toDb st service := by
  simp only [mergeSiblingsOf, Reading.eval_bind, Reading.eval_queryRow, Reading.eval_query,
    Reading.eval_pure, Option.bind_some, Db.mergeSiblingsOf]
  cases v.servicePriority service with
  | none => rfl
  | some priority => rfl

theorem eval_mergedSiblingEdges (services : List Nat) :
    (mergedSiblingEdges services).eval v = v.mergedSiblingEdges services := by
  simp only [mergedSiblingEdges, Reading.eval_bind, Reading.eval_pure, Reading.eval_foldlM,
    eval_mergeSiblingsOf, Db.mergedSiblingEdges]
  cases services.foldlM (Db.mergeSiblingsOf v.toDb) (∅, ∅) with
  | none => rfl
  | some st => rfl

theorem eval_mergedParentEdges (services : List Nat) :
    (mergedParentEdges services).eval v = some (v.mergedParentEdges services) := by
  simp only [mergedParentEdges, Reading.eval_foldlM, Reading.eval_bind, Reading.eval_query,
    Reading.eval_pure, Option.bind_some, Db.mergedParentEdges]
  exact List.foldlM_pure

theorem overlay_congr {graph : RelationGraph Nat} {raw raw' : Nat → Nat}
    {names names' : Nat → Option Tag}
    (hraw : ∀ id ∈ involvedIds graph, raw id = raw' id)
    (hnames : ∀ id ∈ involvedIds graph, names id = names' id) :
    overlay graph raw names = overlay graph raw' names' := by
  have hcanon : ∀ e ∈ graph.siblingPreimage.entries, e.1 ∈ involvedIds graph := fun e he =>
    List.mem_flatMap.2 ⟨e, he, List.mem_cons_self⟩
  have hbads : ∀ e ∈ graph.siblingPreimage.entries, ∀ bad ∈ e.2, bad ∈ involvedIds graph :=
    fun e he bad hbad => List.mem_flatMap.2 ⟨e, he, List.mem_cons_of_mem _ hbad⟩
  have hsum : ∀ e ∈ graph.siblingPreimage.entries, sumOf raw e.1 e.2 = sumOf raw' e.1 e.2 := by
    intro e he
    rw [sumOf, sumOf, hraw e.1 (hcanon e he),
      List.map_congr_left fun bad hbad => hraw bad (hbads e he bad hbad)]
  simp only [overlay, RelationCompletion.mk.injEq, true_and]
  refine ⟨congrArg _ (List.filterMap_congr fun e he => ?_), List.flatMap_congr fun e he => ?_,
    List.filterMap_congr fun e he => ?_⟩
  · rw [hsum e he]
  · refine List.filterMap_congr fun bad hbad => ?_
    rw [hnames bad (hbads e he bad hbad)]
  · rw [hsum e he, hnames e.1 (hcanon e he)]

theorem eval_buildRelationCompletion (graph : RelationGraph Nat) :
    (buildRelationCompletion graph).eval v = some (v.buildRelationCompletion graph) := by
  have hfresh : v.buildRelationCompletion graph = overlay graph v.rawCount v.tags.valueOf := rfl
  unfold buildRelationCompletion
  split
  case isTrue hempty =>
    rw [Reading.eval_pure, hfresh, overlay, List.isEmpty_iff.1 hempty]
    rfl
  case isFalse =>
    simp only [Reading.eval_bind, Reading.eval_query, Reading.eval_pure, Option.bind_some]
    rw [hfresh]
    congr 1
    refine overlay_congr ?_ ?_
    · intro id hid
      rw [Table.lookup_select_key, if_pos (by simpa using hid)]
      rfl
    · intro id hid
      rw [IdTable.valueOf, List.find?_filter]
      congr 2
      funext r
      by_cases hr : r.1 = id
      · simp [hr, hid]
      · simp [hr]

theorem eval_build (services : List Nat) :
    (build services).eval v = v.freshRelations services := by
  simp only [build, Reading.eval_bind, eval_mergedSiblingEdges, eval_mergedParentEdges,
    eval_buildRelationCompletion, Reading.eval_pure, Option.bind_some, freshRelations, relationGraph,
    Option.map_map]
  cases v.mergedSiblingEdges services with
  | none => rfl
  | some siblings => rfl

/-! ### The ids involved are those of tags -/

/-- Both ends of every edge are in the dictionary. -/
def BothKnown (v : VersionedDb) (siblings : SiblingEdges Nat) : Prop :=
  ∀ bad ideal, siblings.lookup bad = some ideal → bad ∈ v.tags.ids ∧ ideal ∈ v.tags.ids

theorem foldl_mergeSibling_bothKnown {priority : Int} {edges : List (Nat × Nat)}
    (hedges : ∀ e ∈ edges, e.1 ∈ v.tags.ids ∧ e.2 ∈ v.tags.ids)
    {st : Table Nat Int × SiblingEdges Nat} (h : BothKnown v st.2) :
    BothKnown v (edges.foldl (mergeSibling priority) st).2 := by
  induction edges generalizing st with
  | nil => exact h
  | cons e edges ih =>
    refine ih (fun e' he' => hedges e' (List.mem_cons_of_mem _ he')) ?_
    unfold mergeSibling
    split
    · exact h
    · intro bad ideal hl
      by_cases hbad : bad = e.1
      · subst hbad
        rw [AList.lookup_insert] at hl
        cases hl
        exact hedges e List.mem_cons_self
      · rw [AList.lookup_insert_ne hbad] at hl
        exact h bad ideal hl

theorem candidates_bothKnown (h : v.SiblingTags) {service : Nat} {edge : Nat × Nat}
    (hedge : edge ∈ v.loadSiblingCandidates service) :
    edge.1 ∈ v.tags.ids ∧ edge.2 ∈ v.tags.ids := by
  obtain ⟨⟨⟨bad, s⟩, row⟩, hmem, hedge⟩ := List.mem_filterMap.1 hedge
  obtain ⟨_, hedge⟩ := Option.ite_none_right_eq_some.1 hedge
  cases hedge
  exact h bad s row (Table.mem_entries.1 hmem)

theorem mergedSiblingEdges_bothKnown (h : v.SiblingTags) {services : List Nat}
    {siblings : SiblingEdges Nat} (hs : v.mergedSiblingEdges services = some siblings) :
    BothKnown v siblings := by
  have hfold : ∀ (services : List Nat) (st st' : Table Nat Int × SiblingEdges Nat),
      BothKnown v st.2 → services.foldlM (Db.mergeSiblingsOf v.toDb) st = some st' →
      BothKnown v st'.2 := by
    intro services
    induction services with
    | nil =>
      intro st st' hst heq
      cases heq
      exact hst
    | cons s services ih =>
      intro st st' hst heq
      rw [List.foldlM_cons] at heq
      obtain ⟨mid, hmid, hrest⟩ := Option.bind_eq_some_iff.1 heq
      obtain ⟨priority, _, rfl⟩ := Option.map_eq_some_iff.1 hmid
      exact ih _ st' (foldl_mergeSibling_bothKnown (fun e he => candidates_bothKnown h he) hst) hrest
  obtain ⟨st, hst, rfl⟩ := Option.map_eq_some_iff.1 hs
  refine hfold services (∅, ∅) st ?_ hst
  intro bad ideal hl
  rw [AList.lookup_empty] at hl
  cases hl

theorem involvedIds_known {graph : RelationGraph Nat} (h : BothKnown v graph.siblings) {id : Nat}
    (hid : id ∈ involvedIds graph) : id ∈ v.tags.ids := by
  obtain ⟨⟨canon, bads⟩, he, hid⟩ := List.mem_flatMap.1 hid
  obtain ⟨_, ⟨x, hx⟩, hbads⟩ := CountedDb.mem_preimage (Table.mem_entries.1 he)
  have hbad : ∀ x ∈ bads, x ∈ v.tags.ids := by
    intro x hx
    obtain ⟨hcanon, hne⟩ := (hbads x).1 hx
    have hkey : x ∈ graph.siblings.keys := mem_keys_of_canonicalize_ne fun hself =>
      hne (hcanon.symm.trans hself)
    obtain ⟨ideal, hl⟩ := Option.isSome_iff_exists.1 (AList.lookup_isSome.2 hkey)
    exact (h x ideal hl).1
  rcases List.mem_cons.1 hid with rfl | hid
  · rw [← ((hbads x).1 hx).1]
    exact canonicalize_mem_ids (fun bad ideal hl => (h bad ideal hl).2) (hbad x hx)
  · exact hbad id hid

/-! ### Builds are settled -/

theorem settled_mergedSiblingEdges (services : List Nat) :
    clock.Settled v (mergedSiblingEdges services) := by
  refine (Clock.Settled.foldlM services (fun st service => ?_) (∅, ∅)).bind fun st _ =>
    Clock.settled_pure st.2
  refine (Clock.settled_queryRow fun v' hv => ?_).bind fun priority _ =>
    (Clock.settled_query fun v' hv => ?_).bind fun candidates _ => Clock.settled_pure _
  · simp only [servicePriority, hv.services]
  · simp only [loadSiblingCandidates, hv.siblings]

theorem settled_mergedParentEdges (services : List Nat) :
    clock.Settled v (mergedParentEdges services) := by
  refine Clock.Settled.foldlM services (fun merged service => ?_) ∅
  refine (Clock.settled_query fun v' hv => ?_).bind fun edges _ => Clock.settled_pure _
  simp only [loadParentEdges, hv.parents]

theorem settled_buildRelationCompletion {graph : RelationGraph Nat}
    (h : BothKnown v graph.siblings) : clock.Settled v (buildRelationCompletion graph) := by
  unfold buildRelationCompletion
  split
  · exact Clock.settled_pure _
  · refine (Clock.settled_query fun v' hv => ?_).bind fun raw _ =>
      (Clock.settled_query fun v' hv => ?_).bind fun names _ => Clock.settled_pure _
    · rw [hv.completionCounts]
    · exact filter_suffix_ids hv.tags fun id hid => involvedIds_known h hid

theorem settled_build (h : v.SiblingTags) (services : List Nat) :
    clock.Settled v (build services) := by
  refine (settled_mergedSiblingEdges services).bind fun siblings hs => ?_
  refine (settled_mergedParentEdges services).bind fun parents _ => ?_
  rw [eval_mergedSiblingEdges] at hs
  have hknown := mergedSiblingEdges_bothKnown h hs
  exact (settled_buildRelationCompletion hknown).bind fun completion _ => Clock.settled_pure _

end Queries

/-! ## Coherence -/

namespace CachedDb

open VersionedDb

/-- No entry is stamped ahead of the tables, and one stamped with their version is what a build of
them gives. -/
structure Coherent (c : CachedDb) : Prop where
  tags : c.db.SiblingTags
  stamped : ∀ e ∈ c.entries, e.relationVersion ≤ c.db.relationGraphVersion
  fresh : ∀ e ∈ c.entries, e.relationVersion = c.db.relationGraphVersion →
    c.db.freshRelations e.services = some (e.graph, e.completion)

namespace Coherent

variable {c : CachedDb} {db : VersionedDb} {services : List Nat}

theorem freshRelations_eq {v v' : VersionedDb} (h : v.SiblingTags) (hs : SameRelations v v') :
    v'.freshRelations services = v.freshRelations services := by
  rw [← Queries.eval_build, ← Queries.eval_build]
  exact (Queries.settled_build h services).eval_eq hs

theorem subset (h : c.Coherent) {entries : List RelationCache} (hsub : entries ⊆ c.entries) :
    Coherent ⟨c.db, entries⟩ :=
  ⟨h.tags, fun e he => h.stamped e (hsub he), fun e he => h.fresh e (hsub he)⟩

/-- Commits make entries stale, never wrong. -/
theorem later (h : c.Coherent) (hdb : clock.Later c.db db) : Coherent ⟨db, c.entries⟩ := by
  have hle : c.db.relationGraphVersion ≤ db.relationGraphVersion := hdb.le
  refine ⟨hdb.inv, ?_, ?_⟩
  · intro e he
    exact Int.le_trans (h.stamped e he) hle
  · intro e he heq
    have hstamp := h.stamped e he
    have hstill : db.relationGraphVersion = c.db.relationGraphVersion := by
      simp only at heq
      omega
    rw [freshRelations_eq h.tags (hdb.same hstill)]
    exact h.fresh e he (heq.trans hstill)

theorem pushEntry (h : c.Coherent) {e : RelationCache}
    (hstamp : e.relationVersion ≤ c.db.relationGraphVersion)
    (hfresh : e.relationVersion = c.db.relationGraphVersion →
      c.db.freshRelations e.services = some (e.graph, e.completion)) :
    Coherent ⟨c.db, CachedDb.pushEntry c.entries e⟩ := by
  have hmem : ∀ e' ∈ CachedDb.pushEntry c.entries e, e' ∈ c.entries ∨ e' = e := by
    intro e' he'
    rcases List.mem_append.1 he' with hold | hnew
    · split at hold
      · exact .inl (List.mem_of_mem_eraseIdx hold)
      · exact .inl hold
    · exact .inr (List.mem_singleton.1 hnew)
  refine ⟨h.tags, ?_, ?_⟩
  · intro e' he'
    rcases hmem e' he' with hold | rfl
    · exact h.stamped e' hold
    · exact hstamp
  · intro e' he'
    rcases hmem e' he' with hold | rfl
    · exact h.fresh e' hold
    · exact hfresh

/-- What a read leaves, and that it gives what a fresh build would unless the tables changed under
it. -/
structure Served (db : VersionedDb) (services : List Nat)
    (out : Option (RelationGraph Nat × RelationCompletion) × CachedDb) : Prop where
  coherent : out.2.Coherent
  steady : out.2.db.relationGraphVersion = db.relationGraphVersion →
    out.1 = out.2.db.freshRelations services

theorem rebuild (h : c.Coherent) (services : List Nat) (pending : List (List RelationWrite)) :
    Served c.db services (c.rebuild services pending) := by
  have hlater : clock.Later c.db ((Queries.build services).run commit c.db pending).2 :=
    Clock.run_later (Queries.build services) h.tags pending
  have hsteady : ((Queries.build services).run commit c.db pending).2.relationGraphVersion =
        c.db.relationGraphVersion →
      ((Queries.build services).run commit c.db pending).1 =
        ((Queries.build services).run commit c.db pending).2.freshRelations services := by
    intro heq
    rw [freshRelations_eq h.tags (hlater.same heq), ← Queries.eval_build]
    exact Clock.run_of_steady _ (Queries.settled_build h.tags services) (.refl h.tags) pending heq
  unfold CachedDb.rebuild
  generalize (Queries.build services).run commit c.db pending = out at hlater hsteady ⊢
  obtain ⟨r, db⟩ := out
  cases r with
  | none => exact ⟨h.later hlater, hsteady⟩
  | some built =>
    refine ⟨(h.later hlater).pushEntry hlater.le ?_, hsteady⟩
    intro heq
    exact (hsteady heq.symm).symm

theorem ensureRelationCache (h : c.Coherent) (services : List Nat)
    (pending : List (List RelationWrite)) :
    Served c.db services (c.ensureRelationCache services pending) := by
  unfold CachedDb.ensureRelationCache
  cases hfind : c.entries.find? fun e => e.services = services with
  | none => exact h.rebuild services pending
  | some cache =>
    have hservices : cache.services = services := by simpa using List.find?_some hfind
    by_cases hversion : cache.relationVersion = c.db.relationGraphVersion
    · have hfresh := h.fresh cache (List.mem_of_find?_eq_some hfind) hversion
      rw [hservices] at hfresh
      simp only [hversion, if_true]
      exact ⟨h, fun _ => hfresh.symm⟩
    · simp only [hversion, if_false]
      exact (h.subset List.eraseP_subset).rebuild services pending

theorem step (h : c.Coherent) (l : Step) : (c.step l).Coherent := by
  cases l with
  | commit ws => exact h.later (Clock.later_commit h.tags ws)
  | read services pending => exact (h.ensureRelationCache services pending).coherent

end Coherent

theorem db_rebuild_nil (c : CachedDb) (services : List Nat) : (c.rebuild services []).2.db = c.db := by
  unfold rebuild
  rw [Reading.run_nil]
  cases (Queries.build services).eval c.db with
  | none => rfl
  | some built => rfl

theorem db_ensureRelationCache_nil (c : CachedDb) (services : List Nat) :
    (c.ensureRelationCache services []).2.db = c.db := by
  unfold ensureRelationCache
  cases c.entries.find? fun e => e.services = services with
  | none => exact c.db_rebuild_nil services
  | some cache =>
    simp only
    split
    · rfl
    · exact db_rebuild_nil _ services

theorem coherent_run {v : VersionedDb} (h : v.SiblingTags) (steps : List Step) :
    (run step ⟨v, []⟩ steps).Coherent :=
  run_invariant steps ⟨h, by simp, by simp⟩ fun _ l hc => hc.step l

/-- **Whatever has been committed and read, also while other reads were building, a cached read
gives the graph and the overlay that a fresh build of the current tables would.** -/
theorem relation_cache_coherent (v : VersionedDb) (h : v.SiblingTags) (steps : List Step)
    (services : List Nat) :
    ((run step ⟨v, []⟩ steps).ensureRelationCache services []).1 =
      (run step ⟨v, []⟩ steps).db.freshRelations services := by
  have hserved := (coherent_run h steps).ensureRelationCache services []
  have hdb := db_ensureRelationCache_nil (run step ⟨v, []⟩ steps) services
  have hfresh := hserved.steady (by rw [hdb])
  rw [hdb] at hfresh
  exact hfresh

/-- A sibling and a mapping, a read, and an edge that turns the sibling round while it builds. -/
def turnedEdge : List Step :=
  [.commit [.tag ⟨"", "cat"⟩, .tag ⟨"", "feline"⟩, .sibling (.insert (1, 1) ⟨2, .current⟩),
      .mapping (.insert (1, 1, 1) ⟨.current, 0, 1, none⟩) false],
    .read [1] [[], [], [.sibling (.delete (1, 1)), .sibling (.insert (2, 1) ⟨1, .current⟩)]]]

theorem relation_cache_coherent_turnedEdge :
    ((run step ⟨⟨⟨Db.empty, ∅, ∅⟩, 0⟩, []⟩ turnedEdge).ensureRelationCache [1] []).1 =
      (run step ⟨⟨⟨Db.empty, ∅, ∅⟩, 0⟩, []⟩ turnedEdge).db.freshRelations [1] := by
  refine relation_cache_coherent ⟨⟨Db.empty, ∅, ∅⟩, 0⟩ ?_ turnedEdge [1]
  intro bad s row h
  simp [Db.empty] at h

end CachedDb

end Naiad
