import Naiad.Bridge.SidecarSeed
import Naiad.Bridge.TagIds
import Naiad.Lib.BinarySearch
import Naiad.Lib.LastWrite
import Naiad.Lib.Run

/-!
# Naiad.Bridge.TagSets

The rows of the sidecar as they are stored, a packed blob for each hash, and what writes them: sets
written whole, rows merged from the staging file, and mutations made by binary search in the ids a
blob decodes to.

* `Represents`: the blobs are those of a `SidecarDb`, whose sets are lists of ids.
* `Represents.step`: every write keeps it, so no reachable blob fails to decode.
* `mutations_sequential`: mutations are those of sets, one by one, and may be repeated.
-/

namespace Naiad
namespace Bridge
namespace TagSets

open Lib Server

/-- `bucket_map`, `hash` to `tag_ids`. -/
abbrev BucketMap := Table Hash (List Byte)

def readTagSet (m : BucketMap) (hash : Hash) : Except String (List Nat) :=
  match m.lookup hash with
  | none => .ok []
  | some blob =>
    (unpackTagIds blob).mapError fun e => "unpacking bucket_map for " ++ hash.toHex ++ ": " ++ e

/-- An empty set deletes the row. -/
def writeTagSet (m : BucketMap) (hash : Hash) (ids : List Nat) : BucketMap :=
  if ids = [] then m.erase hash else m.insert hash (packTagIds ids)

/-- One `(service_tag_id, is_delete)`. -/
def mutate (set : List Nat) (mutation : Nat × Bool) : List Nat :=
  if mutation.2 then
    match binarySearch set mutation.1 with
    | .ok pos => set.eraseIdx pos
    | .error _ => set
  else
    match binarySearch set mutation.1 with
    | .ok _ => set
    | .error pos => set.insertIdx pos mutation.1

def applyMutations (m : BucketMap) (hash : Hash) (mutations : List (Nat × Bool)) :
    Except String BucketMap := do
  let set ← readTagSet m hash
  return writeTagSet m hash (mutations.foldl mutate set)

/-- The rows a band stages; a group without ids has none. -/
def stageGroups (groups : List (Hash × List Nat)) : List (Hash × List Byte) :=
  (groups.filter fun g => g.2 ≠ []).map fun g => (g.1, packTagIds g.2)

/-- `INSERT OR REPLACE` in the order of the hashes. -/
def mergeStaging (m : BucketMap) (buckets : List (Hash × List Byte)) : BucketMap :=
  (orderBy Prod.fst buckets).foldl (fun t r => t.insert r.1 r.2) m

/-! ## Runs -/

inductive Op
  | write (hash : Hash) (ids : List Nat)
  | seed (groups : List (Hash × List Nat))
  | mutate (hash : Hash) (mutations : List (Nat × Bool))

/-- The ids are of 64 bits. -/
def Op.Ranged : Op → Prop
  | .write _ ids => ∀ id ∈ ids, id < 2 ^ 64
  | .seed groups => ∀ g ∈ groups, ∀ id ∈ g.2, id < 2 ^ 64
  | .mutate _ mutations => ∀ mutation ∈ mutations, mutation.1 < 2 ^ 64

/-- A call that fails changes nothing. -/
def step (m : BucketMap) : Op → BucketMap
  | .write hash ids => writeTagSet m hash ids
  | .seed groups => mergeStaging m (stageGroups groups)
  | .mutate hash mutations =>
    match applyMutations m hash mutations with
    | .ok m' => m'
    | .error _ => m

/-- The same over the sets. -/
def stepDb (sc : SidecarDb) : Op → SidecarDb
  | .write hash ids => sc.writeTagSet hash ids
  | .seed groups =>
    sc.mergeBuckets ((groups.filter fun g => g.2 ≠ []).map fun g => (g.1, sortDedup g.2))
  | .mutate hash mutations => sc.applyMutations hash mutations

/-! ## The blobs of a map of sets -/

structure Represents (m : BucketMap) (sc : SidecarDb) : Prop where
  encodes : ∀ hash, m.lookup hash = (sc.bucketMap.lookup hash).map packTagIds
  packed : sc.Packed
  ranged : ∀ hash, ∀ id ∈ sc.readTagSet hash, id < 2 ^ 64

theorem sortDedup_of_strict {ids : List Nat} (h : ids.Pairwise (· < ·)) : sortDedup ids = ids :=
  strict_ext (sortDedup_strict ids) h fun _ => mem_sortDedup

theorem packTagIds_sortDedup (ids : List Nat) : packTagIds (sortDedup ids) = packTagIds ids := by
  rw [packTagIds, sortDedup_of_strict (sortDedup_strict ids), packTagIds]

theorem represents_empty : Represents ∅ .empty where
  encodes _ := rfl
  packed := SidecarDb.packed_empty
  ranged := by
    intro hash id hid
    cases hid

/-- On ascending ids the search finds what the list operations find. -/
theorem mutate_eq {set : List Nat} (h : set.Pairwise (· < ·)) (mutation : Nat × Bool) :
    mutate set mutation = SidecarDb.mutate set mutation := by
  have hmem := @mem_of_binarySearch _ _ set mutation.1 h
  unfold mutate SidecarDb.mutate
  cases mutation.2 with
  | true =>
    rw [if_pos rfl, if_pos rfl]
    split
    · rename_i pos hsearch
      exact eraseIdx_search h hsearch
    · rename_i pos hsearch
      have hnot : mutation.1 ∉ set := by
        rw [hmem, hsearch]
        simp
      exact (List.erase_of_not_mem hnot).symm
  | false =>
    rw [if_neg Bool.false_ne_true, if_neg Bool.false_ne_true]
    split
    · rename_i pos hsearch
      rw [if_pos (hmem.2 ⟨pos, hsearch⟩)]
    · rename_i pos hsearch
      have hnot : mutation.1 ∉ set := by
        rw [hmem, hsearch]
        simp
      rw [if_neg hnot]
      apply strict_ext (pairwise_insertIdx h hsearch) (SidecarDb.pairwise_orderedInsert h hnot)
      intro id
      rw [mem_insertIdx_search h hsearch, List.mem_orderedInsert]

theorem foldl_mutate_eq {set : List Nat} (h : set.Pairwise (· < ·))
    (mutations : List (Nat × Bool)) :
    mutations.foldl mutate set = mutations.foldl SidecarDb.mutate set := by
  induction mutations generalizing set with
  | nil => rfl
  | cons mutation mutations ih =>
    rw [List.foldl_cons, List.foldl_cons, mutate_eq h, ih (SidecarDb.pairwise_mutate h mutation)]

theorem ranged_foldl_mutate {set : List Nat} (h : set.Pairwise (· < ·))
    (hset : ∀ id ∈ set, id < 2 ^ 64) {mutations : List (Nat × Bool)}
    (hmut : ∀ mutation ∈ mutations, mutation.1 < 2 ^ 64) :
    ∀ id ∈ mutations.foldl SidecarDb.mutate set, id < 2 ^ 64 := by
  induction mutations generalizing set with
  | nil => exact hset
  | cons mutation mutations ih =>
    apply ih (SidecarDb.pairwise_mutate h mutation) _ fun m hm =>
      hmut m (List.mem_cons_of_mem _ hm)
    intro id hid
    rw [SidecarDb.mem_mutate h] at hid
    split at hid
    · rename_i heq
      rw [heq]
      exact hmut mutation (by simp)
    · exact hset id hid

section

variable {m : BucketMap} {sc : SidecarDb}

theorem Represents.read (h : Represents m sc) (hash : Hash) :
    readTagSet m hash = .ok (sc.readTagSet hash) := by
  have hranged := h.ranged hash
  have hsorted := h.packed.pairwise hash
  unfold readTagSet
  unfold SidecarDb.readTagSet at *
  rw [h.encodes]
  cases hl : sc.bucketMap.lookup hash with
  | none => rfl
  | some ids =>
    rw [hl, Option.getD_some] at hranged hsorted
    simp only [Option.map_some, Option.getD_some]
    rw [unpack_pack hranged, sortDedup_of_strict hsorted]
    rfl

theorem Represents.isSome_iff (h : Represents m sc) (hash : Hash) :
    (m.lookup hash).isSome ↔ sc.readTagSet hash ≠ [] := by
  rw [h.encodes]
  unfold SidecarDb.readTagSet
  cases hl : sc.bucketMap.lookup hash with
  | none => simp
  | some ids => simpa using (h.packed hash ids hl).1

theorem Represents.write (h : Represents m sc) (hash : Hash) {ids : List Nat}
    (hids : ∀ id ∈ ids, id < 2 ^ 64) :
    Represents (writeTagSet m hash ids) (sc.writeTagSet hash ids) where
  encodes other := by
    rw [SidecarDb.lookup_writeTagSet]
    unfold writeTagSet
    by_cases hother : other = hash
    · subst hother
      by_cases hnil : ids = []
      · simp [hnil]
      · simp [hnil, packTagIds_sortDedup]
    · by_cases hnil : ids = []
      · simp [hnil, hother, AList.lookup_erase_ne, h.encodes]
      · simp [hnil, hother, h.encodes]
  packed := h.packed.writeTagSet hash ids
  ranged other id hid := by
    rw [SidecarDb.mem_readTagSet_writeTagSet] at hid
    split at hid
    · exact hids id hid
    · exact h.ranged other id hid

theorem Represents.mutate (h : Represents m sc) (hash : Hash) {mutations : List (Nat × Bool)}
    (hmut : ∀ mutation ∈ mutations, mutation.1 < 2 ^ 64) :
    ∃ m', applyMutations m hash mutations = .ok m' ∧
      Represents m' (sc.applyMutations hash mutations) := by
  have hsorted := h.packed.pairwise hash
  refine ⟨_, by rw [applyMutations, h.read]; rfl, ?_⟩
  rw [foldl_mutate_eq hsorted]
  exact h.write hash (ranged_foldl_mutate hsorted (h.ranged hash) hmut)

/-- Rows put in one by one, in the order of their hashes. -/
theorem lookup_foldl_pack (rows : List (Hash × List Nat)) {t : BucketMap}
    {t' : Table Hash (List Nat)} (h : ∀ hash, t.lookup hash = (t'.lookup hash).map packTagIds)
    (hash : Hash) :
    ((rows.map fun r => (r.1, packTagIds r.2)).foldl (fun t r => t.insert r.1 r.2) t).lookup hash =
      ((rows.foldl (fun t r => t.insert r.1 r.2) t').lookup hash).map packTagIds := by
  induction rows generalizing t t' with
  | nil => exact h hash
  | cons row rows ih =>
    rw [List.map_cons, List.foldl_cons, List.foldl_cons]
    apply ih
    intro other
    by_cases hother : other = row.1
    · subst hother
      simp
    · simp [hother, h]

theorem Represents.merge (h : Represents m sc) {groups : List (Hash × List Nat)}
    (hgroups : ∀ g ∈ groups, ∀ id ∈ g.2, id < 2 ^ 64) :
    Represents (mergeStaging m (stageGroups groups))
      (sc.mergeBuckets ((groups.filter fun g => g.2 ≠ []).map fun g => (g.1, sortDedup g.2))) := by
  let rows := (groups.filter fun g => g.2 ≠ []).map fun g => (g.1, sortDedup g.2)
  have hrows : ∀ row ∈ rows, row.2 ≠ [] ∧ row.2.Pairwise (· < ·) ∧ ∀ id ∈ row.2, id < 2 ^ 64 := by
    intro row hrow
    obtain ⟨g, hg, rfl⟩ := List.mem_map.1 hrow
    obtain ⟨hmem, hne⟩ := List.mem_filter.1 hg
    refine ⟨SidecarDb.sortDedup_ne_nil (by simpa using hne), sortDedup_strict _, ?_⟩
    exact fun id hid => hgroups g hmem id (mem_sortDedup.1 hid)
  have hlookup : ∀ hash ids, (sc.mergeBuckets rows).bucketMap.lookup hash = some ids →
      (hash, ids) ∈ rows ∨ sc.bucketMap.lookup hash = some ids := by
    intro hash ids hl
    simp only [SidecarDb.mergeBuckets, Table.lookup_foldl_insert] at hl
    rcases Option.or_eq_some_iff.1 hl with hlast | ⟨_, hold⟩
    · obtain ⟨row, hrow, rfl⟩ := List.mem_map.1 (List.mem_of_getLast? hlast)
      obtain ⟨hmem, hhash⟩ := List.mem_filter.1 hrow
      rw [← of_decide_eq_true hhash]
      exact .inl (mem_orderBy.1 hmem)
    · exact .inr hold
  constructor
  · intro hash
    have hstage : stageGroups groups = rows.map fun r => (r.1, packTagIds r.2) := by
      simp [stageGroups, rows, packTagIds_sortDedup, Function.comp_def]
    have horder : orderBy Prod.fst (rows.map fun r => (r.1, packTagIds r.2)) =
        (orderBy Prod.fst rows).map fun r => (r.1, packTagIds r.2) := by
      unfold orderBy
      exact (List.map_insertionSort (fun a b : Hash × List Nat => a.1 ≤ b.1) (fun a b => a.1 ≤ b.1)
        (fun r : Hash × List Nat => (r.1, packTagIds r.2)) rows fun a _ b _ => Iff.rfl).symm
    rw [mergeStaging, hstage, horder]
    exact lookup_foldl_pack _ h.encodes hash
  · intro hash ids hl
    rcases hlookup hash ids hl with hrow | hold
    · exact ⟨(hrows _ hrow).1, (hrows _ hrow).2.1⟩
    · exact h.packed hash ids hold
  · intro hash id hid
    rw [SidecarDb.readTagSet] at hid
    cases hl : (sc.mergeBuckets rows).bucketMap.lookup hash with
    | none =>
      rw [hl] at hid
      cases hid
    | some ids =>
      rw [hl, Option.getD_some] at hid
      rcases hlookup hash ids hl with hrow | hold
      · exact (hrows _ hrow).2.2 id hid
      · apply h.ranged hash
        rw [SidecarDb.readTagSet, hold]
        exact hid

theorem Represents.step (h : Represents m sc) {op : Op} (hop : op.Ranged) :
    Represents (TagSets.step m op) (stepDb sc op) := by
  cases op with
  | write hash ids => exact h.write hash hop
  | seed groups => exact h.merge hop
  | mutate hash mutations =>
    obtain ⟨m', hrun, hm'⟩ := h.mutate hash hop
    simp only [TagSets.step, hrun]
    exact hm'

/-- Every reachable map of blobs is one of sets. -/
theorem represents_run {ops : List Op} (hops : ∀ op ∈ ops, op.Ranged) (h : Represents m sc) :
    Represents (run TagSets.step m ops) (run stepDb sc ops) := by
  induction ops generalizing m sc with
  | nil => exact h
  | cons op ops ih =>
    exact ih (fun op' hop' => hops op' (List.mem_cons_of_mem _ hop')) (h.step (hops op (by simp)))

end

/-! ## Sets -/

/-- A mutation of a mathematical set. -/
def applyOne (S : Set Nat) (mutation : Nat × Bool) : Set Nat :=
  if mutation.2 then S \ {mutation.1} else insert mutation.1 S

theorem foldl_mutate_set {set : List Nat} (h : set.Pairwise (· < ·))
    (mutations : List (Nat × Bool)) :
    {id | id ∈ mutations.foldl SidecarDb.mutate set} = mutations.foldl applyOne {id | id ∈ set} := by
  induction mutations generalizing set with
  | nil => rfl
  | cons mutation mutations ih =>
    rw [List.foldl_cons, List.foldl_cons, ih (SidecarDb.pairwise_mutate h mutation)]
    congr 1
    ext id
    obtain ⟨tag, isDelete⟩ := mutation
    rw [Set.mem_ofPred_eq, SidecarDb.mem_mutate h]
    by_cases hid : id = tag
    · cases isDelete <;> simp [applyOne, hid]
    · cases isDelete <;> simp [applyOne, hid]

/-- A set and the writes of a list, each key holding whether it was deleted last. -/
theorem mem_foldl_applyOne {S : Set Nat} {f : Nat → Option Bool}
    (h : ∀ id, id ∈ S ↔ f id = some false) (mutations : List (Nat × Bool)) (id : Nat) :
    id ∈ mutations.foldl applyOne S ↔ writeAll f mutations id = some false := by
  induction mutations generalizing S f with
  | nil => exact h id
  | cons mutation mutations ih =>
    rw [List.foldl_cons, writeAll_cons]
    apply ih
    intro other
    obtain ⟨tag, isDelete⟩ := mutation
    by_cases hother : other = tag
    · cases isDelete <;> simp [applyOne, Lib.write, hother]
    · cases isDelete <;> simp [applyOne, Lib.write, hother, h]

/-- A part of the mutations made before does not show. -/
theorem foldl_applyOne_replay (S : Set Nat) {pre mutations : List (Nat × Bool)}
    (h : pre <+: mutations) :
    mutations.foldl applyOne (pre.foldl applyOne S) = mutations.foldl applyOne S := by
  classical
  let f : Nat → Option Bool := fun id => some (decide (id ∉ S))
  have hf : ∀ id, id ∈ S ↔ f id = some false := by
    intro id
    simp [f]
  ext id
  rw [mem_foldl_applyOne (mem_foldl_applyOne hf pre), mem_foldl_applyOne hf,
    writeAll_replay h.subset]

/-- **Sequential set semantics.** Over any reachable map, mutations leave a hash the set that they
make of its old one, one by one; a hash has a row just when its set is not empty; other hashes keep
theirs; and the mutations may be applied again after any part of them. -/
theorem mutations_sequential (ops : List Op) (hops : ∀ op ∈ ops, op.Ranged) (hash : Hash)
    (mutations : List (Nat × Bool)) (hmut : ∀ mutation ∈ mutations, mutation.1 < 2 ^ 64) :
    let m := run step ∅ ops
    ∃ old m' set,
      readTagSet m hash = .ok old ∧ applyMutations m hash mutations = .ok m' ∧
      readTagSet m' hash = .ok set ∧
      {id | id ∈ set} = mutations.foldl applyOne {id | id ∈ old} ∧
      (∀ other, other ≠ hash → m'.lookup other = m.lookup other) ∧
      (∀ other, ∃ ids, readTagSet m' other = .ok ids ∧ ((m'.lookup other).isSome ↔ ids ≠ [])) ∧
      ∀ pre, pre <+: mutations → ∃ mid m'', applyMutations m hash pre = .ok mid ∧
        applyMutations mid hash mutations = .ok m'' ∧ readTagSet m'' hash = .ok set := by
  intro m
  have h : Represents m (run stepDb .empty ops) := represents_run hops represents_empty
  generalize run stepDb .empty ops = sc at h
  obtain ⟨m', hrun, h'⟩ := h.mutate hash hmut
  have hset : ∀ {sc : SidecarDb} (hpacked : sc.Packed) (mutations : List (Nat × Bool)),
      {id | id ∈ (sc.applyMutations hash mutations).readTagSet hash} =
        mutations.foldl applyOne {id | id ∈ sc.readTagSet hash} := by
    intro sc hpacked mutations
    rw [← foldl_mutate_set (hpacked.pairwise hash)]
    ext id
    simp [SidecarDb.applyMutations, SidecarDb.mem_readTagSet_writeTagSet]
  refine ⟨_, m', _, h.read hash, hrun, h'.read hash, hset h.packed mutations, ?_,
    fun other => ⟨_, h'.read other, h'.isSome_iff other⟩, ?_⟩
  · intro other hother
    rw [h'.encodes, h.encodes, SidecarDb.applyMutations, SidecarDb.lookup_writeTagSet,
      if_neg hother]
  · intro pre hpre
    obtain ⟨mid, hmid, hrep⟩ :=
      h.mutate hash (fun mutation hm => hmut mutation (hpre.subset hm) : ∀ mutation ∈ pre, _)
    obtain ⟨m'', hagain, hrep'⟩ := hrep.mutate hash hmut
    refine ⟨mid, m'', hmid, hagain, ?_⟩
    rw [hrep'.read]
    congr 1
    apply strict_ext (hrep'.packed.pairwise hash) (h'.packed.pairwise hash)
    intro id
    have hsame : {id | id ∈ ((sc.applyMutations hash pre).applyMutations hash
        mutations).readTagSet hash} =
        {id | id ∈ (sc.applyMutations hash mutations).readTagSet hash} := by
      rw [hset hrep.packed, hset h.packed, hset h.packed, foldl_applyOne_replay _ hpre]
    exact Set.ext_iff.1 hsame id

theorem mutations_sequential_reaped :
    let m := run step ∅ [.write (.fill 1) [7, 7], .seed [(.fill 2, [3])]]
    ∃ old m' set,
      readTagSet m (.fill 1) = .ok old ∧ applyMutations m (.fill 1) [(7, true)] = .ok m' ∧
      readTagSet m' (.fill 1) = .ok set ∧
      {id | id ∈ set} = [(7, true)].foldl applyOne {id | id ∈ old} := by
  obtain ⟨old, m', set, hold, hrun, hset, heq, _⟩ := mutations_sequential
    [.write (.fill 1) [7, 7], .seed [(.fill 2, [3])]] (by simp [Op.Ranged]) (.fill 1) [(7, true)]
    (by simp)
  exact ⟨old, m', set, hold, hrun, hset, heq⟩

end TagSets
end Bridge
end Naiad
