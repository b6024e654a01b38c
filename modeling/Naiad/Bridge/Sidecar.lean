import Naiad.Bridge.Sync
import Naiad.Server.Backend

/-!
# Naiad.Bridge.Sidecar

The sidecar file as its writers see it: the ids of the tags of each hash, the definitions of the
ids, the index of the next update and the marks of a seed. Nothing ties the ids to their
definitions here.

* `SidecarDb.applyMutations`: one hash read, mutated in wire order and written back.
* `current_applyMutations`: what that is to the pairs of the map.
* `SidecarDb.bucket`, `SidecarDb.auditBandDigest`: the reads, which fail on an undefined id.
-/

namespace Naiad
namespace Bridge

open Lib Netproto Server

inductive SidecarError
  | upstream (e : BridgeError)
  | malformedHash (id : Nat) (hex : String)
  | unresolvedHashId (id : Nat)
  | store (e : StoreError)
  | snapshot (message : String)
  | badBound (lo : String)
  | budgetExceeded (budget : Nat)
  | missingTag (id : Nat)
deriving DecidableEq

/-- `bucket_map` holds the ids ascending; `seedIdbandDone` are the bands an older seeder wrote. -/
structure SidecarDb where
  bucketMap : Table Hash (List Nat)
  defsHashes : Table Nat Hash
  defsTags : Table Nat String
  nextIndex : Option Nat
  seedDefsDone : Bool
  seedMergeDone : Bool
  seedIdbandDone : List Nat

namespace SidecarDb

def empty : SidecarDb := ⟨∅, ∅, ∅, none, false, false, []⟩

/-! ## Statements -/

def nextUpdateIndex (sc : SidecarDb) : Nat := sc.nextIndex.getD 0

def setNextUpdateIndex (sc : SidecarDb) (index : Nat) : SidecarDb :=
  { sc with nextIndex := some index }

def insertDefsHashes (sc : SidecarDb) (rows : List (Nat × Hash)) : SidecarDb :=
  { sc with defsHashes := rows.foldl (fun t r => t.insert r.1 r.2) sc.defsHashes }

def insertDefsTags (sc : SidecarDb) (rows : List (Nat × String)) : SidecarDb :=
  { sc with defsTags := rows.foldl (fun t r => t.insert r.1 r.2) sc.defsTags }

def readTagSet (sc : SidecarDb) (hash : Hash) : List Nat := (sc.bucketMap.lookup hash).getD []

/-- An empty set deletes the row; packing sorts and deduplicates. -/
def writeTagSet (sc : SidecarDb) (hash : Hash) (ids : List Nat) : SidecarDb :=
  { sc with
    bucketMap :=
      if ids = [] then sc.bucketMap.erase hash else sc.bucketMap.insert hash (sortDedup ids) }

/-- One `(service_tag_id, is_delete)`, by binary search in the ascending ids. -/
def mutate (set : List Nat) (mutation : Nat × Bool) : List Nat :=
  if mutation.2 then set.erase mutation.1
  else if mutation.1 ∈ set then set
  else set.orderedInsert (· ≤ ·) mutation.1

def applyMutations (sc : SidecarDb) (hash : Hash) (mutations : List (Nat × Bool)) : SidecarDb :=
  sc.writeTagSet hash (mutations.foldl mutate (sc.readTagSet hash))

/-! ## Reads -/

/-- The texts of ids; the first one without a definition is the error. -/
def resolve (sc : SidecarDb) : List (Hash × Nat) → Except SidecarError (List (Hash × String))
  | [] => .ok []
  | (h, id) :: ids =>
    match sc.defsTags.lookup id with
    | none => .error (.missingTag id)
    | some tag => (resolve sc ids).map ((h, tag) :: ·)

/-- The rows of a band, in the order of their hashes. -/
def bandRows (sc : SidecarDb) (lo : Hash) (prefixBits : Nat) : List (Sigma fun _ : Hash => List Nat) :=
  orderBy Sigma.fst (sc.bucketMap.entries.filter fun e =>
    inRange (bucketKey lo (min prefixBits 256)) (bucketUpper lo (min prefixBits 256)) e.1)

def rowIds (rows : List (Sigma fun _ : Hash => List Nat)) : List (Hash × Nat) :=
  rows.flatMap fun e => e.2.map fun id => (e.1, id)

/-- The texts of ids with their exact costs, up to the first id without a definition or the first
cost past the budget. -/
def trueUp (sc : SidecarDb) (budget : Nat) :
    Nat → List (Hash × Nat) → Except SidecarError (List (Hash × String) × Nat)
  | spent, [] => .ok ([], spent)
  | spent, (h, id) :: ids =>
    match sc.defsTags.lookup id with
    | none => .error (.missingTag id)
    | some tag =>
      if budget < spent + pairCost (h, tag) then .error (.budgetExceeded budget)
      else (trueUp sc budget (spent + pairCost (h, tag)) ids).map fun p => ((h, tag) :: p.1, p.2)

/-- A pass over the ids at the least a tag can cost, then one over the texts. -/
def bucket (sc : SidecarDb) (loHex : String) (prefixBits budget : Nat) :
    Except SidecarError (Table Hash (List String) × Nat) :=
  match Hash.parse loHex with
  | none => .error (.badBound loHex)
  | some lo =>
    let ids := rowIds (sc.bandRows lo prefixBits)
    match drain budget 0 (ids.map fun _ => approxRowCost 64 1) with
    | none => .error (.budgetExceeded budget)
    | some _ =>
      match sc.trueUp budget 0 ids with
      | .error e => .error e
      | .ok (rows, spent) => .ok (groupSorted rows, spent)

/-- The pairs of one hash, its texts sorted and deduplicated. -/
def digestRow (sc : SidecarDb) (row : Sigma fun _ : Hash => List Nat) :
    Except SidecarError (List (Hash × String)) :=
  match sc.resolve (rowIds [row]) with
  | .error e => .error e
  | .ok pairs => .ok ((sortDedup (pairs.map Prod.snd)).map fun tag => (row.1, tag))

def digestPages (sc : SidecarDb) :
    List (List (Sigma fun _ : Hash => List Nat)) → Except SidecarError (List (Hash × String))
  | [] => .ok []
  | page :: pages =>
    match page.mapM sc.digestRow with
    | .error e => .error e
    | .ok pairs => (digestPages sc pages).map (pairs.flatten ++ ·)

def auditBatchHashes : Nat := 10000

/-- The pairs of a band in the order the digest takes them, page by page. -/
def auditBandDigest (sc : SidecarDb) (loHex : String) (prefixBits : Nat) :
    Except SidecarError (List (Hash × String)) :=
  match Hash.parse loHex with
  | none => .error (.badBound loHex)
  | some lo => sc.digestPages (chunksFrom auditBatchHashes [] (sc.bandRows lo prefixBits))

/-! ## The pairs of the map -/

/-- Whether a pair is in the map. -/
def current (sc : SidecarDb) : Hash × Nat → Option Bool :=
  fun k => some (decide (k.2 ∈ sc.readTagSet k.1))

/-- Rows as packing leaves them. -/
def Packed (sc : SidecarDb) : Prop :=
  ∀ hash ids, sc.bucketMap.lookup hash = some ids → ids ≠ [] ∧ ids.Pairwise (· < ·)

/-- What a mutation of a hash does to its pair. -/
def pairWrite (hash : Hash) (mutation : Nat × Bool) : (Hash × Nat) × Bool :=
  ((hash, mutation.1), !mutation.2)

section

variable {sc : SidecarDb}

theorem packed_empty : Packed .empty := by
  intro hash ids h
  cases h

theorem Packed.pairwise (h : sc.Packed) (hash : Hash) : (sc.readTagSet hash).Pairwise (· < ·) := by
  rw [readTagSet]
  cases hl : sc.bucketMap.lookup hash with
  | none => exact .nil
  | some ids => exact (h hash ids hl).2

theorem lookup_writeTagSet (hash : Hash) (ids : List Nat) (h : Hash) :
    (sc.writeTagSet hash ids).bucketMap.lookup h =
      if h = hash then (if ids = [] then none else some (sortDedup ids))
      else sc.bucketMap.lookup h := by
  unfold writeTagSet
  by_cases hh : h = hash
  · subst hh
    by_cases hids : ids = []
    · simp [hids]
    · simp [hids]
  · by_cases hids : ids = []
    · simp [hids, hh, AList.lookup_erase_ne]
    · simp [hids, hh]

theorem sortDedup_ne_nil {ids : List Nat} (h : ids ≠ []) : sortDedup ids ≠ [] := by
  obtain ⟨id, hid⟩ := List.exists_mem_of_ne_nil ids h
  exact List.ne_nil_of_mem (mem_sortDedup.2 hid)

theorem Packed.writeTagSet (h : sc.Packed) (hash : Hash) (ids : List Nat) :
    (sc.writeTagSet hash ids).Packed := by
  intro h' ids' hl
  rw [lookup_writeTagSet] at hl
  by_cases hh : h' = hash
  · rw [if_pos hh] at hl
    by_cases hids : ids = []
    · simp [hids] at hl
    · rw [if_neg hids, Option.some.injEq] at hl
      subst hl
      exact ⟨sortDedup_ne_nil hids, sortDedup_strict ids⟩
  · rw [if_neg hh] at hl
    exact h h' ids' hl

theorem mem_readTagSet_writeTagSet (hash : Hash) (ids : List Nat) (h : Hash) (id : Nat) :
    id ∈ (sc.writeTagSet hash ids).readTagSet h ↔
      if h = hash then id ∈ ids else id ∈ sc.readTagSet h := by
  rw [readTagSet, lookup_writeTagSet]
  by_cases hh : h = hash
  · by_cases hids : ids = []
    · simp [hh, hids]
    · simp [hh, hids]
  · simp [hh, readTagSet]

theorem pairwise_orderedInsert {set : List Nat} (h : set.Pairwise (· < ·)) {id : Nat}
    (hid : id ∉ set) : (set.orderedInsert (· ≤ ·) id).Pairwise (· < ·) := by
  have hle : (set.orderedInsert (· ≤ ·) id).Pairwise (· ≤ ·) :=
    (h.imp fun hlt => le_of_lt hlt).orderedInsert id set
  have hnodup : (set.orderedInsert (· ≤ ·) id).Nodup := by
    rw [(List.perm_orderedInsert (· ≤ ·) id set).nodup_iff, List.nodup_cons]
    exact ⟨hid, h.imp fun hlt => Nat.ne_of_lt hlt⟩
  exact (hle.and hnodup).imp fun hlt => lt_of_le_of_ne hlt.1 hlt.2

theorem pairwise_mutate {set : List Nat} (h : set.Pairwise (· < ·)) (mutation : Nat × Bool) :
    (mutate set mutation).Pairwise (· < ·) := by
  unfold mutate
  split
  · exact h.sublist List.erase_sublist
  · split
    · exact h
    · rename_i hid
      exact pairwise_orderedInsert h hid

theorem mem_mutate {set : List Nat} (h : set.Pairwise (· < ·)) (mutation : Nat × Bool) (id : Nat) :
    id ∈ mutate set mutation ↔ if id = mutation.1 then mutation.2 = false else id ∈ set := by
  have hnodup : set.Nodup := h.imp fun hlt => Nat.ne_of_lt hlt
  unfold mutate
  by_cases hid : id = mutation.1
  · subst hid
    cases mutation.2 with
    | true => simp [hnodup.not_mem_erase]
    | false =>
      by_cases hmem : mutation.1 ∈ set
      · simp [hmem]
      · simp [hmem]
  · cases mutation.2 with
    | true => simp [hid, List.mem_erase_of_ne]
    | false =>
      by_cases hmem : mutation.1 ∈ set
      · simp [hmem, hid]
      · simp [hmem, hid]

/-- The mutated set, as writes of its pairs. -/
theorem foldl_mutate (hash : Hash) (mutations : List (Nat × Bool)) {set : List Nat}
    (h : set.Pairwise (· < ·)) (f : Hash × Nat → Option Bool)
    (hf : ∀ id, f (hash, id) = some (decide (id ∈ set))) (id : Nat) :
    writeAll f (mutations.map (pairWrite hash)) (hash, id) =
      some (decide (id ∈ mutations.foldl mutate set)) := by
  induction mutations generalizing set f with
  | nil => exact hf id
  | cons mutation mutations ih =>
    rw [List.map_cons, writeAll_cons, List.foldl_cons]
    apply ih (pairwise_mutate h mutation)
    intro id'
    by_cases hid : id' = mutation.1
    · simp [pairWrite, Lib.write, mem_mutate h, hid]
    · simp [pairWrite, Lib.write, mem_mutate h, hid, hf]

theorem Packed.applyMutations (h : sc.Packed) (hash : Hash) (mutations : List (Nat × Bool)) :
    (sc.applyMutations hash mutations).Packed :=
  h.writeTagSet hash _

/-- Mutations of a hash are writes of its pairs, in their order. -/
theorem current_applyMutations (h : sc.Packed) (hash : Hash) (mutations : List (Nat × Bool)) :
    (sc.applyMutations hash mutations).current =
      writeAll sc.current (mutations.map (pairWrite hash)) := by
  funext k
  obtain ⟨h', id⟩ := k
  by_cases hh : h' = hash
  · subst hh
    rw [foldl_mutate h' mutations (h.pairwise h') sc.current (fun _ => rfl)]
    simp [current, SidecarDb.applyMutations, mem_readTagSet_writeTagSet]
  · have hnone : lastWrite (mutations.map (pairWrite hash)) (h', id) = none := by
      rw [lastWrite_eq_none]
      intro w hw
      obtain ⟨mutation, _, rfl⟩ := List.mem_map.1 hw
      simp [pairWrite, Ne.symm hh]
    rw [writeAll_of_not_written hnone]
    simp [current, SidecarDb.applyMutations, mem_readTagSet_writeTagSet, hh]

/-- Packed maps with the same pairs are the same map. -/
theorem lookup_eq_of_current {sc' : SidecarDb} (h : sc.Packed) (h' : sc'.Packed)
    (hcurrent : sc.current = sc'.current) (hash : Hash) :
    sc.bucketMap.lookup hash = sc'.bucketMap.lookup hash := by
  have hmem : ∀ id, id ∈ sc.readTagSet hash ↔ id ∈ sc'.readTagSet hash := by
    intro id
    have hk := congrFun hcurrent (hash, id)
    simpa [current] using hk
  have hset : sc.readTagSet hash = sc'.readTagSet hash :=
    strict_ext (h.pairwise hash) (h'.pairwise hash) hmem
  unfold readTagSet at hset
  cases hl : sc.bucketMap.lookup hash with
  | none =>
    cases hl' : sc'.bucketMap.lookup hash with
    | none => rfl
    | some ids =>
      rw [hl, hl'] at hset
      exact absurd hset.symm (h' hash ids hl').1
  | some ids =>
    cases hl' : sc'.bucketMap.lookup hash with
    | none =>
      rw [hl, hl'] at hset
      exact absurd hset (h hash ids hl).1
    | some ids' =>
      rw [hl, hl'] at hset
      exact congrArg some hset

end

end SidecarDb

/-! ## The sidecar's programs -/

/-- `staging.db`: rows of the bands read so far, and which those are. -/
structure Staging where
  buckets : List (Hash × List Nat)
  bandDone : List Nat
deriving DecidableEq

/-- The sidecar file, the staging file beside it if there is one, and the store that takes the
relations. -/
structure SidecarNode where
  sidecar : SidecarDb
  staging : Option Staging
  repo : RepoDb

namespace SidecarNode

def empty : SidecarNode := ⟨.empty, none, .empty⟩

def setSidecar (node : SidecarNode) (sc : SidecarDb) : SidecarNode := { node with sidecar := sc }

end SidecarNode

/-- A program of the sidecar; a transaction commits in one of its files at a time. -/
abbrev SidecarM := Prog SidecarNode SidecarError

def onSidecar (f : SidecarDb → SidecarDb) : SidecarM Unit :=
  .put fun node => node.setSidecar (f node.sidecar)

def trySidecar (f : SidecarDb → Except SidecarError SidecarDb) : SidecarM Unit :=
  .write fun node => (f node.sidecar).map fun sc => (node.setSidecar sc, ())

end Bridge
end Naiad
