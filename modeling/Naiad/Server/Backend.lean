import Naiad.Core.Tag
import Naiad.Lib.Sort
import Naiad.Server.Read

/-!
# Naiad.Server.Backend

Where buckets are read from: the repository's own store, a Hydrus snapshot, or a sidecar that maps
hashes to the ids of defined tags. Each charges the rows of a bucket against the budget it is given.

* `BucketSource.read_lawful`: a read of a bucket gives all of its rows or, when they cost more than
  the budget, none.
* `BucketSource.lookup_content`: the rows of a bucket are the current rows of the hashes in it.
-/

namespace Naiad
namespace Server

open Lib Netproto

inductive ReadError
  | budgetExceeded (budget : Nat)
  | internal
deriving DecidableEq

/-- What a bucket read returns: tags by hash, and what it charged. -/
abbrev ReadResult (V : Type) := Except ReadError (Table Hash (List V) × Nat)

/-- `BTreeMap<_, Vec<String>>` from pairs, each list sorted and deduplicated. -/
def groupSorted (pairs : List (Hash × String)) : Table Hash (List String) :=
  (Table.groupOnto ∅ pairs).modify fun _ tags => sortDedup tags

def pairCost (p : Hash × String) : Nat := approxRowCost 64 (byteLen p.2)

/-! ## The Hydrus snapshot -/

/-- The current mappings of a Hydrus tag service, as `(hash, namespace, subtag)`. -/
structure SnapshotBackend where
  unicode : Unicode
  rows : List (Hash × String × String)

namespace SnapshotBackend

/-- The texts of the rows; a tag that does not parse is skipped. -/
def pairs (b : SnapshotBackend) : List (Hash × String) :=
  b.rows.filterMap fun r =>
    match Tag.parse b.unicode (if r.2.1 = "" then r.2.2 else r.2.1 ++ ":" ++ r.2.2) with
    | .ok tag => some (r.1, tag.display)
    | .error _ => none

def mappingsForPrefix (b : SnapshotBackend) (loHex : String) (prefixBits budget : Nat) :
    Except ReadError (List (Hash × String) × Nat) :=
  match Hash.parse loHex with
  | none => .error .internal
  | some lo =>
    let rows := b.pairs.filter fun p =>
      inRange (bucketKey lo (min prefixBits 256)) (bucketUpper lo (min prefixBits 256)) p.1
    match drain budget 0 (rows.map pairCost) with
    | none => .error (.budgetExceeded budget)
    | some spent => .ok (rows, spent)

def bucket (b : SnapshotBackend) (loHex : String) (prefixBits budget : Nat) : ReadResult String :=
  match b.mappingsForPrefix loHex prefixBits budget with
  | .error e => .error e
  | .ok (rows, spent) => .ok (groupSorted rows, spent)

end SnapshotBackend

/-! ## The sidecar -/

/-- Packed tag ids by hash, and the texts of the ids; every id in use is defined. -/
structure Sidecar where
  bucketMap : Table Hash (List Nat)
  defsTags : Table Nat String
  defined : ∀ e ∈ bucketMap.entries, ∀ id ∈ e.2, (defsTags.lookup id).isSome = true

namespace Sidecar

/-- The texts of ids; `none` for an id that is not defined. -/
def resolve (sc : Sidecar) : List (Hash × Nat) → Option (List (Hash × String))
  | [] => some []
  | (h, id) :: ids =>
    match sc.defsTags.lookup id with
    | none => none
    | some tag => (resolve sc ids).map ((h, tag) :: ·)

def rangeIds (sc : Sidecar) (lo hi : String) : List (Hash × Nat) :=
  (sc.bucketMap.entries.filter fun e => inRange lo hi e.1).flatMap fun e =>
    e.2.map fun id => (e.1, id)

/-- The texts of all rows. -/
def pairs (sc : Sidecar) : List (Hash × String) :=
  sc.bucketMap.entries.flatMap fun e =>
    e.2.filterMap fun id => (sc.defsTags.lookup id).map fun tag => (e.1, tag)

/-- A pass over the ids at the least a tag can cost, then one over the texts. -/
def bucket (sc : Sidecar) (loHex : String) (prefixBits budget : Nat) : ReadResult String :=
  match Hash.parse loHex with
  | none => .error .internal
  | some lo =>
    let ids := sc.rangeIds (bucketKey lo (min prefixBits 256)) (bucketUpper lo (min prefixBits 256))
    match drain budget 0 (ids.map fun _ => approxRowCost 64 1) with
    | none => .error (.budgetExceeded budget)
    | some _ =>
      match sc.resolve ids with
      | none => .error .internal
      | some rows =>
        match drain budget 0 (rows.map pairCost) with
        | none => .error (.budgetExceeded budget)
        | some spent => .ok (groupSorted rows, spent)

end Sidecar

/-! ## Sources -/

/-- What a bucket request is answered from. The added domains have a ceiling on prefix bits. -/
inductive BucketSource
  | native (store : RepoStore)
  | snapshot (backend : SnapshotBackend) (maxQueryBits : Nat)
  | sidecar (backend : Sidecar) (maxQueryBits : Nat)

namespace BucketSource

/-- The prefix width a request is served at. -/
def queryBits (src : BucketSource) (requested : Nat) : Nat :=
  match src with
  | .native _ => min requested 256
  | .snapshot _ maxQueryBits => min (min requested maxQueryBits) 256
  | .sidecar _ maxQueryBits => min (min requested maxQueryBits) 256

/-- `OriginTag { tag, origin: None }` -/
def plain (tags : Table Hash (List String)) : Table Hash (List OriginTag) :=
  ⟨tags.entries.map fun e => ⟨e.1, e.2.map fun tag => ⟨tag, none⟩⟩, by
    have hkeys : (tags.entries.map fun e =>
        (⟨e.1, e.2.map fun tag => ⟨tag, none⟩⟩ : Sigma fun _ : Hash => List OriginTag)).keys =
        tags.entries.keys := by
      simp [List.keys]
    rw [List.NodupKeys, hkeys]
    exact tags.nodupKeys⟩

def ofPlain (r : ReadResult String) : ReadResult OriginTag := r.map fun p => (plain p.1, p.2)

/-- One bucket; `none` for a key that the native loop skips. -/
def read (src : BucketSource) (bits : Nat) (key : String) (remaining : Nat) :
    Option (ReadResult OriginTag) :=
  match src with
  | .native store =>
    (Hash.parse key).map fun lo =>
      match store.bucket (bucketKey lo bits) (bucketUpper lo bits) remaining with
      | .error e => .error (.budgetExceeded e.budget)
      | .ok p => .ok p
  | .snapshot backend _ => some (ofPlain (backend.bucket key bits remaining))
  | .sidecar backend _ => some (ofPlain (backend.bucket key bits remaining))

/-- The cursor of a stream's header; a static snapshot has none to keep. -/
def cursor (src : BucketSource) : U64 :=
  match src with
  | .native store => Fin.ofNat _ store.mappingCursor
  | .snapshot _ _ => 0
  | .sidecar _ _ => 0

/-- The tags of a hash among pairs, sorted. -/
def tagsOf (pairs : List (Hash × String)) (h : Hash) : List OriginTag :=
  (sortDedup ((pairs.filter (·.1 = h)).map Prod.snd)).map fun tag => ⟨tag, none⟩

/-- The current rows of a hash. -/
def current (src : BucketSource) (h : Hash) : List OriginTag :=
  match src with
  | .native store => (store.snapshot.lookup h).getD []
  | .snapshot backend _ => tagsOf backend.pairs h
  | .sidecar backend _ => tagsOf backend.pairs h

end BucketSource

/-! ## Reads of one bucket -/

/-- The least budget that a list of costs fits; rows that are not there cost nothing. -/
def threshold (start : Nat) (costs : List Nat) : Nat := if costs = [] then 0 else start + costs.sum

theorem drain_eq_if (n start : Nat) (costs : List Nat) :
    drain n start costs = if threshold start costs ≤ n then some (start + costs.sum) else none := by
  have hiff : threshold start costs ≤ n ↔ costs = [] ∨ start + costs.sum ≤ n := by
    by_cases hnil : costs = []
    · simp [threshold, hnil]
    · simp [threshold, hnil]
  split
  · rename_i hle
    exact drain_eq_some.2 ⟨rfl, hiff.1 hle⟩
  · rename_i hgt
    rw [hiff] at hgt
    cases h : drain n start costs with
    | none => rfl
    | some total =>
      obtain ⟨rfl, hfit⟩ := drain_eq_some.1 h
      exact absurd hfit hgt

theorem Sidecar.resolve_eq (sc : Sidecar) (ids : List (Hash × Nat))
    (h : ∀ p ∈ ids, (sc.defsTags.lookup p.2).isSome = true) :
    sc.resolve ids = some (ids.filterMap fun p => (sc.defsTags.lookup p.2).map fun tag => (p.1, tag)) := by
  induction ids with
  | nil => rfl
  | cons p ids ih =>
    obtain ⟨tag, htag⟩ := Option.isSome_iff_exists.1 (h p (by simp))
    have hrest := ih fun q hq => h q (List.mem_cons_of_mem _ hq)
    simp [resolve, htag, hrest]

/-- Texts of the ids of one hash, when the hash is in range. -/
theorem Sidecar.filter_texts (sc : Sidecar) (p : Hash → Bool) (h : Hash) (ids : List Nat) :
    (ids.filterMap fun id => (sc.defsTags.lookup id).map fun tag => (h, tag)).filter
        (fun q => p q.1) =
      if p h then ids.filterMap fun id => (sc.defsTags.lookup id).map fun tag => (h, tag) else [] := by
  split
  · rename_i hp
    rw [List.filter_eq_self]
    intro q hq
    obtain ⟨id, _, htag⟩ := List.mem_filterMap.1 hq
    obtain ⟨tag, _, rfl⟩ := Option.map_eq_some_iff.1 htag
    exact hp
  · rename_i hp
    rw [List.filter_eq_nil_iff]
    intro q hq
    obtain ⟨id, _, htag⟩ := List.mem_filterMap.1 hq
    obtain ⟨tag, _, rfl⟩ := Option.map_eq_some_iff.1 htag
    exact hp

theorem Sidecar.resolve_rangeIds (sc : Sidecar) (lo hi : String) :
    sc.resolve (sc.rangeIds lo hi) = some (sc.pairs.filter fun p => inRange lo hi p.1) := by
  have htexts : ∀ l : List (Sigma fun _ : Hash => List Nat),
      ((l.filter fun e => inRange lo hi e.1).flatMap fun e => e.2.map fun id => (e.1, id)).filterMap
          (fun p => (sc.defsTags.lookup p.2).map fun tag => (p.1, tag)) =
        (l.flatMap fun e => e.2.filterMap fun id =>
          (sc.defsTags.lookup id).map fun tag => (e.1, tag)).filter fun p => inRange lo hi p.1 := by
    intro l
    induction l with
    | nil => rfl
    | cons e l ih =>
      rw [List.flatMap_cons, List.filter_append, sc.filter_texts, ← ih]
      by_cases hr : inRange lo hi e.1 = true
      · simp [hr, List.filterMap_map]
      · simp [hr]
  rw [sc.resolve_eq, rangeIds, htexts, pairs]
  intro p hp
  obtain ⟨e, he, hid⟩ := List.mem_flatMap.1 hp
  obtain ⟨id, hmem, rfl⟩ := List.mem_map.1 hid
  exact sc.defined e (List.mem_filter.1 he).1 id hmem

theorem Sidecar.resolve_length {sc : Sidecar} {ids : List (Hash × Nat)}
    {rows : List (Hash × String)} (h : sc.resolve ids = some rows) : ids.length = rows.length := by
  induction ids generalizing rows with
  | nil =>
    cases h
    rfl
  | cons p ids ih =>
    obtain ⟨k, id⟩ := p
    rw [resolve] at h
    split at h
    · cases h
    · obtain ⟨rest, hrest, rfl⟩ := Option.map_eq_some_iff.1 h
      simp [ih hrest]

namespace BucketSource

variable {src : BucketSource} {lo : Hash} {bits : Nat}

def inBucket (bits : Nat) (key : String) (h : Hash) : Bool := bucketKey h bits = key

/-- The range of a key that the source has masked again holds the bucket. -/
theorem inRange_masked (h : Hash) :
    inRange (bucketKey (masked lo bits) (min bits 256)) (bucketUpper (masked lo bits) (min bits 256))
      h = inBucket bits (bucketKey lo bits) h := by
  have hmin : ∀ h : Hash, bucketKey h (min bits 256) = bucketKey h bits := by
    intro h
    rw [bucketKey, masked_min, bucketKey]
  rw [Bool.eq_iff_iff, inRange_bucket, hmin, hmin, bucketKey_masked, inBucket, decide_eq_true_iff]

/-- The rows of a bucket of the store. -/
def nativeRows (store : RepoStore) (bits : Nat) (key : String) : List (Hash × OriginTag) :=
  (orderBy RepoStore.hashTagKey (store.joinRows.filter fun r =>
    r.2.2.status = .current ∧ inBucket bits key r.1)).map fun r => (r.1, ⟨r.2.1, r.2.2.origin⟩)

def bucketPairs (pairs : List (Hash × String)) (bits : Nat) (key : String) : List (Hash × String) :=
  pairs.filter fun p => inBucket bits key p.1

/-- The rows of a bucket. -/
def content (src : BucketSource) (bits : Nat) (key : String) : Table Hash (List OriginTag) :=
  match src with
  | .native store => Table.groupOnto ∅ (nativeRows store bits key)
  | .snapshot backend _ => plain (groupSorted (bucketPairs backend.pairs bits key))
  | .sidecar backend _ => plain (groupSorted (bucketPairs backend.pairs bits key))

/-- The least budget a bucket alone fits. -/
def cost (src : BucketSource) (bits : Nat) (key : String) : Nat :=
  match src with
  | .native store =>
    threshold responseEnvelopeOverhead
      ((nativeRows store bits key).map fun r => rowCost r.2.tag r.2.origin)
  | .snapshot backend _ => threshold 0 ((bucketPairs backend.pairs bits key).map pairCost)
  | .sidecar backend _ =>
    max (threshold 0 ((bucketPairs backend.pairs bits key).map fun _ => approxRowCost 64 1))
      (threshold 0 ((bucketPairs backend.pairs bits key).map pairCost))

/-- What a bucket charges against the budget of the request. -/
def spent (src : BucketSource) (bits : Nat) (key : String) : Nat :=
  match src with
  | .native store =>
    responseEnvelopeOverhead +
      ((nativeRows store bits key).map fun r => rowCost r.2.tag r.2.origin).sum
  | .snapshot backend _ => 0 + ((bucketPairs backend.pairs bits key).map pairCost).sum
  | .sidecar backend _ => 0 + ((bucketPairs backend.pairs bits key).map pairCost).sum

theorem bucketRows_masked (store : RepoStore) (lo : Hash) (bits : Nat) :
    store.bucketRows (bucketKey (masked lo bits) bits) (bucketUpper (masked lo bits) bits) =
      nativeRows store bits (bucketKey lo bits) := by
  have hrange : ∀ h, inRange (bucketKey (masked lo bits) bits) (bucketUpper (masked lo bits) bits) h =
      inBucket bits (bucketKey lo bits) h := by
    intro h
    rw [Bool.eq_iff_iff, inRange_bucket, bucketKey_masked, inBucket, decide_eq_true_iff]
  simp only [RepoStore.bucketRows, nativeRows, hrange]

theorem read_native (store : RepoStore) (lo : Hash) (bits n : Nat) :
    (native store).read bits (bucketKey lo bits) n = some
      (if (native store).cost bits (bucketKey lo bits) ≤ n then
        .ok ((native store).content bits (bucketKey lo bits),
          (native store).spent bits (bucketKey lo bits))
      else .error (.budgetExceeded n)) := by
  by_cases h : (native store).cost bits (bucketKey lo bits) ≤ n
  · rw [if_pos h]
    simp only [cost] at h
    simp only [read, parse_bucketKey, Option.map_some, RepoStore.bucket, bucketRows_masked,
      drain_eq_if, if_pos h]
    rfl
  · rw [if_neg h]
    simp only [cost] at h
    simp only [read, parse_bucketKey, Option.map_some, RepoStore.bucket, bucketRows_masked,
      drain_eq_if, if_neg h]

theorem read_snapshot (backend : SnapshotBackend) (maxQueryBits : Nat) (lo : Hash) (bits n : Nat) :
    (snapshot backend maxQueryBits).read bits (bucketKey lo bits) n = some
      (if (snapshot backend maxQueryBits).cost bits (bucketKey lo bits) ≤ n then
        .ok ((snapshot backend maxQueryBits).content bits (bucketKey lo bits),
          (snapshot backend maxQueryBits).spent bits (bucketKey lo bits))
      else .error (.budgetExceeded n)) := by
  by_cases h : (snapshot backend maxQueryBits).cost bits (bucketKey lo bits) ≤ n
  · rw [if_pos h]
    simp only [cost, bucketPairs] at h
    simp only [read, SnapshotBackend.bucket, SnapshotBackend.mappingsForPrefix, parse_bucketKey,
      inRange_masked, drain_eq_if, if_pos h]
    rfl
  · rw [if_neg h]
    simp only [cost, bucketPairs] at h
    simp only [read, SnapshotBackend.bucket, SnapshotBackend.mappingsForPrefix, parse_bucketKey,
      inRange_masked, drain_eq_if, if_neg h]
    rfl

theorem read_sidecar (backend : Sidecar) (maxQueryBits : Nat) (lo : Hash) (bits n : Nat) :
    (sidecar backend maxQueryBits).read bits (bucketKey lo bits) n = some
      (if (sidecar backend maxQueryBits).cost bits (bucketKey lo bits) ≤ n then
        .ok ((sidecar backend maxQueryBits).content bits (bucketKey lo bits),
          (sidecar backend maxQueryBits).spent bits (bucketKey lo bits))
      else .error (.budgetExceeded n)) := by
  have hresolve := backend.resolve_rangeIds (bucketKey (masked lo bits) (min bits 256))
    (bucketUpper (masked lo bits) (min bits 256))
  simp only [inRange_masked] at hresolve
  have hfloor : ((backend.rangeIds (bucketKey (masked lo bits) (min bits 256))
      (bucketUpper (masked lo bits) (min bits 256))).map fun _ => approxRowCost 64 1) =
      (bucketPairs backend.pairs bits (bucketKey lo bits)).map fun _ => approxRowCost 64 1 := by
    rw [List.map_const', List.map_const', Sidecar.resolve_length hresolve]
    rfl
  by_cases h : (sidecar backend maxQueryBits).cost bits (bucketKey lo bits) ≤ n
  · rw [if_pos h]
    simp only [cost, max_le_iff, bucketPairs] at h
    simp only [bucketPairs] at hfloor
    simp only [read, Sidecar.bucket, parse_bucketKey, hresolve, hfloor, drain_eq_if, if_pos h.1,
      if_pos h.2]
    rfl
  · rw [if_neg h]
    simp only [cost, max_le_iff, bucketPairs, not_and] at h
    simp only [bucketPairs] at hfloor
    simp only [read, Sidecar.bucket, parse_bucketKey, hresolve, hfloor, drain_eq_if]
    by_cases h1 : threshold 0 ((backend.pairs.filter fun p =>
        inBucket bits (bucketKey lo bits) p.1).map fun _ => approxRowCost 64 1) ≤ n
    · simp only [if_pos h1, if_neg (h h1)]
      rfl
    · simp only [if_neg h1]
      rfl

/-- A read of a bucket gives all of its rows, or none when they cost more than the budget. -/
theorem read_lawful (src : BucketSource) (lo : Hash) (bits n : Nat) :
    src.read bits (bucketKey lo bits) n = some
      (if src.cost bits (bucketKey lo bits) ≤ n then
        .ok (src.content bits (bucketKey lo bits), src.spent bits (bucketKey lo bits))
      else .error (.budgetExceeded n)) := by
  cases src with
  | native store => exact read_native store lo bits n
  | snapshot backend maxQueryBits => exact read_snapshot backend maxQueryBits lo bits n
  | sidecar backend maxQueryBits => exact read_sidecar backend maxQueryBits lo bits n

/-! ## The rows of a bucket -/

theorem lookup_plain (tags : Table Hash (List String)) (h : Hash) :
    (plain tags).lookup h = (tags.lookup h).map fun l => l.map fun tag => ⟨tag, none⟩ := by
  cases hl : tags.lookup h with
  | some l =>
    exact Table.mem_entries.1 (List.mem_map.2 ⟨_, Table.mem_entries.2 hl, rfl⟩)
  | none =>
    rw [Option.map_none, AList.lookup_eq_none, AList.mem_keys]
    rw [AList.lookup_eq_none, AList.mem_keys] at hl
    simpa [plain, AList.keys, List.keys] using hl

/-- The first of a pair passes the test of a bucket, once and for all pairs of that hash. -/
theorem filter_bucket {V : Type} (rows : List (Hash × V)) (bits : Nat) (key : String) (h : Hash) :
    (rows.filter fun p => inBucket bits key p.1).filter (·.1 = h) =
      if inBucket bits key h then rows.filter (·.1 = h) else [] := by
  rw [List.filter_filter]
  by_cases hb : inBucket bits key h = true
  · rw [if_pos hb]
    apply List.filter_congr
    intro p _
    by_cases hp : p.1 = h
    · simp [hp, hb]
    · simp [hp]
  · rw [if_neg hb, List.filter_eq_nil_iff]
    intro p _
    by_cases hp : p.1 = h
    · simp [hp, hb]
    · simp [hp]

theorem getD_lookup_groupSorted (pairs : List (Hash × String)) (h : Hash) :
    ((groupSorted pairs).lookup h).getD [] =
      sortDedup ((pairs.filter (·.1 = h)).map Prod.snd) := by
  have hgroup := Table.lookup_groupOnto (∅ : Table Hash (List String)) pairs h
  rw [AList.lookup_empty, Option.getD_none, List.nil_append] at hgroup
  rw [groupSorted, Table.lookup_modify, ← hgroup]
  cases (Table.groupOnto (∅ : Table Hash (List String)) pairs).lookup h with
  | none => rfl
  | some l => rfl

theorem lookup_groupSorted (pairs : List (Hash × String)) (h : Hash) :
    ((plain (groupSorted pairs)).lookup h).getD [] = tagsOf pairs h := by
  rw [lookup_plain, tagsOf, ← getD_lookup_groupSorted]
  cases (groupSorted pairs).lookup h with
  | none => rfl
  | some l => rfl

theorem tagsOf_bucketPairs (pairs : List (Hash × String)) (bits : Nat) (key : String) (h : Hash) :
    tagsOf (bucketPairs pairs bits key) h = if inBucket bits key h then tagsOf pairs h else [] := by
  rw [tagsOf, bucketPairs, filter_bucket]
  split <;> rfl

/-- The rows of a store that pass a test, in the order of a read. -/
theorem filter_read (store : RepoStore) (p : Hash → Bool) (h : Hash) :
    (((orderBy RepoStore.hashTagKey (store.joinRows.filter fun r =>
        r.2.2.status = .current ∧ p r.1)).map
          fun r => ((r.1, ⟨r.2.1, r.2.2.origin⟩) : Hash × OriginTag)).filter (·.1 = h)) =
      (orderBy RepoStore.hashTagKey (store.joinRows.filter fun r =>
        (r.2.2.status = .current ∧ p r.1) ∧ r.1 = h)).map fun r => (r.1, ⟨r.2.1, r.2.2.origin⟩) := by
  rw [List.filter_map, filter_orderBy, List.filter_filter]
  congr 3
  funext r
  simp [and_comm]

/-- The rows of a bucket are the current rows of the hashes in it. -/
theorem lookup_content (src : BucketSource) (bits : Nat) (key : String) (h : Hash) :
    ((src.content bits key).lookup h).getD [] =
      if inBucket bits key h then src.current h else [] := by
  cases src with
  | native store =>
    have hall := filter_read store (fun _ => true) h
    simp only [and_true] at hall
    rw [content, current, RepoStore.snapshot, Table.lookup_groupOnto, Table.lookup_groupOnto,
      nativeRows, filter_read, hall]
    by_cases hb : inBucket bits key h = true
    · rw [if_pos hb]
      congr 4
      apply List.filter_congr
      intro r _
      by_cases hr : r.1 = h
      · simp [hr, hb]
      · simp [hr]
    · rw [if_neg hb]
      have hnil : (store.joinRows.filter fun r =>
          (r.2.2.status = .current ∧ inBucket bits key r.1) ∧ r.1 = h) = [] := by
        rw [List.filter_eq_nil_iff]
        intro r _
        by_cases hr : r.1 = h
        · simp [hr, hb]
        · simp [hr]
      rw [hnil]
      rfl
  | snapshot backend maxQueryBits =>
    rw [content, lookup_groupSorted, tagsOf_bucketPairs]
    rfl
  | sidecar backend maxQueryBits =>
    rw [content, lookup_groupSorted, tagsOf_bucketPairs]
    rfl

theorem mem_plain (tags : Table Hash (List String)) (h : Hash) : h ∈ plain tags ↔ h ∈ tags := by
  rw [← AList.lookup_isSome, ← AList.lookup_isSome, lookup_plain, Option.isSome_map]

theorem mem_groupSorted {pairs : List (Hash × String)} {h : Hash} :
    h ∈ plain (groupSorted pairs) ↔ ∃ tag, (h, tag) ∈ pairs := by
  rw [mem_plain, groupSorted, ← AList.lookup_isSome, Table.lookup_modify, Option.isSome_map,
    AList.lookup_isSome, Table.mem_groupOnto]
  simp

/-- A bucket holds no other hashes. -/
theorem inBucket_of_mem_content {src : BucketSource} {bits : Nat} {key : String} {h : Hash}
    (hmem : h ∈ src.content bits key) : inBucket bits key h = true := by
  have hpairs : ∀ pairs, h ∈ plain (groupSorted (bucketPairs pairs bits key)) →
      inBucket bits key h = true := by
    intro pairs hpairs
    obtain ⟨tag, htag⟩ := mem_groupSorted.1 hpairs
    exact (List.mem_filter.1 htag).2
  cases src with
  | native store =>
    rcases (Table.mem_groupOnto _ _ _).1 hmem with hempty | ⟨o, ho⟩
    · cases hempty
    · obtain ⟨r, hr, heq⟩ := List.mem_map.1 ho
      rw [mem_orderBy] at hr
      have htest := of_decide_eq_true (List.mem_filter.1 hr).2
      rw [← (Prod.mk.inj heq).1]
      exact htest.2
  | snapshot backend maxQueryBits => exact hpairs _ hmem
  | sidecar backend maxQueryBits => exact hpairs _ hmem

end BucketSource

end Server
end Naiad
