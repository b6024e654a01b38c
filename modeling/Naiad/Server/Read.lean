import Mathlib.Data.Prod.Lex
import Naiad.Core.Bucket
import Naiad.Core.Budget
import Naiad.Server.Store

/-!
# Naiad.Server.Read

The reads a pull is served from: the rows of a hash range, current or changed since a cursor, each
charged against a byte budget, and the handler that answers a list of buckets in one read
transaction.

* `drain_eq_some`: when a drain succeeds and what it then spent.
* `inRange_bucket`: the range of a bucket holds exactly the hashes with its key.
* `mem_bucketRows`, `mem_deltaRows`: the rows the two reads return.
-/

namespace Naiad
namespace Server

open Lib Netproto

structure BudgetExceeded where
  budget : Nat
deriving DecidableEq

/-- Charge costs one by one; `none` as soon as the budget is passed. -/
def drain (budget : Nat) : Nat → List Nat → Option Nat
  | spent, [] => some spent
  | spent, cost :: costs =>
    if spent + cost > budget then none else drain budget (spent + cost) costs

theorem drain_eq_some {budget spent total : Nat} {costs : List Nat} :
    drain budget spent costs = some total ↔
      total = spent + costs.sum ∧ (costs = [] ∨ total ≤ budget) := by
  induction costs generalizing spent with
  | nil => simp [drain, eq_comm]
  | cons cost costs ih =>
    rw [drain]
    split
    · rename_i hgt
      constructor
      · intro h
        cases h
      · rintro ⟨rfl, h | h⟩
        · cases h
        · simp only [List.sum_cons] at h
          omega
    · rename_i hle
      rw [ih, List.sum_cons]
      constructor
      · rintro ⟨rfl, h | h⟩
        · subst h
          exact ⟨by simp, .inr (by simp; omega)⟩
        · exact ⟨by omega, .inr h⟩
      · rintro ⟨rfl, h | h⟩
        · cases h
        · exact ⟨by omega, .inr h⟩

/-! ## Hash ranges -/

def loBound (s : String) : List Byte := ((hexDecode s).filter (·.length = 32)).getD []

def hiBound (s : String) : List Byte :=
  ((hexDecode s).filter (·.length = 32)).getD (List.replicate 33 255)

/-- `h.hash >= ?1 AND h.hash < ?2`. -/
def inRange (lo hi : String) (h : Hash) : Bool := loBound lo ≤ h.bytes ∧ h.bytes < hiBound hi

theorem loBound_toHex (h : Hash) : loBound h.toHex = h.bytes := by
  have hf : (some h.bytes).filter (fun x => decide (x.length = 32)) = some h.bytes :=
    Option.filter_eq_some_iff.2 ⟨rfl, by simp [h.size]⟩
  rw [loBound, Hash.hexDecode_toHex, hf, Option.getD_some]

theorem hiBound_toHex (h : Hash) : hiBound h.toHex = h.bytes := by
  have hf : (some h.bytes).filter (fun x => decide (x.length = 32)) = some h.bytes :=
    Option.filter_eq_some_iff.2 ⟨rfl, by simp [h.size]⟩
  rw [hiBound, Hash.hexDecode_toHex, hf, Option.getD_some]

theorem hiBound_sentinel : hiBound "g" = List.replicate 33 255 := by decide

/-- A byte string sorts before any longer string of `0xFF`. -/
theorem lt_replicate_max (bs : List Byte) {n : Nat} (h : bs.length < n) :
    bs < List.replicate n 255 := by
  induction bs generalizing n with
  | nil =>
    cases n with
    | zero => simp at h
    | succ n => exact List.nil_lt_cons _ _
  | cons b bs ih =>
    cases n with
    | zero => simp at h
    | succ n =>
      rw [List.replicate_succ, List.cons_lt_cons_iff]
      have hb : b ≤ 255 := Fin.le_last b
      rcases lt_or_eq_of_le hb with hlt | heq
      · exact .inl hlt
      · exact .inr ⟨heq, ih (by simpa using h)⟩

/-- The blob range of a bucket holds exactly the hashes with its key. -/
theorem inRange_bucket (h lo : Hash) (bits : Nat) :
    inRange (bucketKey lo bits) (bucketUpper lo bits) h = true ↔
      bucketKey h bits = bucketKey lo bits := by
  rw [bucketKey_eq_iff, inRange, bucketKey, loBound_toHex, decide_eq_true_eq]
  change masked lo bits ≤ h ∧ _ ↔ _
  rcases bucketUpper_cases lo bits with ⟨hu, hmem⟩ | ⟨next, hu, hmem⟩
  · rw [hu, hiBound_sentinel, hmem]
    exact and_iff_left (lt_replicate_max _ (by rw [h.size]; decide))
  · rw [hu, hmem, hiBound_toHex]
    rfl

/-- **The partition law in every form.** The hashes with the key of a bucket are those between the
key and the upper bound of the key, as text and as the blobs of the store; a key is its own key; a
finer bucket lies in the coarser one; widths past 256 bits mean 256. -/
theorem bucket_partition (h h' : Hash) (bits : Nat) :
    ∃ lo, Hash.parse (bucketKey h bits) = some lo ∧ bucketKey lo bits = bucketKey h bits ∧
      (bucketKey h' bits = bucketKey h bits ↔
        bucketKey h bits ≤ h'.toHex ∧ h'.toHex < bucketUpper lo bits) ∧
      (bucketKey h' bits = bucketKey h bits ↔
        loBound (bucketKey h bits) ≤ h'.bytes ∧ h'.bytes < hiBound (bucketUpper lo bits)) ∧
      (∀ coarser ≤ bits, bucketKey h' bits = bucketKey h bits →
        bucketKey h' coarser = bucketKey h coarser) ∧
      bucketKey h (min bits 256) = bucketKey h bits ∧
      bucketUpper h (min bits 256) = bucketUpper h bits := by
  have hblob := inRange_bucket h' h bits
  rw [inRange, decide_eq_true_eq] at hblob
  refine ⟨masked h bits, parse_bucketKey h bits, bucketKey_masked h bits, ?_, ?_, ?_,
    bucketKey_min h bits, bucketUpper_min h bits⟩
  · rw [bucketUpper_masked]
    exact (mem_bucket_iff h' h bits).symm
  · rw [bucketUpper_masked]
    exact hblob.symm
  · intro coarser hle hkey
    exact bucketKey_coarser hle hkey

/-! ## Reads of one range -/

def rowCost (tag : String) (origin : Option String) : Nat :=
  approxRowCost 64 (byteLen tag + originCost origin)

namespace RepoStore

/-- `ORDER BY h.hash, t.tag`. -/
def hashTagKey (r : Hash × String × MappingRow) : Lex (Hash × String) := toLex (r.1, r.2.1)

/-- `ORDER BY m.seq, h.hash, t.tag`. -/
def seqHashTagKey (r : Hash × String × MappingRow) : Lex (Nat × Lex (Hash × String)) :=
  toLex (r.2.2.seq, hashTagKey r)

/-- The current rows of a range. -/
def bucketRows (s : RepoStore) (lo hi : String) : List (Hash × OriginTag) :=
  (orderBy hashTagKey
    (s.joinRows.filter fun r => r.2.2.status = .current ∧ inRange lo hi r.1)).map
      fun r => (r.1, ⟨r.2.1, r.2.2.origin⟩)

def bucket (s : RepoStore) (lo hi : String) (budget : Nat) :
    Except BudgetExceeded (Table Hash (List OriginTag) × Nat) :=
  match drain budget responseEnvelopeOverhead
      ((s.bucketRows lo hi).map fun r => rowCost r.2.tag r.2.origin) with
  | none => .error ⟨budget⟩
  | some spent => .ok (Table.groupOnto ∅ (s.bucketRows lo hi), spent)

/-- The rows of a range past a cursor, which is clamped to an `i64`. -/
def deltaRows (s : RepoStore) (lo hi : String) (since : Nat) : List DeltaMapping :=
  (orderBy seqHashTagKey
    (s.joinRows.filter fun r => inRange lo hi r.1 ∧ r.2.2.seq > min since (2 ^ 63 - 1))).map
      fun r => ⟨r.1, r.2.1, r.2.2.status, r.2.2.seq, r.2.2.origin⟩

def bucketDelta (s : RepoStore) (lo hi : String) (since budget : Nat) :
    Except BudgetExceeded (List DeltaMapping × Nat) :=
  match drain budget responseEnvelopeOverhead
      ((s.deltaRows lo hi since).map fun r => rowCost r.tag r.origin) with
  | none => .error ⟨budget⟩
  | some spent => .ok (s.deltaRows lo hi since, spent)

/-- The whole store, current mappings only. -/
def snapshot (s : RepoStore) : Table Hash (List OriginTag) :=
  Table.groupOnto ∅ ((orderBy hashTagKey
    (s.joinRows.filter fun r => r.2.2.status = .current)).map
      fun r => (r.1, ⟨r.2.1, r.2.2.origin⟩))

theorem mem_bucketRows {s : RepoStore} (hs : s.Sound) {lo hi : String} {h : Hash}
    {o : OriginTag} :
    (h, o) ∈ s.bucketRows lo hi ↔ inRange lo hi h = true ∧
      ∃ r, s.row h o.tag = some r ∧ r.status = .current ∧ r.origin = o.origin := by
  simp only [bucketRows, List.mem_map, mem_orderBy, List.mem_filter, decide_eq_true_eq]
  constructor
  · rintro ⟨⟨h', t', r⟩, ⟨hmem, hcur, hrange⟩, heq⟩
    cases heq
    exact ⟨hrange, r, (mem_joinRows hs).1 hmem, hcur, rfl⟩
  · rintro ⟨hrange, r, hrow, hcur, horig⟩
    refine ⟨(h, o.tag, r), ⟨(mem_joinRows hs).2 hrow, hcur, hrange⟩, ?_⟩
    rw [horig]

theorem mem_deltaRows {s : RepoStore} (hs : s.Sound) {lo hi : String} {since : Nat}
    {d : DeltaMapping} :
    d ∈ s.deltaRows lo hi since ↔ inRange lo hi d.hash = true ∧
      d.seq > min since (2 ^ 63 - 1) ∧
        s.row d.hash d.tag = some ⟨d.status, d.seq, d.origin⟩ := by
  simp only [deltaRows, List.mem_map, mem_orderBy, List.mem_filter, decide_eq_true_eq]
  constructor
  · rintro ⟨⟨h', t', r⟩, ⟨hmem, hrange, hseq⟩, rfl⟩
    exact ⟨hrange, hseq, (mem_joinRows hs).1 hmem⟩
  · rintro ⟨hrange, hseq, hrow⟩
    exact ⟨(d.hash, d.tag, ⟨d.status, d.seq, d.origin⟩),
      ⟨(mem_joinRows hs).2 hrow, hrange, hseq⟩, rfl⟩

end RepoStore

/-! ## The bucket handler -/

/-- The `(hash, tag)` pairs of a map from hashes to tags. -/
def pairs (tags : Table Hash (List OriginTag)) : Finset (Hash × String) :=
  (tags.entries.flatMap fun e => e.2.map fun o => (e.1, o.tag)).toFinset

theorem mem_pairs {tags : Table Hash (List OriginTag)} {h : Hash} {t : String} :
    (h, t) ∈ pairs tags ↔ ∃ o ∈ (tags.lookup h).getD [], o.tag = t := by
  simp only [pairs, List.mem_toFinset, List.mem_flatMap, List.mem_map, Prod.mk.injEq]
  constructor
  · rintro ⟨⟨h', os⟩, hmem, o, ho, rfl, rfl⟩
    have hl := Table.mem_entries.1 hmem
    exact ⟨o, by simpa [hl] using ho, rfl⟩
  · rintro ⟨o, ho, rfl⟩
    cases hl : tags.lookup h with
    | none => simp [hl] at ho
    | some os => exact ⟨⟨h, os⟩, Table.mem_entries.2 hl, o, by simpa [hl] using ho, rfl, rfl⟩

inductive BucketsResponse
  | snapshot (cursor : Nat) (tags : Table Hash (List OriginTag))
  | delta (cursor : Nat) (changes : List DeltaMapping)

inductive BucketsError
  | sinceLength
  | malformedKey (key : String)
  | budgetExceeded (budget : Nat)
deriving DecidableEq

def parseBuckets : List String → Except BucketsError (List Hash)
  | [] => .ok []
  | b :: bs =>
    match Hash.parse b with
    | none => .error (.malformedKey b)
    | some lo =>
      match parseBuckets bs with
      | .error e => .error e
      | .ok los => .ok (lo :: los)

namespace RepoStore

def snapshotBuckets (s : RepoStore) (prefixBits : Nat) :
    Nat → Table Hash (List OriginTag) → List Hash →
      Except BucketsError (Table Hash (List OriginTag))
  | _, tags, [] => .ok tags
  | remaining, tags, lo :: los =>
    match s.bucket (bucketKey lo prefixBits) (bucketUpper lo prefixBits) remaining with
    | .error e => .error (.budgetExceeded e.budget)
    | .ok (part, spent) => snapshotBuckets s prefixBits (remaining - spent) (part ∪ tags) los

def deltaBuckets (s : RepoStore) (prefixBits : Nat) :
    Nat → List DeltaMapping → List (Hash × Nat) → Except BucketsError (List DeltaMapping)
  | _, changes, [] => .ok changes
  | remaining, changes, (lo, since) :: los =>
    match s.bucketDelta (bucketKey lo prefixBits) (bucketUpper lo prefixBits) since remaining with
    | .error e => .error (.budgetExceeded e.budget)
    | .ok (part, spent) => deltaBuckets s prefixBits (remaining - spent) (changes ++ part) los

/-- The native-domain branch of `buckets_handler`, without streaming: all buckets and the cursor
are read in one transaction, under one budget. -/
def nativeBuckets (s : RepoStore) (budget prefixBits : Nat) (buckets : List String)
    (since : Option (List Nat)) : Except BucketsError BucketsResponse :=
  if since.any (fun l => l.length ≠ buckets.length) then .error .sinceLength
  else
    match parseBuckets buckets with
    | .error e => .error e
    | .ok los =>
      match since with
      | none =>
        match s.snapshotBuckets prefixBits budget ∅ los with
        | .error e => .error e
        | .ok tags => .ok (.snapshot s.mappingCursor tags)
      | some l =>
        match s.deltaBuckets prefixBits budget [] (los.zip l) with
        | .error e => .error e
        | .ok changes => .ok (.delta s.mappingCursor changes)

end RepoStore

end Server
end Naiad
