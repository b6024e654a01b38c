import Naiad.Bridge.Parity
import Naiad.Bridge.TagSets
import Naiad.Lib.Fallible
import Naiad.Lib.Paging
import Naiad.Netproto.Window

/-!
# Naiad.Bridge.SidecarReads

The reads of the sidecar over its stored rows: the band digest, a page of rows at a time, and the
bucket, first at the least its rows can cost and then with the texts of the tags.

* `lookup_defsTagsFor`: the texts of a page's ids, asked for in chunks, are those of the table.
* `audit_paging`: the pages do not show; the digest is that of one pass over the band.
* `bucket_budget`: a bucket fails just when its exact cost is over the budget.
-/

namespace Naiad
namespace Bridge
namespace SidecarReads

open Lib Netproto Server TagSets

/-- The tables that the reads see. -/
structure Sidecar where
  bucketMap : BucketMap
  defsTags : Table Nat String

abbrev Row := Hash × List Byte

/-! ## What both reads share -/

/-- A 33-byte `0xff` sorts after every hash. -/
def hiBlob (hiHex : String) : Option (List Byte) :=
  if hiHex = "g" then some (List.replicate 33 255) else hexDecode hiHex

/-- The bounds of a range, as blobs. -/
def bounds (what loHex : String) (prefixBits : Nat) : Except String (List Byte × List Byte) :=
  match Hash.parse loHex with
  | none => .error ("bad " ++ what ++ " lo-bound " ++ loHex)
  | some lo =>
    match hexDecode (bucketKey lo (min prefixBits 256)),
        hiBlob (bucketUpper lo (min prefixBits 256)) with
    | some loBlob, some hiBlob => .ok (loBlob, hiBlob)
    | _, _ => .error "bad hex"

theorem bounds_of_parse {what loHex : String} {hash : Hash} (h : Hash.parse loHex = some hash)
    (prefixBits : Nat) :
    bounds what loHex prefixBits =
      .ok (loBound (bucketKey hash prefixBits), hiBound (bucketUpper hash prefixBits)) := by
  have hkey : hexDecode (bucketKey hash prefixBits) = some (loBound (bucketKey hash prefixBits)) := by
    rw [bucketKey, Hash.hexDecode_toHex, loBound_toHex]
  have hupper : hiBlob (bucketUpper hash prefixBits) =
      some (hiBound (bucketUpper hash prefixBits)) := by
    rcases bucketUpper_cases hash prefixBits with ⟨hu, _⟩ | ⟨next, hu, _⟩
    · rw [hu, hiBlob, if_pos rfl, hiBound_sentinel]
    · have hne : next.toHex ≠ "g" := by
        intro heq
        have hlen := Hash.toHex_length next
        rw [heq] at hlen
        exact absurd hlen (by decide)
      rw [hu, hiBlob, if_neg hne, Hash.hexDecode_toHex, hiBound_toHex]
  simp only [bounds, h, bucketKey_min, bucketUpper_min, hkey, hupper]

/-- The bounds are those of the bucket that `loHex` is in. -/
theorem bounds_spec {what loHex : String} {prefixBits : Nat} {lo hi : List Byte}
    (h : bounds what loHex prefixBits = .ok (lo, hi)) :
    ∃ hash, Hash.parse loHex = some hash ∧ ∀ other : Hash,
      (lo ≤ other.bytes ∧ other.bytes < hi) ↔
        bucketKey other prefixBits = bucketKey hash prefixBits := by
  cases hparse : Hash.parse loHex with
  | none =>
    rw [bounds, hparse] at h
    cases h
  | some hash =>
    rw [bounds_of_parse hparse] at h
    cases h
    refine ⟨hash, rfl, fun other => ?_⟩
    have hrange := inRange_bucket other hash prefixBits
    rwa [inRange, decide_eq_true_eq] at hrange

def defsLookupChunk : Nat := 900

/-- `SELECT service_tag_id, tag FROM defs_tags WHERE service_tag_id IN (..)` -/
def selectDefs (defs : Table Nat String) (chunk : List Nat) : List (Nat × String) :=
  (defs.entries.filter fun e => e.1 ∈ chunk).map fun e => (e.1, e.2)

def defsTagsFor (defs : Table Nat String) (ids : List Nat) : Table Nat String :=
  (chunksFrom defsLookupChunk [] ids).foldl
    (fun map chunk => (selectDefs defs chunk).foldl (fun map row => map.insert row.1 row.2) map) ∅

/-- The ids of one row. -/
def unpackRow (row : Row) : Except String (Hash × List Nat) :=
  match unpackTagIds row.2 with
  | .ok ids => .ok (row.1, ids)
  | .error e => .error ("unpacking bucket_map row " ++ row.1.toHex ++ ": " ++ e)

def tagOf (tags : Table Nat String) (id : Nat) : Except String String :=
  match tags.lookup id with
  | some tag => .ok tag
  | none => .error s!"bucket_map id {id} missing from defs_tags"

/-- The ids that the rows of a page need, sorted without duplicates. -/
def need (rows : List (Hash × List Nat)) : List Nat := sortDedup (rows.flatMap Prod.snd)

theorem lookup_selectDefs (defs t : Table Nat String) (chunk : List Nat) (id : Nat) :
    ((selectDefs defs chunk).foldl (fun map row => map.insert row.1 row.2) t).lookup id =
      if id ∈ chunk then (defs.lookup id).or (t.lookup id) else t.lookup id := by
  rw [Table.lookup_foldl_insert]
  have hmem : ∀ tag, (id, tag) ∈ selectDefs defs chunk ↔ defs.lookup id = some tag ∧ id ∈ chunk := by
    intro tag
    rw [← Table.mem_entries]
    simp only [selectDefs, List.mem_map, List.mem_filter, decide_eq_true_eq]
    constructor
    · rintro ⟨e, ⟨he, hid⟩, heq⟩
      cases heq
      exact ⟨he, hid⟩
    · rintro ⟨he, hid⟩
      exact ⟨_, ⟨he, hid⟩, rfl⟩
  cases hlast : (((selectDefs defs chunk).filter (·.1 = id)).map Prod.snd).getLast? with
  | some tag =>
    obtain ⟨row, hrow, rfl⟩ := List.mem_map.1 (List.mem_of_getLast? hlast)
    obtain ⟨hselected, hid⟩ := List.mem_filter.1 hrow
    cases of_decide_eq_true hid
    obtain ⟨hdef, hin⟩ := (hmem row.2).1 hselected
    simp [hdef, hin]
  | none =>
    have hnot : ∀ tag, (id, tag) ∉ selectDefs defs chunk := by
      intro tag hrow
      rw [List.getLast?_eq_none_iff, List.map_eq_nil_iff, List.filter_eq_nil_iff] at hlast
      exact absurd (hlast _ hrow) (by simp)
    split
    · rename_i hin
      cases hdef : defs.lookup id with
      | none => simp
      | some tag => exact absurd ((hmem tag).2 ⟨hdef, hin⟩) (hnot tag)
    · simp

/-- Every id asked for gets its text, whatever chunk it is in. -/
theorem lookup_defsTagsFor (defs : Table Nat String) (ids : List Nat) (id : Nat) :
    (defsTagsFor defs ids).lookup id = if id ∈ ids then defs.lookup id else none := by
  have hchunks : ∀ (chunks : List (List Nat)) (t : Table Nat String),
      (t.lookup id = none ∨ t.lookup id = defs.lookup id) →
      (chunks.foldl (fun map chunk =>
        (selectDefs defs chunk).foldl (fun map row => map.insert row.1 row.2) map) t).lookup id =
        if id ∈ chunks.flatten then defs.lookup id else t.lookup id := by
    intro chunks
    induction chunks with
    | nil => simp
    | cons chunk chunks ih =>
      intro t ht
      have hone := lookup_selectDefs defs t chunk id
      have hor : (defs.lookup id).or (t.lookup id) = defs.lookup id := by
        rcases ht with ht | ht
        · simp [ht]
        · simp [ht]
      rw [hor] at hone
      rw [List.foldl_cons, ih]
      · rw [hone, List.flatten_cons]
        by_cases hin : id ∈ chunk
        · simp [hin]
        · simp [hin]
      · rw [hone]
        split
        · exact .inr rfl
        · exact ht
  rw [defsTagsFor, hchunks _ _ (.inl rfl), chunksFrom_flatten]
  simp

/-- The texts of ids that were asked for. -/
theorem mapM_tagOf {defs : Table Nat String} {asked ids : List Nat} (h : ids ⊆ asked) :
    ids.mapM (tagOf (defsTagsFor defs asked)) = ids.mapM (tagOf defs) := by
  induction ids with
  | nil => rfl
  | cons id ids ih =>
    have hid : tagOf (defsTagsFor defs asked) id = tagOf defs id := by
      rw [tagOf, tagOf, lookup_defsTagsFor, if_pos (h (by simp))]
    rw [List.mapM_cons, List.mapM_cons, hid, ih fun x hx => h (List.mem_cons_of_mem _ hx)]

/-! ## The band digest -/

/-- The digest so far, and the hashes it has taken in. -/
structure Audit where
  digest : PairDigest
  hashesDone : List Hash

def digestHash (tags : Table Nat String) (a : Audit) (row : Hash × List Nat) :
    Except String Audit := do
  let ts ← row.2.mapM (tagOf tags)
  return ⟨a.digest.updateAll ((sortDedup ts).map fun t => (row.1, t)), a.hashesDone ++ [row.1]⟩

/-- `hash >= ?1`, or `hash > ?1` past the first page, `AND hash < ?2 ORDER BY hash`. -/
def bandFrom (m : BucketMap) (pageLo : List Byte) (inclusive : Bool) (hi : List Byte) : List Row :=
  orderBy Prod.fst ((m.entries.map fun e => (e.1, e.2)).filter fun r =>
    (if inclusive then pageLo ≤ r.1.bytes else pageLo < r.1.bytes) ∧ r.1.bytes < hi)

section

variable {m : BucketMap} {pageLo hi : List Byte} {inclusive : Bool}

theorem mem_bandFrom {r : Row} :
    r ∈ bandFrom m pageLo inclusive hi ↔ m.lookup r.1 = some r.2 ∧
      (if inclusive then pageLo ≤ r.1.bytes else pageLo < r.1.bytes) ∧ r.1.bytes < hi := by
  rw [bandFrom, mem_orderBy, List.mem_filter, ← Table.mem_entries]
  simp only [List.mem_map, decide_eq_true_eq]
  constructor
  · rintro ⟨⟨e, he, rfl⟩, hrange⟩
    exact ⟨he, hrange⟩
  · rintro ⟨he, hrange⟩
    exact ⟨⟨⟨r.1, r.2⟩, he, rfl⟩, hrange⟩

theorem bandFrom_strict : (bandFrom m pageLo inclusive hi).Pairwise fun a b => a.1 < b.1 := by
  have hkeys : ((m.entries.map fun e => (e.1, e.2)).map Prod.fst).Nodup := by
    have hnodup := m.nodupKeys
    rw [List.NodupKeys, List.keys] at hnodup
    simpa [Function.comp_def] using hnodup
  have hsub := List.filter_sublist
    (p := fun r : Row => decide ((if inclusive then pageLo ≤ r.1.bytes else pageLo < r.1.bytes) ∧
      r.1.bytes < hi)) (l := m.entries.map fun e => (e.1, e.2))
  exact List.pairwise_map.1 (orderBy_strict (hkeys.sublist (hsub.map Prod.fst)))

/-- The rows past a page. -/
theorem bandFrom_past {n : Nat} {last : Row}
    (hlast : ((bandFrom m pageLo inclusive hi).take n).getLast? = some last) :
    bandFrom m last.1.bytes false hi = (bandFrom m pageLo inclusive hi).drop n := by
  have hmem := mem_bandFrom.1 (List.mem_of_mem_take (List.mem_of_getLast? hlast))
  have hlo : pageLo ≤ last.1.bytes := by
    have hrange := hmem.2.1
    split at hrange
    · exact hrange
    · exact le_of_lt hrange
  rw [← filter_past_last bandFrom_strict hlast, bandFrom, bandFrom, filter_orderBy,
    List.filter_filter]
  congr 1
  apply List.filter_congr
  intro r _
  rw [Bool.eq_iff_iff]
  simp only [Bool.false_eq_true, if_false, decide_eq_true_eq, Bool.and_eq_true, Hash.lt_def]
  constructor
  · rintro ⟨hlt, hhi⟩
    refine ⟨hlt, ?_, hhi⟩
    split
    · exact hlo.trans (le_of_lt hlt)
    · exact lt_of_le_of_lt hlo hlt
  · rintro ⟨hlt, _, hhi⟩
    exact ⟨hlt, hhi⟩

end

/-- The pages from `pageLo` on. -/
def auditPages (sc : Sidecar) (limit : Nat) (hi pageLo : List Byte) (inclusive : Bool) (a : Audit) :
    Except String Audit :=
  let batch := (bandFrom sc.bucketMap pageLo inclusive hi).take limit
  match batch.mapM unpackRow with
  | .error e => .error e
  | .ok rows =>
    match _hlast : batch.getLast? with
    | none => .ok a
    | some last =>
      match rows.foldlM (digestHash (defsTagsFor sc.defsTags (need rows))) a with
      | .error e => .error e
      | .ok a =>
        if batch.length < limit then .ok a
        else auditPages sc limit hi last.1.bytes false a
termination_by (bandFrom sc.bucketMap pageLo inclusive hi).length
decreasing_by
  rw [bandFrom_past _hlast, List.length_drop]
  have hne := List.ne_nil_of_mem (List.mem_of_getLast? _hlast)
  have hpos : 0 < ((bandFrom sc.bucketMap pageLo inclusive hi).take limit).length :=
    List.length_pos_iff.2 hne
  rw [List.length_take] at hpos
  omega

/-- `audit_band_digest`, with the size of its pages. -/
def auditBand (sc : Sidecar) (limit : Nat) (loHex : String) (prefixBits : Nat) :
    Except String Audit :=
  match bounds "band" loHex prefixBits with
  | .error e => .error e
  | .ok (loBlob, hiBlob) => auditPages sc limit hiBlob loBlob true ⟨.new, []⟩

def auditBandDigest (blake3 : List Byte → Hash) (sc : Sidecar) (limit : Nat) (loHex : String)
    (prefixBits : Nat) : Except String (Nat × Hash) :=
  (auditBand sc limit loHex prefixBits).map fun a => a.digest.finalize blake3

/-- One pass over the band, a row at a time. -/
def auditRow (defs : Table Nat String) (a : Audit) (row : Row) : Except String Audit := do
  let r ← unpackRow row
  digestHash defs a r

def auditOnce (sc : Sidecar) (loHex : String) (prefixBits : Nat) : Except String Audit :=
  match bounds "band" loHex prefixBits with
  | .error e => .error e
  | .ok (loBlob, hiBlob) =>
    (bandFrom sc.bucketMap loBlob true hiBlob).foldlM (auditRow sc.defsTags) ⟨.new, []⟩

/-! ## The pages do not show -/

/-- The texts asked for with the ids of a page serve every row of it. -/
theorem foldlM_digestHash {defs : Table Nat String} {asked : List Nat}
    {rows : List (Hash × List Nat)} (h : ∀ row ∈ rows, row.2 ⊆ asked) (a : Audit) :
    rows.foldlM (digestHash (defsTagsFor defs asked)) a = rows.foldlM (digestHash defs) a := by
  induction rows generalizing a with
  | nil => rfl
  | cons row rows ih =>
    have hrow : digestHash (defsTagsFor defs asked) a row = digestHash defs a row := by
      rw [digestHash, digestHash, mapM_tagOf (h row (by simp))]
    rw [List.foldlM_cons, List.foldlM_cons, hrow]
    congr 1
    funext a
    exact ih (fun row hrow => h row (List.mem_cons_of_mem _ hrow)) a

theorem subset_need {rows : List (Hash × List Nat)} : ∀ row ∈ rows, row.2 ⊆ need rows :=
  fun _ hrow _ hid => mem_sortDedup.2 (List.mem_flatMap.2 ⟨_, hrow, hid⟩)

/-- A batch is unpacked and then digested, or a row at a time. -/
theorem foldlM_auditRow {defs : Table Nat String} {batch : List Row} {a a' : Audit} :
    batch.foldlM (auditRow defs) a = .ok a' ↔
      ∃ rows, batch.mapM unpackRow = .ok rows ∧ rows.foldlM (digestHash defs) a = .ok a' := by
  induction batch generalizing a with
  | nil => simp [pure, Except.pure]
  | cons row batch ih =>
    rw [List.foldlM_cons, List.mapM_cons, auditRow]
    cases hrow : unpackRow row with
    | error e => simp [bind, Except.bind]
    | ok r =>
      cases hone : digestHash defs a r with
      | error e =>
        cases hrest : batch.mapM unpackRow with
        | error e' => simp [bind, Except.bind, hone]
        | ok rest => simp [bind, Except.bind, hone, pure, Except.pure]
      | ok a₁ =>
        have hih := ih (a := a₁)
        cases hrest : batch.mapM unpackRow with
        | error e' =>
          rw [hrest] at hih
          simpa [bind, Except.bind, hone] using hih
        | ok rest =>
          rw [hrest] at hih
          simpa [bind, Except.bind, hone, pure, Except.pure] using hih

/-- From any page on, the pages digest what is left of the band. -/
theorem auditPages_eq_ok {sc : Sidecar} {limit : Nat} (hlimit : 1 ≤ limit) {hi pageLo : List Byte}
    {inclusive : Bool} {a a' : Audit} :
    auditPages sc limit hi pageLo inclusive a = .ok a' ↔
      (bandFrom sc.bucketMap pageLo inclusive hi).foldlM (auditRow sc.defsTags) a = .ok a' := by
  -- The induction is on the number of rows that are left.
  induction hn : (bandFrom sc.bucketMap pageLo inclusive hi).length using Nat.strongRecOn
    generalizing pageLo inclusive a with
  | ind n ih =>
    have hsplit : ∀ l : List Row, l.foldlM (auditRow sc.defsTags) a = .ok a' ↔
        ∃ mid, (l.take limit).foldlM (auditRow sc.defsTags) a = .ok mid ∧
          (l.drop limit).foldlM (auditRow sc.defsTags) mid = .ok a' := by
      intro l
      conv_lhs => rw [← List.take_append_drop limit l, List.foldlM_append]
      exact bind_eq_ok
    rw [hsplit, auditPages]
    generalize hbatch : (bandFrom sc.bucketMap pageLo inclusive hi).take limit = batch
    split
    · rename_i e he
      constructor
      · intro h
        cases h
      · rintro ⟨mid, hmid, _⟩
        obtain ⟨rows, hrows, _⟩ := foldlM_auditRow.1 hmid
        rw [he] at hrows
        cases hrows
    · rename_i rows hrows
      -- What the page adds is what its rows add one by one.
      have hpage : ∀ mid, batch.foldlM (auditRow sc.defsTags) a = .ok mid ↔
          rows.foldlM (digestHash (defsTagsFor sc.defsTags (need rows))) a = .ok mid := by
        intro mid
        rw [foldlM_auditRow, foldlM_digestHash subset_need]
        simp [hrows]
      split
      · rename_i hnone
        have hnil := List.getLast?_eq_none_iff.1 hnone
        have hband : bandFrom sc.bucketMap pageLo inclusive hi = [] := by
          rw [hnil, List.take_eq_nil_iff] at hbatch
          exact hbatch.resolve_left (by omega)
        simp [hnil, hband, pure, Except.pure]
      · rename_i last hlast
        split
        · rename_i e he
          constructor
          · intro h
            cases h
          · rintro ⟨mid, hmid, _⟩
            rw [hpage, he] at hmid
            cases hmid
        · rename_i mid hmid
          have hpast := bandFrom_past (hbatch ▸ hlast)
          have hmid' := (hpage mid).2 hmid
          split
          · rename_i hshort
            have hrest : (bandFrom sc.bucketMap pageLo inclusive hi).drop limit = [] := by
              rw [← hbatch, List.length_take] at hshort
              exact List.drop_eq_nil_iff.2 (by omega)
            simp [hmid', hrest, pure, Except.pure]
          · rename_i hfull
            have hlen : (bandFrom sc.bucketMap last.1.bytes false hi).length < n := by
              rw [hpast, List.length_drop, ← hn]
              rw [← hbatch, List.length_take] at hfull
              omega
            rw [ih _ hlen rfl, hpast]
            simp [hmid']

theorem hashesDone_foldl {defs : Table Nat String} {rows : List Row} {a a' : Audit}
    (h : rows.foldlM (auditRow defs) a = .ok a') :
    a'.hashesDone = a.hashesDone ++ rows.map Prod.fst := by
  induction rows generalizing a with
  | nil =>
    cases h
    simp
  | cons row rows ih =>
    rw [List.foldlM_cons] at h
    obtain ⟨mid, hmid, hrest⟩ := bind_eq_ok.1 h
    obtain ⟨r, hr, hdigest⟩ := bind_eq_ok.1 hmid
    obtain ⟨ts, _, hts⟩ := bind_eq_ok.1 hdigest
    cases pure_eq_ok.1 hts
    have hfst : r.1 = row.1 := by
      unfold unpackRow at hr
      split at hr
      · cases hr
        rfl
      · cases hr
    rw [ih hrest, hfst]
    simp

/-- **Paging is invisible.** For every page size the digest is that of one pass over the band, and
the hashes taken in are those of the band, each once and in order. -/
theorem audit_paging (sc : Sidecar) (limit : Nat) (hlimit : 1 ≤ limit) (loHex : String)
    (prefixBits : Nat) :
    (∀ a, auditBand sc limit loHex prefixBits = .ok a ↔ auditOnce sc loHex prefixBits = .ok a) ∧
    (∀ (blake3 : List Byte → Hash) (d : Nat × Hash),
      auditBandDigest blake3 sc limit loHex prefixBits = .ok d ↔
        (auditOnce sc loHex prefixBits).map (fun a => a.digest.finalize blake3) = .ok d) ∧
    ∀ a, auditBand sc limit loHex prefixBits = .ok a →
      a.hashesDone.Pairwise (· < ·) ∧
      ∃ lo, Hash.parse loHex = some lo ∧
        ∀ h, h ∈ a.hashesDone ↔
          (sc.bucketMap.lookup h).isSome ∧ bucketKey h prefixBits = bucketKey lo prefixBits := by
  have hsame : ∀ a, auditBand sc limit loHex prefixBits = .ok a ↔
      auditOnce sc loHex prefixBits = .ok a := by
    intro a
    unfold auditBand auditOnce
    cases bounds "band" loHex prefixBits with
    | error e => rfl
    | ok b => exact auditPages_eq_ok hlimit
  refine ⟨hsame, fun blake3 d => ?_, fun a ha => ?_⟩
  · simp only [auditBandDigest, map_eq_ok_iff, hsame]
  · have honce := (hsame a).1 ha
    unfold auditOnce at honce
    cases hbounds : bounds "band" loHex prefixBits with
    | error e =>
      rw [hbounds] at honce
      cases honce
    | ok b =>
      obtain ⟨lo, hi⟩ := b
      rw [hbounds] at honce
      have hdone := hashesDone_foldl honce
      rw [List.nil_append] at hdone
      obtain ⟨hash, hparse, hrange⟩ := bounds_spec hbounds
      refine ⟨?_, hash, hparse, fun h => ?_⟩
      · rw [hdone, List.pairwise_map]
        exact bandFrom_strict
      · rw [hdone, ← hrange h]
        simp only [List.mem_map, mem_bandFrom, if_true]
        constructor
        · rintro ⟨row, ⟨hl, hin⟩, rfl⟩
          exact ⟨by simp [hl], hin⟩
        · rintro ⟨hl, hin⟩
          obtain ⟨blob, hl⟩ := Option.isSome_iff_exists.1 hl
          exact ⟨(h, blob), ⟨hl, hin⟩, rfl⟩

/-- Two hashes with one tag each. -/
def twoHashes : Sidecar where
  bucketMap := (writeTagSet (writeTagSet ∅ (.fill 1) [7]) (.fill 2) [7])
  defsTags := (∅ : Table Nat String).insert 7 "samus"

theorem audit_paging_onePerPage :
    ∃ a, auditBand twoHashes 1 (Hash.fill 0).toHex 0 = .ok a ∧
      auditOnce twoHashes (Hash.fill 0).toHex 0 = .ok a ∧ a.hashesDone = [.fill 1, .fill 2] := by
  have hdone : (auditOnce twoHashes (Hash.fill 0).toHex 0).toOption.map (·.hashesDone) =
      some [.fill 1, .fill 2] := by decide +kernel
  cases h : auditOnce twoHashes (Hash.fill 0).toHex 0 with
  | error e =>
    rw [h] at hdone
    cases hdone
  | ok a =>
    rw [h] at hdone
    have hpaged := ((audit_paging twoHashes 1 (Nat.le_refl 1) (Hash.fill 0).toHex 0).1 a).2 h
    exact ⟨a, hpaged, rfl, Option.some.inj hdone⟩

/-! ## The bucket -/

inductive BucketError
  | other (message : String)
  | budgetExceeded (budget : Nat)

/-- Costs added up as machine words, until they are over the budget. -/
def charge (budget : Nat) : Nat → List Nat → Option Nat
  | spent, [] => some spent
  | spent, cost :: costs =>
    if budget < min (spent + cost) usizeMax then none
    else charge budget (min (spent + cost) usizeMax) costs

/-- The first pass: each row is unpacked, and charged the least that its ids can cost. -/
def floorPass (budget : Nat) : Nat → List Row → Except BucketError (List (Hash × List Nat))
  | _, [] => .ok []
  | spent, row :: rows =>
    match unpackRow row with
    | .error e => .error (.other e)
    | .ok r =>
      match charge budget spent (r.2.map fun _ => approxRowCost (byteLen r.1.toHex) 1) with
      | none => .error (.budgetExceeded budget)
      | some spent => (floorPass budget spent rows).map (r :: ·)

/-- The second pass: each id is charged with its text. -/
def trueUp (tags : Table Nat String) (budget : Nat) :
    Nat → List (Hash × Nat) → Except BucketError (List (Hash × String) × Nat)
  | spent, [] => .ok ([], spent)
  | spent, (h, id) :: ids =>
    match tagOf tags id with
    | .error e => .error (.other e)
    | .ok tag =>
      match charge budget spent [approxRowCost (byteLen h.toHex) (byteLen tag)] with
      | none => .error (.budgetExceeded budget)
      | some spent => (trueUp tags budget spent ids).map fun p => ((h, tag) :: p.1, p.2)

def rowIds (rows : List (Hash × List Nat)) : List (Hash × Nat) :=
  rows.flatMap fun r => r.2.map fun id => (r.1, id)

def bucket (sc : Sidecar) (loHex : String) (prefixBits budget : Nat) :
    Except BucketError (Table Hash (List String) × Nat) :=
  match bounds "bucket" loHex prefixBits with
  | .error e => .error (.other e)
  | .ok (loBlob, hiBlob) =>
    match floorPass budget 0 (bandFrom sc.bucketMap loBlob true hiBlob) with
    | .error e => .error e
    | .ok rows =>
      match trueUp (defsTagsFor sc.defsTags (need rows)) budget 0 (rowIds rows) with
      | .error e => .error e
      | .ok (pairs, spent) => .ok (groupSorted pairs, spent)

theorem charge_eq_some {budget spent total : Nat} {costs : List Nat} (h : spent ≤ usizeMax) :
    charge budget spent costs = some total ↔
      total = min (spent + costs.sum) usizeMax ∧ (costs = [] ∨ total ≤ budget) := by
  induction costs generalizing spent with
  | nil =>
    simp only [charge, List.sum_nil, Nat.add_zero, Nat.min_eq_left h]
    simp [eq_comm]
  | cons cost costs ih =>
    have hsum : min (min (spent + cost) usizeMax + costs.sum) usizeMax =
        min (spent + (cost + costs.sum)) usizeMax := by omega
    rw [charge, List.sum_cons]
    split
    · rename_i hover
      constructor
      · intro h
        cases h
      · rintro ⟨rfl, hnil | hle⟩
        · cases hnil
        · omega
    · rename_i hfits
      rw [ih (Nat.min_le_right _ _), hsum]
      refine and_congr_right fun htotal => ⟨fun hcase => .inr ?_, fun hcase => .inr ?_⟩
      · rcases hcase with hnil | hle
        · rw [hnil, List.sum_nil] at htotal
          omega
        · exact hle
      · exact hcase.resolve_left (by simp)

theorem charge_eq_none {budget spent : Nat} {costs : List Nat} (h : spent ≤ usizeMax) :
    charge budget spent costs = none ↔
      costs ≠ [] ∧ budget < min (spent + costs.sum) usizeMax := by
  have hsome := @charge_eq_some budget spent (min (spent + costs.sum) usizeMax) costs h
  cases hcharge : charge budget spent costs with
  | none =>
    rw [hcharge] at hsome
    simp only [reduceCtorEq, true_and, false_iff, not_or, Nat.not_le] at hsome
    simpa using hsome
  | some total =>
    obtain ⟨htotal, hcase⟩ := (charge_eq_some h).1 hcharge
    simp only [reduceCtorEq, false_iff, not_and, Nat.not_lt]
    intro hne
    rw [← htotal]
    exact hcase.resolve_left hne

theorem charge_append {budget : Nat} (xs ys : List Nat) (spent : Nat) :
    charge budget spent (xs ++ ys) = (charge budget spent xs).bind fun s => charge budget s ys := by
  induction xs generalizing spent with
  | nil => rfl
  | cons x xs ih =>
    rw [List.cons_append, charge, charge]
    split
    · rfl
    · exact ih _

/-- The ids of a blob, where it decodes. -/
def idsOf (blob : List Byte) : List Nat :=
  match unpackTagIds blob with
  | .ok ids => ids
  | .error _ => []

def textOf (defs : Table Nat String) (id : Nat) : String := (defs.lookup id).getD ""

/-- Every blob decodes, and every id of it has a text that is not empty. -/
def Resolves (sc : Sidecar) : Prop :=
  ∀ h blob, sc.bucketMap.lookup h = some blob → unpackTagIds blob = .ok (idsOf blob) ∧
    ∀ id ∈ idsOf blob, ∃ tag, sc.defsTags.lookup id = some tag ∧ tag ≠ ""

/-- What a bucket costs in full. -/
def exactCost (sc : Sidecar) (lo : Hash) (prefixBits : Nat) : Nat :=
  ((sc.bucketMap.entries.filter fun e => bucketKey e.1 prefixBits = bucketKey lo prefixBits).map
    fun e => ((idsOf e.2).map fun id => approxRowCost 64 (byteLen (textOf sc.defsTags id))).sum).sum

section

variable {defs : Table Nat String} {budget spent : Nat}

theorem floorPass_eq {rows : List Row} (h : ∀ r ∈ rows, unpackTagIds r.2 = .ok (idsOf r.2)) :
    floorPass budget spent rows =
      match charge budget spent ((rows.flatMap fun r => idsOf r.2).map fun _ => approxRowCost 64 1)
      with
      | none => .error (.budgetExceeded budget)
      | some _ => .ok (rows.map fun r => (r.1, idsOf r.2)) := by
  induction rows generalizing spent with
  | nil => rfl
  | cons row rows ih =>
    have hrow : unpackRow row = .ok (row.1, idsOf row.2) := by
      rw [unpackRow, h row (by simp)]
    rw [floorPass, hrow, List.flatMap_cons, List.map_append, charge_append]
    simp only [byteLen_toHex]
    cases charge budget spent ((idsOf row.2).map fun _ => approxRowCost 64 1) with
    | none => rfl
    | some s =>
      simp only [Option.bind_some]
      rw [ih fun r hr => h r (List.mem_cons_of_mem _ hr)]
      cases charge budget s ((rows.flatMap fun r => idsOf r.2).map fun _ => approxRowCost 64 1) with
      | none => rfl
      | some _ => rfl

theorem trueUp_eq {tags : Table Nat String} {ids : List (Hash × Nat)}
    (h : ∀ p ∈ ids, tags.lookup p.2 = some (textOf defs p.2)) :
    trueUp tags budget spent ids =
      match charge budget spent (ids.map fun p => approxRowCost 64 (byteLen (textOf defs p.2))) with
      | none => .error (.budgetExceeded budget)
      | some total => .ok (ids.map fun p => (p.1, textOf defs p.2), total) := by
  induction ids generalizing spent with
  | nil => rfl
  | cons p ids ih =>
    obtain ⟨hash, id⟩ := p
    have htag : tagOf tags id = .ok (textOf defs id) := by
      rw [tagOf, h (hash, id) (by simp)]
    rw [trueUp, htag, List.map_cons, ← List.singleton_append, charge_append]
    simp only [byteLen_toHex]
    cases charge budget spent [approxRowCost 64 (byteLen (textOf defs id))] with
    | none => rfl
    | some s =>
      simp only [Option.bind_some]
      rw [ih fun q hq => h q (List.mem_cons_of_mem _ hq)]
      cases charge budget s (ids.map fun p => approxRowCost 64 (byteLen (textOf defs p.2))) with
      | none => rfl
      | some _ => rfl

end

theorem byteLen_pos {s : String} (h : s ≠ "") : 1 ≤ byteLen s := by
  have hne : s.toList ≠ [] := by
    intro hnil
    exact h (String.toList_eq_nil_iff.1 hnil)
  obtain ⟨c, cs, hcs⟩ := List.exists_cons_of_ne_nil hne
  have hpos := c.utf8Size_pos
  rw [byteLen, hcs]
  simp
  omega

theorem lookup_groupSorted {pairs : List (Hash × String)} {h : Hash} {tags : List String} :
    (groupSorted pairs).lookup h = some tags ↔
      (∃ tag, (h, tag) ∈ pairs) ∧ tags.Pairwise (· < ·) ∧ ∀ tag, tag ∈ tags ↔ (h, tag) ∈ pairs := by
  rw [groupSorted, Table.lookup_modify]
  have hgroup := Table.lookup_groupOnto (∅ : Table Hash (List String)) pairs h
  rw [AList.lookup_empty, Option.getD_none, List.nil_append] at hgroup
  have hmem : ∀ tag, tag ∈ (pairs.filter (·.1 = h)).map Prod.snd ↔ (h, tag) ∈ pairs := by
    intro tag
    simp only [List.mem_map, List.mem_filter, decide_eq_true_eq]
    constructor
    · rintro ⟨p, ⟨hp, rfl⟩, rfl⟩
      exact hp
    · intro hp
      exact ⟨_, ⟨hp, rfl⟩, rfl⟩
  cases hl : (Table.groupOnto ∅ pairs).lookup h with
  | none =>
    rw [hl, Option.getD_none] at hgroup
    simp only [Option.map_none, reduceCtorEq, false_iff]
    rintro ⟨⟨tag, htag⟩, _⟩
    rw [← hmem, ← hgroup] at htag
    cases htag
  | some ts =>
    rw [hl, Option.getD_some] at hgroup
    have hne := Table.groupOnto_ne_nil hl
    subst hgroup
    simp only [Option.map_some, Option.some.injEq]
    constructor
    · rintro rfl
      obtain ⟨tag, htag⟩ := List.exists_mem_of_ne_nil _ hne
      exact ⟨⟨tag, (hmem tag).1 htag⟩, sortDedup_strict _, fun tag => by
        rw [mem_sortDedup, hmem]⟩
    · rintro ⟨_, hsorted, htags⟩
      apply strict_ext (sortDedup_strict _) hsorted
      intro tag
      rw [mem_sortDedup, hmem, htags]

section

variable {sc : Sidecar} {lo hi : List Byte} {hash : Hash} {prefixBits : Nat}

/-- The ids of the band with their hashes, in the order of the hashes. -/
def bandIds (sc : Sidecar) (lo hi : List Byte) : List (Hash × Nat) :=
  (bandFrom sc.bucketMap lo true hi).flatMap fun r => (idsOf r.2).map fun id => (r.1, id)

theorem mem_bandIds {h : Hash} {id : Nat}
    (hrange : ∀ other : Hash, (lo ≤ other.bytes ∧ other.bytes < hi) ↔
      bucketKey other prefixBits = bucketKey hash prefixBits) :
    (h, id) ∈ bandIds sc lo hi ↔ bucketKey h prefixBits = bucketKey hash prefixBits ∧
      id ∈ (sc.bucketMap.lookup h).elim [] idsOf := by
  simp only [bandIds, List.mem_flatMap, List.mem_map, Prod.mk.injEq]
  constructor
  · rintro ⟨r, hr, id', hid, rfl, rfl⟩
    obtain ⟨hl, hin⟩ := mem_bandFrom.1 hr
    rw [if_pos rfl] at hin
    rw [hl]
    exact ⟨(hrange r.1).1 hin, hid⟩
  · rintro ⟨hin, hid⟩
    cases hl : sc.bucketMap.lookup h with
    | none =>
      rw [hl] at hid
      cases hid
    | some blob =>
      rw [hl] at hid
      have hr : (h, blob) ∈ bandFrom sc.bucketMap lo true hi := by
        rw [mem_bandFrom, if_pos rfl]
        exact ⟨hl, (hrange h).2 hin⟩
      exact ⟨(h, blob), hr, id, hid, rfl, rfl⟩

theorem Resolves.readTagSet (hres : Resolves sc) (h : Hash) :
    TagSets.readTagSet sc.bucketMap h = .ok ((sc.bucketMap.lookup h).elim [] idsOf) := by
  unfold TagSets.readTagSet
  cases hl : sc.bucketMap.lookup h with
  | none => rfl
  | some blob =>
    simp only [Option.elim_some]
    rw [(hres h blob hl).1]
    rfl

theorem Resolves.lookup_defs (hres : Resolves sc) {h : Hash} {id : Nat}
    (hid : id ∈ (sc.bucketMap.lookup h).elim [] idsOf) :
    sc.defsTags.lookup id = some (textOf sc.defsTags id) := by
  cases hl : sc.bucketMap.lookup h with
  | none =>
    rw [hl] at hid
    cases hid
  | some blob =>
    rw [hl] at hid
    obtain ⟨tag, htag, _⟩ := (hres h blob hl).2 id hid
    rw [textOf, htag, Option.getD_some]

/-- The exact cost is that of the band's ids, in whatever order. -/
theorem sum_bandIds
    (hrange : ∀ other : Hash, (lo ≤ other.bytes ∧ other.bytes < hi) ↔
      bucketKey other prefixBits = bucketKey hash prefixBits) :
    ((bandIds sc lo hi).map fun p => approxRowCost 64 (byteLen (textOf sc.defsTags p.2))).sum =
      exactCost sc hash prefixBits := by
  let f : Row → Nat := fun r =>
    ((idsOf r.2).map fun id => approxRowCost 64 (byteLen (textOf sc.defsTags id))).sum
  have hrows : ∀ rows : List Row,
      ((rows.flatMap fun r => (idsOf r.2).map fun id => (r.1, id)).map fun p =>
        approxRowCost 64 (byteLen (textOf sc.defsTags p.2))).sum = (rows.map f).sum := by
    intro rows
    induction rows with
    | nil => rfl
    | cons r rows ih =>
      rw [List.flatMap_cons, List.map_append, List.sum_append, ih, List.map_cons, List.sum_cons]
      simp [f, Function.comp_def]
  rw [bandIds, hrows, bandFrom, ((perm_orderBy _ _).map f).sum_eq, List.filter_map, List.map_map,
    exactCost]
  have hfilter : sc.bucketMap.entries.filter ((fun r : Row => decide
      ((if true = true then lo ≤ r.1.bytes else lo < r.1.bytes) ∧ r.1.bytes < hi)) ∘
        fun e => (e.1, e.2)) =
      sc.bucketMap.entries.filter fun e =>
        bucketKey e.1 prefixBits = bucketKey hash prefixBits := by
    apply List.filter_congr
    intro e _
    simp [hrange]
  rw [hfilter]
  rfl

/-- The first pass charges no more than the second. -/
theorem sum_floor_le (hres : Resolves sc) :
    ((bandIds sc lo hi).map fun _ => approxRowCost 64 1).sum ≤
      ((bandIds sc lo hi).map fun p => approxRowCost 64 (byteLen (textOf sc.defsTags p.2))).sum := by
  apply List.sum_le_sum
  rintro ⟨h, id⟩ hp
  simp only [bandIds, List.mem_flatMap, List.mem_map, Prod.mk.injEq] at hp
  obtain ⟨r, hr, id', hid, rfl, rfl⟩ := hp
  obtain ⟨tag, htag, hne⟩ := (hres _ _ (mem_bandFrom.1 hr).1).2 id' hid
  have hpos := byteLen_pos hne
  simp only [textOf, htag, Option.getD_some, approxRowCost]
  omega

/-- Both passes as charges of the band's ids. -/
theorem bucket_eq (hres : Resolves sc) {loHex : String}
    (hbounds : bounds "bucket" loHex prefixBits = .ok (lo, hi)) (budget : Nat) :
    bucket sc loHex prefixBits budget =
      match charge budget 0 ((bandIds sc lo hi).map fun _ => approxRowCost 64 1),
        charge budget 0 ((bandIds sc lo hi).map fun p =>
          approxRowCost 64 (byteLen (textOf sc.defsTags p.2))) with
      | some _, some total =>
        .ok (groupSorted ((bandIds sc lo hi).map fun p => (p.1, textOf sc.defsTags p.2)), total)
      | _, _ => .error (.budgetExceeded budget) := by
  let band := bandFrom sc.bucketMap lo true hi
  let rows := band.map fun r => (r.1, idsOf r.2)
  have hband : ∀ r ∈ band, unpackTagIds r.2 = .ok (idsOf r.2) :=
    fun r hr => (hres _ _ (mem_bandFrom.1 hr).1).1
  have hids : rowIds rows = bandIds sc lo hi := by
    simp [rowIds, rows, band, bandIds, List.flatMap_map]
  have hfloor : ((band.flatMap fun r => idsOf r.2).map fun _ => approxRowCost 64 1) =
      (bandIds sc lo hi).map fun _ => approxRowCost 64 1 := by
    simp [bandIds, band, List.map_flatMap, Function.comp_def]
  have htags : ∀ p ∈ rowIds rows,
      (defsTagsFor sc.defsTags (need rows)).lookup p.2 = some (textOf sc.defsTags p.2) := by
    intro p hp
    obtain ⟨row, hrow, hp⟩ := List.mem_flatMap.1 hp
    obtain ⟨id, hid, rfl⟩ := List.mem_map.1 hp
    obtain ⟨r, hr, rfl⟩ := List.mem_map.1 hrow
    obtain ⟨tag, htag, _⟩ := (hres _ _ (mem_bandFrom.1 hr).1).2 id hid
    rw [lookup_defsTagsFor, if_pos (subset_need _ hrow hid), textOf, htag, Option.getD_some]
  unfold bucket
  rw [hbounds]
  simp only
  rw [floorPass_eq hband, hfloor]
  cases charge budget 0 ((bandIds sc lo hi).map fun _ => approxRowCost 64 1) with
  | none => rfl
  | some floor =>
    simp only
    rw [trueUp_eq htags, hids]
    cases charge budget 0 ((bandIds sc lo hi).map fun p =>
        approxRowCost 64 (byteLen (textOf sc.defsTags p.2))) with
    | none => rfl
    | some total => rfl

end

/-- **The two passes.** A bucket fails just when its exact cost, in a machine word, is over the
budget; otherwise it gives that cost and, for every hash of the range with ids, the texts of its
ids, sorted without duplicates. -/
theorem bucket_budget (sc : Sidecar) (hres : Resolves sc) {loHex : String} {lo : Hash}
    (hlo : Hash.parse loHex = some lo) (prefixBits budget : Nat) :
    (bucket sc loHex prefixBits budget = .error (.budgetExceeded budget) ↔
      budget < min (exactCost sc lo prefixBits) usizeMax) ∧
    (min (exactCost sc lo prefixBits) usizeMax ≤ budget → ∃ table,
      bucket sc loHex prefixBits budget = .ok (table, min (exactCost sc lo prefixBits) usizeMax) ∧
      ∀ h tags, table.lookup h = some tags ↔
        bucketKey h prefixBits = bucketKey lo prefixBits ∧
        ∃ ids, readTagSet sc.bucketMap h = .ok ids ∧ ids ≠ [] ∧ tags.Pairwise (· < ·) ∧
          ∀ tag, tag ∈ tags ↔ ∃ id ∈ ids, sc.defsTags.lookup id = some tag) := by
  have hbounds := @bounds_of_parse "bucket" loHex lo hlo prefixBits
  obtain ⟨hash, hparse, hrange⟩ := bounds_spec hbounds
  rw [hlo] at hparse
  cases hparse
  generalize loBound (bucketKey lo prefixBits) = loBlob at *
  generalize hiBound (bucketUpper lo prefixBits) = hiBlob at *
  have hsum := @sum_bandIds sc loBlob hiBlob lo prefixBits hrange
  have hfloor := @sum_floor_le sc loBlob hiBlob hres
  rw [hsum] at hfloor
  rw [bucket_eq hres hbounds]
  have hexact := fun total => @charge_eq_some budget 0 total ((bandIds sc loBlob hiBlob).map fun p =>
    approxRowCost 64 (byteLen (textOf sc.defsTags p.2))) (Nat.zero_le _)
  have hleast := fun total => @charge_eq_some budget 0 total ((bandIds sc loBlob hiBlob).map fun _ =>
    approxRowCost 64 1) (Nat.zero_le _)
  simp only [Nat.zero_add, hsum] at hexact hleast
  by_cases hover : budget < min (exactCost sc lo prefixBits) usizeMax
  · -- some id was charged, for its cost to be over the budget
    have hnone : charge budget 0 ((bandIds sc loBlob hiBlob).map fun p =>
        approxRowCost 64 (byteLen (textOf sc.defsTags p.2))) = none := by
      rw [charge_eq_none (Nat.zero_le _), Nat.zero_add, hsum]
      refine ⟨fun hnil => ?_, hover⟩
      rw [hnil, List.sum_nil] at hsum
      omega
    rw [hnone]
    refine ⟨⟨fun _ => hover, fun _ => ?_⟩, fun hle => absurd hover (Nat.not_lt.2 hle)⟩
    split
    · rename_i heq
      cases heq
    · rfl
  · have hfits : min (exactCost sc lo prefixBits) usizeMax ≤ budget := Nat.not_lt.1 hover
    rw [(hexact _).2 ⟨rfl, .inr hfits⟩, (hleast _).2 ⟨rfl, .inr (by omega)⟩]
    refine ⟨⟨nofun, fun h => absurd h hover⟩, fun _ => ⟨_, rfl, fun h tags => ?_⟩⟩
    rw [lookup_groupSorted, hres.readTagSet h]
    simp only [List.mem_map, Prod.mk.injEq, Prod.exists, mem_bandIds hrange]
    constructor
    · rintro ⟨⟨_, _, id, ⟨hin, hid⟩, rfl, rfl⟩, hsorted, htags⟩
      refine ⟨hin, _, rfl, List.ne_nil_of_mem hid, hsorted, fun tag => ?_⟩
      rw [htags]
      constructor
      · rintro ⟨_, id', ⟨_, hid'⟩, rfl, rfl⟩
        exact ⟨id', hid', hres.lookup_defs hid'⟩
      · rintro ⟨id', hid', htag⟩
        exact ⟨_, id', ⟨hin, hid'⟩, rfl, by rw [textOf, htag, Option.getD_some]⟩
    · rintro ⟨hin, _, heq, hne, hsorted, htags⟩
      cases heq
      have hpairs : ∀ tag, (∃ h' id, (bucketKey h' prefixBits = bucketKey lo prefixBits ∧
          id ∈ (sc.bucketMap.lookup h').elim [] idsOf) ∧ h' = h ∧ textOf sc.defsTags id = tag) ↔
          ∃ id ∈ (sc.bucketMap.lookup h).elim [] idsOf, sc.defsTags.lookup id = some tag := by
        intro tag
        constructor
        · rintro ⟨_, id, ⟨_, hid⟩, rfl, rfl⟩
          exact ⟨id, hid, hres.lookup_defs hid⟩
        · rintro ⟨id, hid, htag⟩
          exact ⟨_, id, ⟨hin, hid⟩, rfl, by rw [textOf, htag, Option.getD_some]⟩
      obtain ⟨id, hid⟩ := List.exists_mem_of_ne_nil _ hne
      exact ⟨⟨_, _, id, ⟨hin, hid⟩, rfl, rfl⟩, hsorted, fun tag => by rw [htags, hpairs]⟩

theorem resolves_twoHashes : Resolves twoHashes := by
  have hseven : unpackTagIds (packTagIds [7]) = .ok [7] := by
    rw [unpack_pack (by simp), sortDedup_of_strict (by simp)]
  intro h blob hl
  have hblob : blob = packTagIds [7] := by
    simp only [twoHashes, writeTagSet, List.cons_ne_nil, if_false] at hl
    by_cases htwo : h = .fill 2
    · rw [htwo, AList.lookup_insert] at hl
      exact (Option.some.inj hl).symm
    · rw [AList.lookup_insert_ne htwo] at hl
      by_cases hone : h = .fill 1
      · rw [hone, AList.lookup_insert] at hl
        exact (Option.some.inj hl).symm
      · rw [AList.lookup_insert_ne hone] at hl
        cases hl
  subst hblob
  have hids : idsOf (packTagIds [7]) = [7] := by rw [idsOf, hseven]
  rw [hids]
  refine ⟨hseven, fun id hid => ⟨"samus", ?_, by simp⟩⟩
  rw [List.mem_singleton.1 hid]
  exact AList.lookup_insert _

theorem bucket_budget_twoHashes :
    bucket twoHashes (Hash.fill 0).toHex 0 100 = .error (.budgetExceeded 100) ↔
      100 < min (exactCost twoHashes (.fill 0) 0) usizeMax :=
  (bucket_budget twoHashes resolves_twoHashes (Hash.parse_toHex _) 0 100).1

end SidecarReads
end Bridge
end Naiad
