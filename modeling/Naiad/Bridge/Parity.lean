import Naiad.Bridge.Finish
import Naiad.Bridge.SidecarSeed

/-!
# Naiad.Bridge.Parity

The audit of a mirror against the snapshot it was seeded from: both sides digest the pairs of a
band of hashes.

* `digestRows_congr`: a digest depends on the pairs only, not on their order within a hash nor on
  how often one comes.
* `pairs_of_seed`: the pairs of a freshly seeded store.
* `fresh_seed_audit`: **a fresh seed passes the audit just when no file has a tag that is current
  under one raw text and deleted under another**.
-/

namespace Naiad
namespace Bridge

open Lib Netproto Server

/-! ## The digest -/

def utf8 (s : String) : List Byte := s.toUTF8.toList.map fun b => Fin.ofNat 256 b.toNat

def u32Le (n : Nat) : List Byte :=
  [Fin.ofNat 256 n, Fin.ofNat 256 (n / 256), Fin.ofNat 256 (n / 256 ^ 2), Fin.ofNat 256 (n / 256 ^ 3)]

structure PairDigest where
  hasher : List Byte
  count : Nat

namespace PairDigest

def new : PairDigest := ⟨[], 0⟩

/-- The hash, the length of the tag, the tag. -/
def update (d : PairDigest) (pair : Hash × String) : PairDigest :=
  ⟨d.hasher ++ pair.1.bytes ++ u32Le (byteLen pair.2) ++ utf8 pair.2, d.count + 1⟩

def finalize (blake3 : List Byte → Hash) (d : PairDigest) : Nat × Hash := (d.count, blake3 d.hasher)

def updateAll (d : PairDigest) (pairs : List (Hash × String)) : PairDigest := pairs.foldl update d

theorem count_updateAll (d : PairDigest) (pairs : List (Hash × String)) :
    (d.updateAll pairs).count = d.count + pairs.length := by
  induction pairs generalizing d with
  | nil => rfl
  | cons pair pairs ih =>
    rw [updateAll, List.foldl_cons]
    refine (ih (d.update pair)).trans ?_
    simp only [update, List.length_cons]
    omega

end PairDigest

/-- The tags collected for a hash, sorted and deduplicated. -/
def flushHash (d : PairDigest) (hash : Option Hash) (tags : List String) : PairDigest :=
  match hash with
  | none => d
  | some h => d.updateAll ((sortDedup tags).map fun tag => (h, tag))

/-- The loop over rows that come in the order of their hashes. -/
def digestRows : PairDigest → Option Hash → List String → List (Hash × String) → PairDigest
  | d, cur, tags, [] => flushHash d cur tags
  | d, cur, tags, (h, tag) :: rows =>
    if cur = some h then digestRows d cur (tags ++ [tag]) rows
    else digestRows (flushHash d cur tags) (some h) [tag] rows

/-! ## What a digest depends on -/

section

variable {rows rows' pairs pairs' : List (Hash × String)} {d : PairDigest}

/-- Pairs in ascending order, none twice. -/
def Ascending (pairs : List (Hash × String)) : Prop := pairs.Pairwise fun a b => toLex a < toLex b

theorem ascending_group (h : Hash) (tags : List String) :
    Ascending ((sortDedup tags).map fun tag => (h, tag)) := by
  rw [Ascending, List.pairwise_map]
  refine List.Pairwise.imp ?_ (sortDedup_strict tags)
  intro a b hlt
  exact Prod.Lex.toLex_lt_toLex.2 (.inr ⟨rfl, hlt⟩)

theorem ascending_append (h : Ascending pairs) (h' : Ascending pairs')
    (hlt : ∀ a ∈ pairs, ∀ b ∈ pairs', a.1 < b.1) : Ascending (pairs ++ pairs') :=
  List.pairwise_append.2
    ⟨h, h', fun a ha b hb => Prod.Lex.toLex_lt_toLex.2 (.inl (hlt a ha b hb))⟩

theorem Ascending.nodup (h : Ascending pairs) : pairs.Nodup := by
  refine List.Pairwise.imp ?_ h
  rintro a b hlt rfl
  exact lt_irrefl _ hlt

theorem Ascending.ext (h : Ascending pairs) (h' : Ascending pairs')
    (hmem : ∀ p, p ∈ pairs ↔ p ∈ pairs') : pairs = pairs' := by
  have hperm : pairs.Perm pairs' := (List.perm_ext_iff_of_nodup h.nodup h'.nodup).2 hmem
  exact hperm.eq_of_pairwise (fun a b _ _ hab hba => absurd hab (lt_asymm hba)) h h'

/-- What the loop adds once it collects the tags of a hash: its pairs and those of the rows. -/
theorem digestRows_some (h : Hash) (tags : List String) (hne : tags ≠ [])
    (hsorted : rows.Pairwise fun a b => a.1 ≤ b.1) (hfirst : ∀ row ∈ rows, h ≤ row.1) :
    ∃ pairs, digestRows d (some h) tags rows = d.updateAll pairs ∧ Ascending pairs ∧
      ∀ p, p ∈ pairs ↔ (p.1 = h ∧ p.2 ∈ tags) ∨ p ∈ rows := by
  induction rows generalizing d h tags with
  | nil =>
    refine ⟨_, rfl, ascending_group h tags, ?_⟩
    rintro ⟨h', tag⟩
    simp only [List.mem_map, mem_sortDedup, Prod.mk.injEq, List.not_mem_nil, or_false]
    constructor
    · rintro ⟨tag', htag, rfl, rfl⟩
      exact ⟨rfl, htag⟩
    · rintro ⟨rfl, htag⟩
      exact ⟨tag, htag, rfl, rfl⟩
  | cons row rows ih =>
    obtain ⟨h₁, tag₁⟩ := row
    obtain ⟨hle, hrest⟩ := List.pairwise_cons.1 hsorted
    by_cases heq : h = h₁
    · subst heq
      obtain ⟨pairs, hdigest, hasc, hmem⟩ := @ih d h (tags ++ [tag₁]) (by simp) hrest hle
      refine ⟨pairs, by rw [digestRows, if_pos rfl, hdigest], hasc, ?_⟩
      rintro ⟨h', tag⟩
      rw [hmem]
      simp only [List.mem_append, List.mem_cons, List.not_mem_nil, or_false, Prod.mk.injEq]
      tauto
    · have hlt : h < h₁ := lt_of_le_of_ne (hfirst _ List.mem_cons_self) heq
      obtain ⟨pairs, hdigest, hasc, hmem⟩ :=
        @ih (flushHash d (some h) tags) h₁ [tag₁] (by simp) hrest hle
      refine ⟨(sortDedup tags).map (fun tag => (h, tag)) ++ pairs, ?_, ?_, ?_⟩
      · rw [digestRows, if_neg (by simpa using heq), hdigest, flushHash, PairDigest.updateAll,
          PairDigest.updateAll, PairDigest.updateAll, List.foldl_append]
      · refine ascending_append (ascending_group h tags) hasc ?_
        intro a ha b hb
        obtain ⟨tag, _, rfl⟩ := List.mem_map.1 ha
        rcases (hmem b).1 hb with ⟨hb, _⟩ | hb
        · rw [hb]
          exact hlt
        · exact lt_of_lt_of_le hlt (hle b hb)
      · rintro ⟨h', tag⟩
        rw [List.mem_append, hmem]
        simp only [List.mem_map, mem_sortDedup, Prod.mk.injEq, List.mem_cons, List.not_mem_nil,
          or_false]
        constructor
        · rintro (⟨tag', htag, rfl, rfl⟩ | hrest)
          · exact .inl ⟨rfl, htag⟩
          · exact .inr hrest
        · rintro (⟨rfl, htag⟩ | hrest)
          · exact .inl ⟨tag, htag, rfl, rfl⟩
          · exact .inr hrest

/-- The rows of a digest, each once and in order. -/
theorem digestRows_pairs (hsorted : rows.Pairwise fun a b => a.1 ≤ b.1) :
    ∃ pairs, digestRows .new none [] rows = PairDigest.new.updateAll pairs ∧ Ascending pairs ∧
      ∀ p, p ∈ pairs ↔ p ∈ rows := by
  cases rows with
  | nil => exact ⟨[], rfl, .nil, by simp⟩
  | cons row rows =>
    obtain ⟨h, tag⟩ := row
    obtain ⟨hle, hrest⟩ := List.pairwise_cons.1 hsorted
    obtain ⟨pairs, hdigest, hasc, hmem⟩ :=
      @digestRows_some rows .new h [tag] (by simp) hrest hle
    refine ⟨pairs, by rw [digestRows, if_neg (by simp), flushHash, hdigest], hasc, ?_⟩
    rintro ⟨h', tag'⟩
    rw [hmem]
    simp

/-- A band read from a table. -/
def bandDigest (rows : List (Hash × String)) : PairDigest :=
  digestRows .new none [] (orderBy Prod.fst rows)

theorem sorted_orderBy (rows : List (Hash × String)) :
    (orderBy Prod.fst rows).Pairwise fun a b => a.1 ≤ b.1 :=
  List.pairwise_insertionSort (fun a b => a.1 ≤ b.1) rows

theorem bandDigest_congr (h : ∀ p, p ∈ rows ↔ p ∈ rows') : bandDigest rows = bandDigest rows' := by
  obtain ⟨pairs, hdigest, hasc, hmem⟩ := digestRows_pairs (sorted_orderBy rows)
  obtain ⟨pairs', hdigest', hasc', hmem'⟩ := digestRows_pairs (sorted_orderBy rows')
  have heq : pairs = pairs' := hasc.ext hasc' fun p => by
    rw [hmem, hmem', mem_orderBy, mem_orderBy, h]
  rw [bandDigest, bandDigest, hdigest, hdigest', heq]

/-- A digest of fewer pairs has the smaller count. -/
theorem mem_of_count_eq (hsub : ∀ p ∈ rows, p ∈ rows')
    (hcount : (bandDigest rows).count = (bandDigest rows').count) : ∀ p ∈ rows', p ∈ rows := by
  obtain ⟨pairs, hdigest, hasc, hmem⟩ := digestRows_pairs (sorted_orderBy rows)
  obtain ⟨pairs', hdigest', hasc', hmem'⟩ := digestRows_pairs (sorted_orderBy rows')
  rw [bandDigest, bandDigest, hdigest, hdigest', PairDigest.count_updateAll,
    PairDigest.count_updateAll] at hcount
  simp only [mem_orderBy] at hmem hmem'
  have hsubperm : pairs.Subperm pairs' := List.subperm_of_subset hasc.nodup fun p hp =>
    (hmem' p).2 (hsub p ((hmem p).1 hp))
  have hperm := hsubperm.perm_of_length_le (by omega)
  intro p hp
  exact (hmem p).1 (hperm.mem_iff.2 ((hmem' p).2 hp))

end

/-! ## The two audits -/

inductive AuditError
  | badBound (lo : String)
  | notHash
deriving DecidableEq

end Bridge

namespace Server
namespace RepoStore

open Lib Netproto

/-- Pairs with an origin are submissions of this node and have no counterpart in a snapshot. -/
def auditRows (s : RepoStore) (lo hi : String) : List (Hash × String) :=
  (s.joinRows.filter fun r =>
    r.2.2.status = .current ∧ r.2.2.origin = none ∧ inRange lo hi r.1).map fun r => (r.1, r.2.1)

def auditBandDigest (blake3 : List Byte → Hash) (s : RepoStore) (loHex : String)
    (prefixBits : Nat) : Except Bridge.AuditError (Nat × Hash) :=
  match Hash.parse loHex with
  | none => .error (.badBound loHex)
  | some lo =>
    .ok ((Bridge.bandDigest (s.auditRows (bucketKey lo (min prefixBits 256))
      (bucketUpper lo (min prefixBits 256)))).finalize blake3)

end RepoStore
end Server

namespace Bridge

open Lib Netproto Server

/-- The tables a mirror is seeded from. -/
structure MirrorDb extends HydrusDb where
  serviceId : Int
  fingerprint : String
  /-- `(hash_id, tag_id)` -/
  deletedMappings : List (Nat × Nat)
  /-- Whether the mappings tables have a hash-led index. -/
  currentHashLed : Bool
  deletedHashLed : Bool
  relations : List RelationRecord

namespace MirrorDb

variable (u : Unicode) (db : MirrorDb)

def tagText (tagId : Nat) : Option String :=
  (db.rawTag tagId).bind fun raw =>
    match Tag.parse u raw with
    | .error _ => none
    | .ok tag => some tag.display

/-- A mapping joined with its texts; a tag that does not parse is skipped. -/
def seedRow (m : Nat × Nat) : Option SeedRow :=
  (db.hashes.lookup m.1).bind fun blob =>
    (db.tagText u m.2).map fun tag => ⟨m.1, hexEncode blob, tag⟩

/-- `stream_ptr_mappings_pass`, in the order of the hash ids where the index allows. -/
def passRows (hashLed : Bool) (mappings : List (Nat × Nat)) : List SeedRow :=
  (if hashLed then orderBy Prod.fst mappings else mappings).filterMap (db.seedRow u)

theorem seedRow_some {m : Nat × Nat} {row : SeedRow} (h : db.seedRow u m = some row) :
    ∃ blob tag, db.hashes.lookup m.1 = some blob ∧ db.tagText u m.2 = some tag ∧
      row = ⟨m.1, hexEncode blob, tag⟩ := by
  obtain ⟨blob, hblob, hrow⟩ := Option.bind_eq_some_iff.1 h
  obtain ⟨tag, htag, rfl⟩ := Option.map_eq_some_iff.1 hrow
  exact ⟨blob, tag, hblob, htag, rfl⟩

theorem mem_passRows {hashLed : Bool} {mappings : List (Nat × Nat)} {row : SeedRow} :
    row ∈ db.passRows u hashLed mappings ↔ ∃ m ∈ mappings, db.seedRow u m = some row := by
  have hmem : ∀ m, m ∈ (if hashLed then orderBy Prod.fst mappings else mappings) ↔
      m ∈ mappings := by
    intro m
    split
    · exact mem_orderBy
    · exact .rfl
  simp only [passRows, List.mem_filterMap, hmem]

theorem ordered_passRows (mappings : List (Nat × Nat)) :
    (db.passRows u true mappings).Pairwise fun a b => a.hashId ≤ b.hashId := by
  have hsorted : (orderBy Prod.fst mappings).Pairwise fun a b => a.1 ≤ b.1 :=
    List.pairwise_insertionSort (fun a b => a.1 ≤ b.1) mappings
  refine List.Pairwise.filterMap (db.seedRow u) ?_ hsorted
  intro a b hle row hrow row' hrow'
  obtain ⟨_, _, _, _, rfl⟩ := db.seedRow_some u hrow
  obtain ⟨_, _, _, _, rfl⟩ := db.seedRow_some u hrow'
  exact hle

/-- What the seed streams. -/
def snapshot : Snapshot where
  serviceId := db.serviceId
  fingerprint := db.fingerprint
  current := db.passRows u db.currentHashLed db.currentMappings
  deleted := db.passRows u db.deletedHashLed db.deletedMappings
  hashOrdered := db.currentHashLed && db.deletedHashLed
  hashDefs := db.hashIdMap.filterMap fun m =>
    (db.hashes.lookup m.2).map fun blob => (m.1, hexEncode blob)
  tagDefs := db.streamPtrTagIdMap u
  watermark := db.recoverWatermark
  relations := db.relations
  currentOrdered h := by
    rw [(Bool.and_eq_true_iff.1 h).1]
    exact db.ordered_passRows u db.currentMappings
  deletedOrdered h := by
    rw [(Bool.and_eq_true_iff.1 h).2]
    exact db.ordered_passRows u db.deletedMappings
  oneHash a ha b hb heq := by
    have hrow : ∀ row ∈ db.passRows u db.currentHashLed db.currentMappings ++
        db.passRows u db.deletedHashLed db.deletedMappings,
        (db.hashes.lookup row.hashId).map hexEncode = some row.sha := by
      intro row hrow
      obtain ⟨m, hm⟩ : ∃ m, db.seedRow u m = some row := by
        rcases List.mem_append.1 hrow with hrow | hrow
        · obtain ⟨m, _, hm⟩ := (db.mem_passRows u).1 hrow
          exact ⟨m, hm⟩
        · obtain ⟨m, _, hm⟩ := (db.mem_passRows u).1 hrow
          exact ⟨m, hm⟩
      obtain ⟨blob, tag, hblob, _, rfl⟩ := db.seedRow_some u hm
      simp only
      rw [hblob]
      rfl
    have ha := hrow a ha
    rw [heq, hrow b hb] at ha
    exact (Option.some.inj ha).symm

/-- The current mappings of a band with the texts that parse, by the stored hashes. -/
def auditRows (lo hi : String) : List (List Byte × String) :=
  db.currentMappings.filterMap fun m =>
    (db.hashes.lookup m.1).bind fun blob =>
      if loBound lo ≤ blob ∧ blob < hiBound hi then (db.tagText u m.2).map fun tag => (blob, tag)
      else none

def auditBandDigest (blake3 : List Byte → Hash) (loHex : String) (prefixBits : Nat) :
    Except AuditError (Nat × Hash) :=
  match Hash.parse loHex with
  | none => .error (.badBound loHex)
  | some lo =>
    match (db.auditRows u (bucketKey lo (min prefixBits 256))
        (bucketUpper lo (min prefixBits 256))).mapM fun r =>
          (Hash.ofBytes? r.1).map fun h => (h, r.2) with
    | none => .error .notHash
    | some rows => .ok ((bandDigest rows).finalize blake3)

/-- Stored hashes are of 32 bytes. -/
def WellFormed : Prop := ∀ id blob, db.hashes.lookup id = some blob → blob.length = 32

/-- Some mapping gives the hash the text. -/
def Maps (mappings : List (Nat × Nat)) (h : Hash) (tag : String) : Prop :=
  ∃ m ∈ mappings, db.hashes.lookup m.1 = some h.bytes ∧ db.tagText u m.2 = some tag

/-! ## What the seed writes -/

section

variable {u} {db} {h : Hash} {tag : String} {mappings : List (Nat × Nat)}

theorem mem_writes {hashLed isDelete : Bool} {status : MappingStatus} :
    ((h, tag), status) ∈
        ((db.passRows u hashLed mappings).map (·.item isDelete)).filterMap bulkWrite ↔
      db.Maps u mappings h tag ∧ status = if isDelete then .deleted else .current := by
  simp only [List.mem_filterMap, List.mem_map]
  constructor
  · rintro ⟨_, ⟨row, hrow, rfl⟩, hwrite⟩
    obtain ⟨m, hm, hseed⟩ := (db.mem_passRows u).1 hrow
    obtain ⟨blob, tag', hblob, htag, rfl⟩ := db.seedRow_some u hseed
    simp only [SeedRow.item, bulkWrite, hexDecode_hexEncode, Option.bind_some,
      Option.map_eq_some_iff, Prod.mk.injEq] at hwrite
    obtain ⟨h', hbytes, ⟨rfl, rfl⟩, rfl⟩ := hwrite
    refine ⟨⟨m, hm, ?_, htag⟩, rfl⟩
    rw [Hash.ofBytes?_eq_some hbytes]
    exact hblob
  · rintro ⟨⟨m, hm, hblob, htag⟩, rfl⟩
    refine ⟨_, ⟨⟨m.1, hexEncode h.bytes, tag⟩, (db.mem_passRows u).2 ⟨m, hm, ?_⟩, rfl⟩, ?_⟩
    · simp [seedRow, hblob, htag]
    · cases isDelete with
      | true => simp [SeedRow.item, bulkWrite]
      | false => simp [SeedRow.item, bulkWrite]

/-- The writes of one table all write its status. -/
theorem lastWrite_pass {hashLed isDelete : Bool} {status : MappingStatus}
    (hst : lastWrite (((db.passRows u hashLed mappings).map (·.item isDelete)).filterMap bulkWrite)
      (h, tag) = some status) :
    db.Maps u mappings h tag ∧ status = if isDelete then .deleted else .current :=
  mem_writes.1 (mem_of_lastWrite hst)

theorem lastWrite_pass_none {hashLed isDelete : Bool} :
    lastWrite (((db.passRows u hashLed mappings).map (·.item isDelete)).filterMap bulkWrite)
      (h, tag) = none ↔ ¬ db.Maps u mappings h tag := by
  rw [lastWrite_eq_none]
  constructor
  · intro hnone hmaps
    exact hnone _ (mem_writes.2 ⟨hmaps, rfl⟩) rfl
  · rintro hmaps ⟨⟨h', tag'⟩, status⟩ hw heq
    cases heq
    exact hmaps (mem_writes.1 hw).1

/-- The deleted table comes last. -/
theorem seeded_current :
    lastWrite ((db.snapshot u).items.filterMap bulkWrite) (h, tag) = some .current ↔
      db.Maps u db.currentMappings h tag ∧ ¬ db.Maps u db.deletedMappings h tag := by
  have hitems : (db.snapshot u).items =
      (db.passRows u db.currentHashLed db.currentMappings).map (·.item false) ++
        (db.passRows u db.deletedHashLed db.deletedMappings).map (·.item true) := rfl
  rw [hitems, List.filterMap_append, lastWrite_append]
  cases hdel : lastWrite (((db.passRows u db.deletedHashLed db.deletedMappings).map
      (·.item true)).filterMap bulkWrite) (h, tag) with
  | some status =>
    obtain ⟨hmaps, rfl⟩ := lastWrite_pass hdel
    simp [hmaps]
  | none =>
    have hnot := lastWrite_pass_none.1 hdel
    rw [Option.none_or]
    constructor
    · intro hcur
      exact ⟨(lastWrite_pass hcur).1, hnot⟩
    · rintro ⟨hmaps, _⟩
      cases hcur : lastWrite (((db.passRows u db.currentHashLed db.currentMappings).map
          (·.item false)).filterMap bulkWrite) (h, tag) with
      | none => exact absurd hmaps (lastWrite_pass_none.1 hcur)
      | some status =>
        obtain ⟨_, rfl⟩ := lastWrite_pass hcur
        rfl

/-! ## The side of the snapshot -/

theorem mapM_blobs (rows : List (List Byte × String)) (hsize : ∀ r ∈ rows, r.1.length = 32) :
    ∃ out, (rows.mapM fun r => (Hash.ofBytes? r.1).map fun h => (h, r.2)) = some out ∧
      ∀ h tag, (h, tag) ∈ out ↔ (h.bytes, tag) ∈ rows := by
  induction rows with
  | nil => exact ⟨[], rfl, by simp⟩
  | cons row rows ih =>
    obtain ⟨out, hout, hmem⟩ := ih fun r hr => hsize r (List.mem_cons_of_mem _ hr)
    have hlen := hsize row List.mem_cons_self
    have hhash : Hash.ofBytes? row.1 = some ⟨row.1, hlen⟩ := by simp [Hash.ofBytes?, hlen]
    refine ⟨(⟨row.1, hlen⟩, row.2) :: out, by rw [List.mapM_cons, hhash, hout]; rfl, ?_⟩
    intro h tag
    simp only [List.mem_cons, hmem, Prod.ext_iff]
    refine or_congr_left (and_congr_left fun _ => ⟨fun heq => by rw [heq], fun heq => ?_⟩)
    exact Hash.bytes_injective heq

theorem mem_auditRows {lo hi : String} :
    (h.bytes, tag) ∈ db.auditRows u lo hi ↔
      inRange lo hi h = true ∧ db.Maps u db.currentMappings h tag := by
  simp only [auditRows, List.mem_filterMap, Option.bind_eq_some_iff]
  constructor
  · rintro ⟨m, hm, blob, hblob, hrow⟩
    split at hrow
    · rename_i hrange
      obtain ⟨tag', htag, heq⟩ := Option.map_eq_some_iff.1 hrow
      cases heq
      exact ⟨by simpa [inRange] using hrange, m, hm, hblob, htag⟩
    · cases hrow
  · rintro ⟨hrange, m, hm, hblob, htag⟩
    refine ⟨m, hm, h.bytes, hblob, ?_⟩
    rw [if_pos (by simpa [inRange] using hrange), htag]
    rfl

theorem auditBandDigest_eq (hwf : db.WellFormed) (blake3 : List Byte → Hash) {loHex : String}
    {lo : Hash} (hlo : Hash.parse loHex = some lo) (bits : Nat) :
    ∃ rows, db.auditBandDigest u blake3 loHex bits = .ok ((bandDigest rows).finalize blake3) ∧
      ∀ h tag, (h, tag) ∈ rows ↔
        inRange (bucketKey lo (min bits 256)) (bucketUpper lo (min bits 256)) h = true ∧
          db.Maps u db.currentMappings h tag := by
  have hsize : ∀ r ∈ db.auditRows u (bucketKey lo (min bits 256)) (bucketUpper lo (min bits 256)),
      r.1.length = 32 := by
    intro r hr
    simp only [auditRows, List.mem_filterMap, Option.bind_eq_some_iff] at hr
    obtain ⟨m, _, blob, hblob, hrow⟩ := hr
    split at hrow
    · obtain ⟨tag, _, rfl⟩ := Option.map_eq_some_iff.1 hrow
      exact hwf m.1 blob hblob
    · cases hrow
  obtain ⟨rows, hrows, hmem⟩ := mapM_blobs _ hsize
  refine ⟨rows, ?_, fun h tag => (hmem h tag).trans mem_auditRows⟩
  simp only [auditBandDigest, hlo, hrows]

end

end MirrorDb

/-! ## The side of the store -/

/-- No mapping is a submission of this node. -/
def Unowned (s : RepoStore) : Prop := ∀ k r, s.repoMappings.lookup k = some r → r.origin = none

theorem unowned_upsertMapping {s : RepoStore} (h : Unowned s) (k : Nat × Nat) (status : MappingStatus)
    (seq : Nat) :
    Unowned (s.upsertMapping k ⟨status, seq, none⟩ (mergeStatus ⟨status, seq, none⟩)).1 := by
  unfold RepoStore.upsertMapping
  rcases Table.upsert_cases s.repoMappings k ⟨status, seq, none⟩ (mergeStatus ⟨status, seq, none⟩)
    with ⟨_, _, _, hu⟩ | ⟨new, hu, hnew⟩
  · rw [hu]
    exact h
  · have horigin : new.origin = none := by
      rcases hnew with ⟨_, rfl⟩ | ⟨old, hold, hmerge⟩
      · rfl
      · unfold mergeStatus at hmerge
        split at hmerge
        · cases hmerge
        · cases hmerge
          exact h k old hold
    intro k' r hl
    simp only [hu] at hl
    by_cases hk : k' = k
    · subst hk
      rw [AList.lookup_insert] at hl
      cases hl
      exact horigin
    · rw [AList.lookup_insert_ne hk] at hl
      exact h k' r hl

theorem resolveHash_mappings {mode : HashResolve} {s s' : RepoStore} {caches caches' : InternCaches}
    {hash : Hash} {id : Nat} (h : resolveHash mode s caches hash = .ok (s', caches', id)) :
    s'.repoMappings = s.repoMappings := by
  have happend : ∀ {t : RepoStore × InternCaches × Nat},
      appendHash s caches hash = .ok t → t.1.repoMappings = s.repoMappings := by
    intro t ht
    unfold appendHash at ht
    split at ht
    · cases ht
    · cases ht
      rfl
  unfold resolveHash at h
  split at h
  · split at h
    · cases h
      rfl
    · cases h
      rfl
  · split at h
    · split at h
      · cases h
        rfl
      · exact happend h
    · exact happend h

theorem resolveTag_mappings (s : RepoStore) (caches : InternCaches) (tag : String) :
    (resolveTag s caches tag).1.repoMappings = s.repoMappings := by
  unfold resolveTag
  split
  · rfl
  · rfl

theorem unowned_applyItems {mode : HashResolve} {items : List (String × String × Bool)}
    {st st' : BulkState} (h : Unowned st.store) (hitems : applyItems mode st items = .ok st') :
    Unowned st'.store := by
  induction items generalizing st with
  | nil =>
    cases hitems
    exact h
  | cons item items ih =>
    rw [applyItems] at hitems
    split at hitems
    · cases hitems
    · rename_i st₁ hitem
      refine ih ?_ hitems
      unfold applyItem at hitem
      split at hitem
      · cases hitem
        exact h
      · split at hitem
        · cases hitem
        · rename_i s₁ caches₁ hid hresolve
          cases hitem
          apply unowned_upsertMapping
          intro k r hl
          rw [resolveTag_mappings, resolveHash_mappings hresolve] at hl
          exact h k r hl

def UnownedNode (node : BridgeNode) : Prop := Unowned node.repo.toRepoStore

theorem unowned_flush (deferred : Bool) (ckpt : Option SeedCheckpoint)
    (items : List (String × String × Bool)) (carry : SeedCarry) :
    Prog.Triple UnownedNode (flush deferred ckpt items carry) (fun _ => UnownedNode)
      UnownedNode := by
  rw [flush_eq]
  refine .write (fun _ hn => hn) ?_
  intro node node' carry' hn happly
  split at happly
  · cases happly
  · rename_i s a hs
    cases happly
    simp only at hs
    split at hs
    · cases hs
    · rename_i st hst
      cases hs
      obtain ⟨_, st₁, hitems, rfl⟩ := applyMappingsImpl_eq_ok hst
      have hdone : Unowned st₁.store := by
        refine unowned_applyItems ?_ hitems
        exact hn
      exact ⟨hdone, hdone⟩

theorem unowned_runRows (snap : Snapshot) (pass : SeedPass) (deferred : Bool) (rows : List SeedRow)
    (buf : List (String × String × Bool)) (prev : Nat) (carry : SeedCarry) :
    Prog.Triple UnownedNode (runRows snap pass deferred rows buf prev carry) (fun _ => UnownedNode)
      UnownedNode := by
  induction rows generalizing buf prev carry with
  | nil =>
    unfold runRows
    split
    · exact .ret (fun _ hn => hn) fun _ hn => hn
    · exact unowned_flush _ _ _ _
  | cons row rows ih =>
    unfold runRows
    split
    · exact (unowned_flush _ _ _ _).bind fun carry => ih _ _ carry
    · exact ih _ _ _

theorem unowned_onStore {f : RepoStore → RepoStore}
    (hf : ∀ s, (f s).repoMappings = s.repoMappings) :
    Prog.Triple UnownedNode (onStore f) (fun _ => UnownedNode) UnownedNode := by
  have hstep : ∀ node, UnownedNode node →
      UnownedNode (node.setStore (f node.repo.toRepoStore)) := by
    intro node hn k r hl
    change (f node.repo.toRepoStore).repoMappings.lookup k = some r at hl
    rw [hf] at hl
    exact hn k r hl
  exact .put (fun _ hn => hn) fun node hn => ⟨hstep node hn, hstep node hn⟩

theorem unowned_onState (f : StateDb → StateDb) :
    Prog.Triple UnownedNode (onState f) (fun _ => UnownedNode) UnownedNode :=
  .put (fun _ hn => hn) fun _ hn => ⟨hn, hn⟩

theorem unowned_buildHashUniqueIndex :
    Prog.Triple UnownedNode buildHashUniqueIndex (fun _ => UnownedNode) UnownedNode := by
  refine .write (fun _ hn => hn) ?_
  intro node node' a hn hbuild
  split at hbuild
  · cases hbuild
    exact ⟨hn, hn⟩
  · cases hbuild

theorem unowned_runIndexedAll (snap : Snapshot) (carry : SeedCarry) :
    Prog.Triple UnownedNode (runIndexedAll snap carry) (fun _ => UnownedNode) UnownedNode := by
  have hchunks : ∀ chunks carry, Prog.Triple UnownedNode (runChunks chunks carry)
      (fun _ => UnownedNode) UnownedNode := by
    intro chunks
    induction chunks with
    | nil => exact fun carry => .ret (fun _ hn => hn) fun _ hn => hn
    | cons chunk chunks ih => exact fun carry => (unowned_flush _ _ _ _).bind fun carry => ih carry
  exact hchunks _ carry

theorem unowned_runPlan (snap : Snapshot) (plan : SeedPlan) (carry : SeedCarry) :
    Prog.Triple UnownedNode (runPlan snap plan carry) (fun _ => UnownedNode) UnownedNode := by
  have hpass : ∀ pass deferred start carry,
      Prog.Triple UnownedNode (runPass snap pass deferred start carry) (fun _ => UnownedNode)
        UnownedNode := fun pass deferred start carry => unowned_runRows snap pass deferred _ _ _ carry
  cases plan with
  | freshDeferred =>
    have hdrop : Prog.Triple UnownedNode dropHashUniqueIndex (fun _ => UnownedNode) UnownedNode :=
      unowned_onStore fun _ => rfl
    refine hdrop.bind fun _ => ?_
    refine (hpass .current true none carry).bind fun carry => ?_
    exact unowned_buildHashUniqueIndex.bind fun _ => hpass .deleted false none carry
  | resumeCurrent start =>
    refine (hpass .current true (some start) carry).bind fun carry => ?_
    exact unowned_buildHashUniqueIndex.bind fun _ => hpass .deleted false none carry
  | runDeleted start => exact hpass .deleted false start carry
  | selfHealThenIndexed =>
    exact unowned_buildHashUniqueIndex.bind fun _ => unowned_runIndexedAll snap carry
  | indexed => exact unowned_runIndexedAll snap carry

theorem unowned_mappingsPhase (snap : Snapshot) (ckpt : Option SeedCheckpoint) :
    Prog.Triple UnownedNode (mappingsPhase snap ckpt) (fun _ => UnownedNode) UnownedNode := by
  unfold mappingsPhase
  refine Prog.Triple.bind (Q := fun _ => UnownedNode) (.read (fun _ hn => hn) fun _ _ hn _ => hn)
    fun carry => ?_
  refine Prog.Triple.bind (Q := fun _ => UnownedNode) (.read (fun _ hn => hn) fun _ _ hn _ => hn)
    fun plan => ?_
  refine (unowned_runPlan snap plan carry).bind fun _ => ?_
  refine Prog.Triple.bind (unowned_onStore ?_) fun _ => unowned_onState _
  exact fun _ => rfl

theorem unowned_unlessDone {done : StateDb → Bool} {phase : BridgeM Unit}
    (h : Prog.Triple UnownedNode phase (fun _ => UnownedNode) UnownedNode) :
    Prog.Triple UnownedNode (unlessDone done phase) (fun _ => UnownedNode) UnownedNode := by
  unfold unlessDone
  refine Prog.Triple.bind (Q := fun _ => UnownedNode) (.read (fun _ hn => hn) fun _ _ hn _ => hn)
    fun isDone => ?_
  cases isDone with
  | true => exact .ret (fun _ hn => hn) fun _ hn => hn
  | false => exact h

theorem unowned_applyRelations (ts : Int) (subs : List RelationSubmission) :
    Prog.Triple UnownedNode (applyRelations ts subs) (fun _ => UnownedNode) UnownedNode := by
  refine .write (fun _ hn => hn) ?_
  intro node node' a hn happly
  cases hrel : node.repo.applyBridgeRelations ts subs with
  | error e => simp [hrel] at happly
  | ok out =>
    obtain ⟨db, changed⟩ := out
    simp only [hrel] at happly
    cases happly
    have hmappings : db.toRepoStore.repoMappings = node.repo.repoMappings := by
      rcases (relationStatuses_applyBridgeRelations hrel).1 with hstore | ⟨author, hstore⟩
      · rw [hstore]
      · rw [hstore]
        unfold RepoStore.ensureAccount
        split
        · rfl
        · rfl
    have hdone : UnownedNode { node with repo := db } := by
      intro k r hl
      change db.toRepoStore.repoMappings.lookup k = some r at hl
      rw [hmappings] at hl
      exact hn k r hl
    exact ⟨hdone, hdone⟩

theorem unowned_laterPhases (snap : Snapshot) (bridge : Signer) (ts : Int) :
    Prog.Triple UnownedNode (laterPhases snap bridge ts) (fun _ => UnownedNode) UnownedNode := by
  have hdefs : Prog.Triple UnownedNode (defsPhase snap) (fun _ => UnownedNode) UnownedNode := by
    unfold defsPhase
    refine (Prog.Triple.forEach (fun _ => UnownedNode) _ (fun _ hn => hn) fun _ chunk _ _ =>
      unowned_onState _).bind fun _ => ?_
    exact (unowned_onState _).bind fun _ => unowned_onState _
  have hrelations : Prog.Triple UnownedNode (relationsPhase snap bridge ts) (fun _ => UnownedNode)
      UnownedNode := by
    unfold relationsPhase
    refine (Prog.Triple.forEach (fun _ => UnownedNode) _ (fun _ hn => hn) fun _ chunk _ _ =>
      unowned_applyRelations ts chunk).bind fun _ => ?_
    exact unowned_onState _
  unfold laterPhases
  refine (unowned_unlessDone hdefs).bind fun _ => ?_
  refine (unowned_unlessDone ?_).bind fun _ => unowned_unlessDone hrelations
  exact (unowned_onState _).bind fun _ => unowned_onState _

theorem unowned_seedRun (snap : Snapshot) (bridge : Signer) (ts : Int) (generation : String) :
    Prog.Triple UnownedNode (seedRun snap bridge ts generation false) (fun _ => UnownedNode)
      UnownedNode := by
  rw [seedRun_eq]
  refine Prog.Triple.bind (Q := fun _ => UnownedNode) ?_ fun valid => ?_
  · unfold prepare
    refine Prog.Triple.bind (Q := fun _ => UnownedNode) (.read (fun _ hn => hn) fun _ _ hn _ => hn)
      fun s => ?_
    simp only [and_true, if_true]
    split
    · exact .fail fun _ hn => hn
    · exact .ret (fun _ hn => hn) fun _ hn => hn
  · unfold bodyWith
    refine (unowned_unlessDone ?_).bind fun _ => ?_
    · refine Prog.Triple.bind (Q := fun _ => UnownedNode)
        (.read (fun _ hn => hn) fun _ _ hn _ => hn) fun _ => ?_
      exact unowned_mappingsPhase snap valid
    · refine (unowned_laterPhases snap bridge ts).bind fun _ => ?_
      change Prog.Triple _ (finishPlain generation) _ _
      refine Prog.Triple.bind (unowned_onStore ?_) fun _ => unowned_onStore fun s => ?_
      · exact fun _ => rfl
      · unfold RepoStore.backfillDistinctHashCount
        split
        · rfl
        · rfl

/-- The pairs of a freshly seeded store: what the current table gives and the deleted one does not. -/
theorem pairs_of_seed {u : Unicode} {db : MirrorDb} {bridge : Signer} {ts : Int}
    {generation : String} {node : BridgeNode}
    (hseed : (seedRun (db.snapshot u) bridge ts generation false).Returns BridgeNode.empty () node)
    {lo hi : String} {h : Hash} {tag : String} :
    (h, tag) ∈ node.repo.auditRows lo hi ↔ inRange lo hi h = true ∧
      db.Maps u db.currentMappings h tag ∧ ¬ db.Maps u db.deletedMappings h tag := by
  have hdone : Seeded (db.snapshot u) BridgeNode.empty node :=
    seeded_of_returns ⟨RepoStore.sound_empty, rfl⟩ rfl hseed
  have hunowned : UnownedNode node := by
    refine (unowned_seedRun (db.snapshot u) bridge ts generation).post BridgeNode.empty () node ?_
      hseed
    intro k r hl
    cases hl
  have hstatus : node.repo.statuses (h, tag) =
      lastWrite ((db.snapshot u).items.filterMap bulkWrite) (h, tag) := by
    rw [hdone.statuses]
    change writeAll _ _ _ = _
    rw [writeAll_apply]
    exact Option.or_none
  rw [← MirrorDb.seeded_current, ← hstatus, RepoStore.auditRows, List.mem_map]
  constructor
  · rintro ⟨⟨h', tag', r⟩, hmem, heq⟩
    cases heq
    obtain ⟨hrow, hcond⟩ := List.mem_filter.1 hmem
    simp only [decide_eq_true_eq] at hcond
    rw [RepoStore.mem_joinRows hdone.serving.sound] at hrow
    exact ⟨hcond.2.2, by simp [RepoStore.statuses, hrow, hcond.1]⟩
  · rintro ⟨hrange, hcur⟩
    obtain ⟨r, hrow, hst⟩ := Option.map_eq_some_iff.1 hcur
    refine ⟨(h, tag, r), List.mem_filter.2 ⟨(RepoStore.mem_joinRows hdone.serving.sound).2 hrow, ?_⟩, rfl⟩
    obtain ⟨_, _, _, _, hl⟩ := RepoStore.row_eq_some.1 hrow
    simp [hst, hunowned _ r hl, hrange]

/-- **Seed and audit.** After a seed of an empty store that completes, the audits of both sides
agree on every band just in case no file has a tag that the current table gives it under some raw
text and the deleted table under some. -/
theorem fresh_seed_audit {u : Unicode} (blake3 : List Byte → Hash) {db : MirrorDb}
    (hwf : db.WellFormed) {bridge : Signer} {ts : Int} {generation : String} {node : BridgeNode}
    (hseed : (seedRun (db.snapshot u) bridge ts generation false).Returns BridgeNode.empty ()
      node) :
    (∀ loHex bits, (node.repo.auditBandDigest blake3 loHex bits).toOption =
        (db.auditBandDigest u blake3 loHex bits).toOption) ↔
      ∀ h tag, db.Maps u db.currentMappings h tag → ¬ db.Maps u db.deletedMappings h tag := by
  have hstore : ∀ loHex lo bits, Hash.parse loHex = some lo →
      node.repo.auditBandDigest blake3 loHex bits =
        .ok ((bandDigest (node.repo.auditRows (bucketKey lo (min bits 256))
          (bucketUpper lo (min bits 256)))).finalize blake3) := by
    intro loHex lo bits hlo
    simp only [RepoStore.auditBandDigest, hlo]
  constructor
  · intro haudit h tag hcur hdel
    -- on the band of the hash, of all its bits, the store is short of the pair
    obtain ⟨rows, hrows, hmem⟩ := MirrorDb.auditBandDigest_eq (u := u) hwf blake3
      (Hash.parse_toHex h) 256
    have heq := haudit h.toHex 256
    rw [hstore _ _ _ (Hash.parse_toHex h), hrows] at heq
    have hcount := congrArg Prod.fst (Option.some.inj heq)
    have hself : inRange (bucketKey h (min 256 256)) (bucketUpper h (min 256 256)) h = true :=
      (inRange_bucket h h _).2 rfl
    have hback := mem_of_count_eq (fun p hp => (hmem p.1 p.2).2 ?_) hcount (h, tag)
      ((hmem h tag).2 ⟨hself, hcur⟩)
    · exact ((pairs_of_seed hseed).1 hback).2.2 hdel
    · obtain ⟨hrange, hmaps, _⟩ := (pairs_of_seed hseed).1 hp
      exact ⟨hrange, hmaps⟩
  · intro hclean loHex bits
    cases hlo : Hash.parse loHex with
    | none => simp [RepoStore.auditBandDigest, MirrorDb.auditBandDigest, hlo, Except.toOption]
    | some lo =>
      obtain ⟨rows, hrows, hmem⟩ := MirrorDb.auditBandDigest_eq (u := u) hwf blake3 hlo bits
      rw [hstore _ _ _ hlo, hrows]
      refine congrArg (fun d : PairDigest => some (d.finalize blake3)) (bandDigest_congr ?_)
      rintro ⟨h, tag⟩
      rw [pairs_of_seed hseed, hmem]
      refine and_congr_right fun _ => ?_
      exact ⟨fun hm => hm.1, fun hm => ⟨hm, hclean h tag hm⟩⟩

/-! ## One file -/

/-- A file with the tag `cat`; the deleted table has one mapping of it. -/
def auditSample (deleted : Nat) : MirrorDb where
  hashes := .insert 10 (Hash.fill 7).bytes ∅
  tags := .insert 22 ("", "dog") (.insert 21 ("", "Cat") (.insert 20 ("", "cat") ∅))
  hashIdMap := [(1, 10)]
  tagIdMap := [(2, 20), (3, 21), (4, 22)]
  currentMappings := [(10, 20)]
  updates := none
  updatesProcessed := []
  serviceId := 1
  fingerprint := "f"
  deletedMappings := [(10, deleted)]
  currentHashLed := true
  deletedHashLed := true
  relations := []

def auditSigner : Signer := ⟨"bridge", fun _ _ _ _ => []⟩

def auditSeeded (deleted : Nat) : BridgeNode :=
  (seedRun ((auditSample deleted).snapshot .asciiText) auditSigner 0 "g" false).final .empty

theorem wellFormed_auditSample (deleted : Nat) : (auditSample deleted).WellFormed := by
  intro id blob h
  by_cases hid : id = 10
  · subst hid
    simp only [auditSample, AList.lookup_insert] at h
    cases h
    exact (Hash.fill 7).size
  · simp only [auditSample, AList.lookup_insert_ne hid] at h
    cases h

theorem fresh_seed_audit_dog :
    ((auditSeeded 22).repo.auditBandDigest (fun _ => Hash.fill 0) (Hash.fill 7).toHex 8).toOption =
      ((auditSample 22).auditBandDigest .asciiText (fun _ => Hash.fill 0) (Hash.fill 7).toHex
        8).toOption := by
  have hcat : (auditSample 22).tagText .asciiText 20 = some "cat" := by decide +kernel
  have hdog : (auditSample 22).tagText .asciiText 22 = some "dog" := by decide +kernel
  have hseed : (seedRun ((auditSample 22).snapshot .asciiText) auditSigner 0 "g" false).Returns
      .empty () (auditSeeded 22) := ⟨by decide +kernel, rfl⟩
  refine (fresh_seed_audit (fun _ => Hash.fill 0) (wellFormed_auditSample 22) hseed).2 ?_ _ 8
  rintro h tag ⟨m, hm, _, htag⟩ ⟨m', hm', _, htag'⟩
  rw [List.mem_singleton.1 hm, hcat] at htag
  rw [List.mem_singleton.1 hm', hdog, ← htag] at htag'
  exact absurd htag' (by decide)

/-- With `Cat` deleted the store has lost the pair that the snapshot counts. -/
theorem fresh_seed_audit_cat :
    (auditSample 21).WellFormed ∧
      (seedRun ((auditSample 21).snapshot .asciiText) auditSigner 0 "g" false).Returns .empty ()
        (auditSeeded 21) ∧
      (((auditSeeded 21).repo.auditBandDigest (fun _ => Hash.fill 0) (Hash.fill 7).toHex 0).map
        Prod.fst).toOption = some 0 ∧
      (((auditSample 21).auditBandDigest .asciiText (fun _ => Hash.fill 0) (Hash.fill 7).toHex 0).map
        Prod.fst).toOption = some 1 := by
  refine ⟨wellFormed_auditSample 21, ⟨?_, rfl⟩, ?_, ?_⟩
  · decide +kernel
  · decide +kernel
  · decide +kernel

end Bridge
end Naiad
