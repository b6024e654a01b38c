import Naiad.Server.Read

/-!
# Naiad.Server.Reply

What the bucket handler replies, in terms of the rows of the store.

* `nativeBuckets_snapshot`: a snapshot holds the current rows of the requested buckets.
* `nativeBuckets_delta`: a delta holds their rows past the cursor asked from.
-/

namespace Naiad
namespace Server

open Lib Netproto

theorem parseBuckets_ok {bs : List String} {los : List Hash} (h : parseBuckets bs = .ok los) :
    bs.map Hash.parse = los.map some := by
  induction bs generalizing los with
  | nil =>
    cases h
    rfl
  | cons b bs ih =>
    rw [parseBuckets] at h
    split at h
    · cases h
    · rename_i lo hlo
      split at h
      · cases h
      · rename_i los' hlos
        cases h
        rw [List.map_cons, List.map_cons, hlo, ih hlos]

theorem mem_parseBuckets {bs : List String} {los : List Hash} (h : parseBuckets bs = .ok los)
    {lo : Hash} : lo ∈ los ↔ ∃ b ∈ bs, Hash.parse b = some lo := by
  have hmap := parseBuckets_ok h
  have hmem : some lo ∈ los.map some ↔ lo ∈ los := by simp
  rw [← hmem, ← hmap, List.mem_map]

/-- A current row of the store. -/
def RepoStore.Current (s : RepoStore) (h : Hash) (t : String) : Prop :=
  ∃ r, s.row h t = some r ∧ r.status = .current

theorem mem_pairs_groupOnto {l : List (Hash × OriginTag)} {h : Hash} {t : String} :
    (h, t) ∈ pairs (Table.groupOnto ∅ l) ↔ ∃ o, (h, o) ∈ l ∧ o.tag = t := by
  rw [mem_pairs, Table.lookup_groupOnto]
  simp only [AList.lookup_empty, Option.getD_none, List.nil_append, List.mem_map,
    List.mem_filter, decide_eq_true_eq]
  constructor
  · rintro ⟨o, ⟨⟨h', o'⟩, ⟨hmem, rfl⟩, rfl⟩, ht⟩
    exact ⟨o', hmem, ht⟩
  · rintro ⟨o, hmem, ht⟩
    exact ⟨o, ⟨(h, o), ⟨hmem, rfl⟩, rfl⟩, ht⟩

theorem mem_pairs_snapshot {s : RepoStore} (hs : s.Sound) {h : Hash} {t : String} :
    (h, t) ∈ pairs s.snapshot ↔ s.Current h t := by
  rw [RepoStore.snapshot, mem_pairs_groupOnto]
  simp only [List.mem_map, mem_orderBy, List.mem_filter, decide_eq_true_eq]
  constructor
  · rintro ⟨o, ⟨⟨h', t', r⟩, ⟨hmem, hcur⟩, heq⟩, rfl⟩
    cases heq
    exact ⟨r, (RepoStore.mem_joinRows hs).1 hmem, hcur⟩
  · rintro ⟨r, hrow, hcur⟩
    exact ⟨⟨t, r.origin⟩, ⟨(h, t, r), ⟨(RepoStore.mem_joinRows hs).2 hrow, hcur⟩, rfl⟩, rfl⟩

theorem bucket_ok {s : RepoStore} {lo hi : String} {budget spent : Nat}
    {part : Table Hash (List OriginTag)} (h : s.bucket lo hi budget = .ok (part, spent)) :
    part = Table.groupOnto ∅ (s.bucketRows lo hi) := by
  unfold RepoStore.bucket at h
  split at h
  · cases h
  · cases h
    rfl

theorem bucketDelta_ok {s : RepoStore} {lo hi : String} {since budget spent : Nat}
    {part : List DeltaMapping} (h : s.bucketDelta lo hi since budget = .ok (part, spent)) :
    part = s.deltaRows lo hi since := by
  unfold RepoStore.bucketDelta at h
  split at h
  · cases h
  · cases h
    rfl

theorem mem_pairs_bucket {s : RepoStore} (hs : s.Sound) (lo h : Hash) (t : String) (bits : Nat) :
    (h, t) ∈ pairs (Table.groupOnto ∅ (s.bucketRows (bucketKey lo bits) (bucketUpper lo bits))) ↔
      bucketKey h bits = bucketKey lo bits ∧ s.Current h t := by
  rw [mem_pairs_groupOnto]
  constructor
  · rintro ⟨o, hmem, rfl⟩
    obtain ⟨hrange, r, hrow, hcur, _⟩ := (RepoStore.mem_bucketRows hs).1 hmem
    exact ⟨(inRange_bucket h lo bits).1 hrange, r, hrow, hcur⟩
  · rintro ⟨hkey, r, hrow, hcur⟩
    exact ⟨⟨t, r.origin⟩, (RepoStore.mem_bucketRows hs).2
      ⟨(inRange_bucket h lo bits).2 hkey, r, hrow, hcur, rfl⟩, rfl⟩

/-- A later part of a snapshot replaces the lists of its hashes; both lists are the same. -/
theorem mem_pairs_union {s : RepoStore} (hs : s.Sound) {lo : Hash} {bits : Nat}
    {tags : Table Hash (List OriginTag)} {seen : Hash → Prop}
    (htags : ∀ h t, (h, t) ∈ pairs tags ↔ seen h ∧ s.Current h t) (h : Hash) (t : String) :
    (h, t) ∈ pairs
        (Table.groupOnto ∅ (s.bucketRows (bucketKey lo bits) (bucketUpper lo bits)) ∪ tags) ↔
      (bucketKey h bits = bucketKey lo bits ∨ seen h) ∧ s.Current h t := by
  have hpart := fun t => mem_pairs_bucket hs lo h t bits
  generalize hg : Table.groupOnto ∅
    (s.bucketRows (bucketKey lo bits) (bucketUpper lo bits)) = part at hpart ⊢
  by_cases hmem : h ∈ part
  · have hkey : bucketKey h bits = bucketKey lo bits := by
      rw [← hg, Table.mem_groupOnto] at hmem
      rcases hmem with hmem | ⟨o, hmem⟩
      · exact absurd hmem (AList.notMem_empty h)
      · exact (inRange_bucket h lo bits).1 ((RepoStore.mem_bucketRows hs).1 hmem).1
    rw [mem_pairs, AList.lookup_union_left hmem, ← mem_pairs, hpart]
    simp [hkey]
  · rw [mem_pairs, AList.lookup_union_right hmem, ← mem_pairs, htags]
    constructor
    · rintro ⟨hs, hcur⟩
      exact ⟨.inr hs, hcur⟩
    · rintro ⟨hkey | hseen, hcur⟩
      · have : (h, t) ∈ pairs part := (hpart t).2 ⟨hkey, hcur⟩
        rw [mem_pairs, AList.lookup_eq_none.2 hmem] at this
        simp at this
      · exact ⟨hseen, hcur⟩

theorem mem_snapshotBuckets {s : RepoStore} (hs : s.Sound) {bits : Nat} {los : List Hash}
    {remaining : Nat} {tags out : Table Hash (List OriginTag)} {seen : Hash → Prop}
    (htags : ∀ h t, (h, t) ∈ pairs tags ↔ seen h ∧ s.Current h t)
    (hout : s.snapshotBuckets bits remaining tags los = .ok out) (h : Hash) (t : String) :
    (h, t) ∈ pairs out ↔
      (seen h ∨ ∃ lo ∈ los, bucketKey h bits = bucketKey lo bits) ∧ s.Current h t := by
  induction los generalizing remaining tags seen with
  | nil =>
    cases hout
    simp [htags]
  | cons lo los ih =>
    rw [RepoStore.snapshotBuckets] at hout
    split at hout
    · cases hout
    · rename_i part spent hb
      rw [bucket_ok hb] at hout
      rw [ih (mem_pairs_union hs htags) hout]
      simp only [List.mem_cons, exists_eq_or_imp, or_assoc, or_left_comm]

theorem mem_deltaBuckets {s : RepoStore} {bits : Nat} {los : List (Hash × Nat)} {remaining : Nat}
    {changes out : List DeltaMapping}
    (hout : s.deltaBuckets bits remaining changes los = .ok out) (d : DeltaMapping) :
    d ∈ out ↔ d ∈ changes ∨ ∃ l ∈ los,
      d ∈ s.deltaRows (bucketKey l.1 bits) (bucketUpper l.1 bits) l.2 := by
  induction los generalizing remaining changes with
  | nil =>
    cases hout
    simp
  | cons l los ih =>
    obtain ⟨lo, since⟩ := l
    rw [RepoStore.deltaBuckets] at hout
    split at hout
    · cases hout
    · rename_i part spent hb
      rw [bucketDelta_ok hb] at hout
      rw [ih hout]
      simp only [List.mem_append, List.mem_cons, exists_eq_or_imp, or_assoc]

theorem zip_const {α β γ : Type} {as : List α} {bs : List β} (h : as.length = bs.length) (c : γ) :
    as.zip (bs.map fun _ => c) = as.map fun a => (a, c) := by
  induction as generalizing bs with
  | nil => rfl
  | cons a as ih =>
    cases bs with
    | nil => simp at h
    | cons b bs => simpa using ih (by simpa using h)

/-- The hashes a list of requested keys asks for. -/
def Covers (buckets : List String) (bits : Nat) (h : Hash) : Prop :=
  ∃ b ∈ buckets, ∃ lo, Hash.parse b = some lo ∧ bucketKey h bits = bucketKey lo bits

theorem covers_iff {buckets : List String} {los : List Hash} {bits : Nat}
    (h : parseBuckets buckets = .ok los) {x : Hash} :
    Covers buckets bits x ↔ ∃ lo ∈ los, bucketKey x bits = bucketKey lo bits := by
  constructor
  · rintro ⟨b, hb, lo, hlo, hkey⟩
    exact ⟨lo, (mem_parseBuckets h).2 ⟨b, hb, hlo⟩, hkey⟩
  · rintro ⟨lo, hlo, hkey⟩
    obtain ⟨b, hb, hp⟩ := (mem_parseBuckets h).1 hlo
    exact ⟨b, hb, lo, hp, hkey⟩

/-- A snapshot reply holds the current rows of the requested buckets. -/
theorem nativeBuckets_snapshot {s : RepoStore} (hs : s.Sound) {budget bits cursor : Nat}
    {buckets : List String} {tags : Table Hash (List OriginTag)}
    (h : s.nativeBuckets budget bits buckets none = .ok (.snapshot cursor tags)) :
    cursor = s.mappingCursor ∧
      ∀ x t, (x, t) ∈ pairs tags ↔ Covers buckets bits x ∧ s.Current x t := by
  simp only [RepoStore.nativeBuckets, Option.any_none, Bool.false_eq_true, if_false] at h
  split at h
  · cases h
  · rename_i los hlos
    split at h
    · cases h
    · rename_i tags' htags
      cases h
      refine ⟨rfl, fun x t => ?_⟩
      have hempty : ∀ x t, (x, t) ∈ pairs ∅ ↔ False ∧ s.Current x t := by simp [pairs]
      rw [mem_snapshotBuckets hs hempty htags, covers_iff hlos]
      simp

/-- A delta reply holds the rows of the requested buckets past the cursor asked from. -/
theorem nativeBuckets_delta {s : RepoStore} (hs : s.Sound) {budget bits since cursor : Nat}
    {buckets : List String} {changes : List DeltaMapping}
    (h : s.nativeBuckets budget bits buckets (some (buckets.map fun _ => since)) =
      .ok (.delta cursor changes)) :
    cursor = s.mappingCursor ∧
      ∀ d, d ∈ changes ↔ Covers buckets bits d.hash ∧ d.seq > min since (2 ^ 63 - 1) ∧
        s.row d.hash d.tag = some ⟨d.status, d.seq, d.origin⟩ := by
  simp only [RepoStore.nativeBuckets] at h
  split at h
  · cases h
  · split at h
    · cases h
    · rename_i los hlos
      split at h
      · cases h
      · rename_i changes' hch
        cases h
        refine ⟨rfl, fun d => ?_⟩
        have hlen : los.length = buckets.length := by
          have := congrArg List.length (parseBuckets_ok hlos)
          simpa using this.symm
        rw [mem_deltaBuckets hch, zip_const hlen, covers_iff hlos]
        simp only [List.not_mem_nil, List.mem_map, false_or]
        constructor
        · rintro ⟨l, ⟨lo, hlo, rfl⟩, hd⟩
          obtain ⟨hrange, hseq, hrow⟩ := (RepoStore.mem_deltaRows hs).1 hd
          exact ⟨⟨lo, hlo, (inRange_bucket _ _ _).1 hrange⟩, hseq, hrow⟩
        · rintro ⟨⟨lo, hlo, hkey⟩, hseq, hrow⟩
          exact ⟨(lo, since), ⟨lo, hlo, rfl⟩, (RepoStore.mem_deltaRows hs).2
            ⟨(inRange_bucket _ _ _).2 hkey, hseq, hrow⟩⟩

theorem mem_zip_since {bs : List String} {los : List Hash} {since : String → Nat}
    (h : bs.map Hash.parse = los.map some) {l : Hash × Nat} :
    l ∈ los.zip (bs.map since) ↔ ∃ b ∈ bs, Hash.parse b = some l.1 ∧ l.2 = since b := by
  induction bs generalizing los with
  | nil => simp
  | cons b bs ih =>
    cases los with
    | nil => simp at h
    | cons lo los =>
      rw [List.map_cons, List.map_cons, List.cons.injEq] at h
      rw [List.map_cons, List.zip_cons_cons, List.mem_cons, ih h.2]
      simp only [List.mem_cons, exists_eq_or_imp, h.1, Option.some.injEq]
      refine or_congr_left ?_
      rw [Prod.ext_iff]
      exact and_congr_left fun _ => eq_comm

/-- Each key with its own cursor: the rows of each bucket past the cursor it was asked from. -/
theorem nativeBuckets_delta_each {s : RepoStore} (hs : s.Sound) {budget bits cursor : Nat}
    {buckets : List String} {since : String → Nat} {changes : List DeltaMapping}
    (h : s.nativeBuckets budget bits buckets (some (buckets.map since)) =
      .ok (.delta cursor changes)) :
    cursor = s.mappingCursor ∧ ∀ d, d ∈ changes ↔ ∃ b ∈ buckets, ∃ lo, Hash.parse b = some lo ∧
      bucketKey d.hash bits = bucketKey lo bits ∧ d.seq > min (since b) (2 ^ 63 - 1) ∧
        s.row d.hash d.tag = some ⟨d.status, d.seq, d.origin⟩ := by
  simp only [RepoStore.nativeBuckets] at h
  split at h
  · cases h
  · split at h
    · cases h
    · rename_i los hlos
      split at h
      · cases h
      · rename_i changes' hch
        cases h
        refine ⟨rfl, fun d => ?_⟩
        rw [mem_deltaBuckets hch]
        simp only [List.not_mem_nil, false_or, mem_zip_since (parseBuckets_ok hlos)]
        constructor
        · rintro ⟨l, ⟨b, hb, hparse, hl⟩, hd⟩
          obtain ⟨hrange, hseq, hrow⟩ := (RepoStore.mem_deltaRows hs).1 hd
          exact ⟨b, hb, l.1, hparse, (inRange_bucket _ _ _).1 hrange, hl ▸ hseq, hrow⟩
        · rintro ⟨b, hb, lo, hparse, hkey, hseq, hrow⟩
          exact ⟨(lo, since b), ⟨b, hb, hparse, rfl⟩, (RepoStore.mem_deltaRows hs).2
            ⟨(inRange_bucket _ _ _).2 hkey, hseq, hrow⟩⟩

end Server
end Naiad
