import Naiad.Core.Hash

/-!
# Naiad.Core.Bucket

Prefix buckets: the key of a hash, the exclusive upper bound of a bucket, and the law that ties
them together.

* `mem_bucket_iff`: a hash lies between a bucket's key and its upper bound, in text order, exactly
  when it has that key.
* `bucketKey_bucketKey`: keys are fixed points of the masking.
-/

namespace Naiad

open Lib

/-- The hash with its low `256 - bits` bits zeroed. -/
def masked (hash : Hash) (bits : Nat) : Hash :=
  ⟨keepBits hash.bytes (min bits 256 / 8) (min bits 256 % 8), by
    rw [keepBits_length, hash.size]⟩

def bucketKey (hash : Hash) (prefixBits : Nat) : String := (masked hash prefixBits).toHex

/-- The masked hash plus one at its lowest kept bit; `none` past the last bucket. -/
def bucketNext (lo : Hash) (bits : Nat) : Option Hash :=
  (addAt (masked lo bits).bytes (31 - (256 - bits) / 8) (2 ^ ((256 - bits) % 8))).bind
    Hash.ofBytes?

def bucketUpper (lo : Hash) (prefixBits : Nat) : String :=
  if min prefixBits 256 = 0 then "g"
  else
    match bucketNext lo (min prefixBits 256) with
    | none => "g"
    | some next => next.toHex

/-! ## Buckets as numbers -/

/-- The number of hashes in a bucket. -/
def bucketWidth (bits : Nat) : Nat := 2 ^ (256 - min bits 256)

theorem bucketWidth_pos (bits : Nat) : 0 < bucketWidth bits := by
  unfold bucketWidth
  positivity

theorem value_hash_lt (h : Hash) : value h.bytes < 2 ^ 256 := by
  have := value_lt h.bytes
  rw [h.size] at this
  calc value h.bytes < 256 ^ 32 := this
    _ = 2 ^ 256 := by norm_num

theorem hash_lt_iff {a b : Hash} : a < b ↔ value a.bytes < value b.bytes := by
  rw [Hash.lt_def, value_lt_iff (by rw [a.size, b.size])]

theorem hash_le_iff {a b : Hash} : a ≤ b ↔ value a.bytes ≤ value b.bytes := by
  rw [Hash.le_def, value_le_iff (by rw [a.size, b.size])]

theorem hash_ext_value {a b : Hash} (h : value a.bytes = value b.bytes) : a = b :=
  Hash.bytes_injective (value_inj (by rw [a.size, b.size]) h)

theorem value_masked (h : Hash) (bits : Nat) :
    value (masked h bits).bytes =
      value h.bytes / bucketWidth bits * bucketWidth bits := by
  have hmod : min bits 256 / 8 * 8 + min bits 256 % 8 = min bits 256 := by omega
  have hv := value_keepBits h.bytes (min bits 256 / 8) (min bits 256 % 8)
    (Nat.mod_lt _ (by decide)) (by rw [h.size]; omega)
  rw [hmod, h.size] at hv
  exact hv

theorem masked_le (h : Hash) (bits : Nat) : masked h bits ≤ h := by
  rw [hash_le_iff, value_masked]
  exact Nat.div_mul_le_self _ _

/-- Two hashes share a bucket exactly when they agree above the bucket width. -/
theorem masked_eq_iff {a b : Hash} {bits : Nat} :
    masked a bits = masked b bits ↔
      value a.bytes / bucketWidth bits = value b.bytes / bucketWidth bits := by
  constructor
  · intro h
    have hv := congrArg (fun x => value x.bytes) h
    simp only [value_masked] at hv
    exact Nat.eq_of_mul_eq_mul_right (bucketWidth_pos bits) hv
  · intro h
    apply hash_ext_value
    rw [value_masked, value_masked, h]

@[simp] theorem masked_masked (h : Hash) (bits : Nat) :
    masked (masked h bits) bits = masked h bits := by
  rw [masked_eq_iff, value_masked, Nat.mul_div_cancel _ (bucketWidth_pos bits)]

theorem masked_zero (a b : Hash) : masked a 0 = masked b 0 := by
  rw [masked_eq_iff]
  have ha := value_hash_lt a
  have hb := value_hash_lt b
  simp only [bucketWidth, Nat.zero_min, Nat.sub_zero]
  rw [Nat.div_eq_of_lt ha, Nat.div_eq_of_lt hb]

/-- The bucket of `lo` is an interval of numbers. -/
theorem masked_eq_iff_mem {h lo : Hash} {bits : Nat} :
    masked h bits = masked lo bits ↔
      value (masked lo bits).bytes ≤ value h.bytes ∧
        value h.bytes < value (masked lo bits).bytes + bucketWidth bits := by
  have hw := bucketWidth_pos bits
  rw [masked_eq_iff, value_masked, Nat.div_eq_iff hw]
  omega

theorem bucketWidth_eq {bits : Nat} (h1 : 1 ≤ bits) (h2 : bits ≤ 256) :
    bucketWidth bits = 2 ^ ((256 - bits) % 8) * 256 ^ (32 - (31 - (256 - bits) / 8 + 1)) := by
  have h256 : (256 : Nat) = 2 ^ 8 := by norm_num
  have hexp : 32 - (31 - (256 - bits) / 8 + 1) = (256 - bits) / 8 := by omega
  rw [bucketWidth, Nat.min_eq_left h2, hexp]
  conv_rhs => rw [show (256 : Nat) ^ ((256 - bits) / 8) = 2 ^ (8 * ((256 - bits) / 8)) by
    rw [pow_mul]; norm_num]
  rw [← pow_add]
  congr 1
  omega

theorem bucketNext_some {lo next : Hash} {bits : Nat} (h1 : 1 ≤ bits) (h2 : bits ≤ 256)
    (h : bucketNext lo bits = some next) :
    value next.bytes = value (masked lo bits).bytes + bucketWidth bits := by
  unfold bucketNext at h
  rw [Option.bind_eq_some_iff] at h
  obtain ⟨bs, hadd, hof⟩ := h
  rw [Hash.ofBytes?_eq_some hof, value_addAt hadd, (masked lo bits).size, bucketWidth_eq h1 h2]

theorem bucketNext_none {lo : Hash} {bits : Nat} (h1 : 1 ≤ bits) (h2 : bits ≤ 256)
    (h : bucketNext lo bits = none) :
    2 ^ 256 ≤ value (masked lo bits).bytes + bucketWidth bits := by
  unfold bucketNext at h
  have hnone : addAt (masked lo bits).bytes (31 - (256 - bits) / 8)
      (2 ^ ((256 - bits) % 8)) = none := by
    cases hadd : addAt (masked lo bits).bytes (31 - (256 - bits) / 8)
        (2 ^ ((256 - bits) % 8)) with
    | none => rfl
    | some bs =>
      have hlen : bs.length = 32 := by rw [addAt_length hadd, (masked lo bits).size]
      rw [hadd] at h
      simp [Hash.ofBytes?, hlen] at h
  have hle := addAt_eq_none (by rw [(masked lo bits).size]; omega) hnone
  rw [(masked lo bits).size, ← bucketWidth_eq h1 h2] at hle
  calc 2 ^ 256 = 256 ^ 32 := by norm_num
    _ ≤ _ := hle

theorem bucketWidth_min (bits : Nat) : bucketWidth (min bits 256) = bucketWidth bits := by
  simp [bucketWidth]

theorem masked_min (h : Hash) (bits : Nat) : masked h (min bits 256) = masked h bits := by
  simp [masked]

/-- The upper bound is either the sentinel, and the bucket then reaches to the last hash, or the
first hash past the bucket. -/
theorem bucketUpper_cases (lo : Hash) (bits : Nat) :
    (bucketUpper lo bits = "g" ∧
        ∀ h, masked h bits = masked lo bits ↔ masked lo bits ≤ h) ∨
      ∃ next : Hash, bucketUpper lo bits = next.toHex ∧
        ∀ h, masked h bits = masked lo bits ↔ masked lo bits ≤ h ∧ h < next := by
  unfold bucketUpper
  by_cases h0 : min bits 256 = 0
  · left
    have hb : bits = 0 := by omega
    subst hb
    refine ⟨by simp, fun h => ⟨fun he => ?_, fun _ => masked_zero h lo⟩⟩
    rw [← he]
    exact masked_le h 0
  · rw [if_neg h0]
    have h1 : 1 ≤ min bits 256 := by omega
    have h2 : min bits 256 ≤ 256 := by omega
    cases hn : bucketNext lo (min bits 256) with
    | none =>
      left
      have hle := bucketNext_none h1 h2 hn
      rw [masked_min, bucketWidth_min] at hle
      refine ⟨rfl, fun h => ?_⟩
      have hlt := value_hash_lt h
      rw [masked_eq_iff_mem, hash_le_iff]
      omega
    | some next =>
      right
      have hv := bucketNext_some h1 h2 hn
      rw [masked_min, bucketWidth_min] at hv
      refine ⟨next, rfl, fun h => ?_⟩
      rw [masked_eq_iff_mem, hash_le_iff, hash_lt_iff, hv]

/-! ## Buckets as text -/

theorem bucketKey_eq_iff {a b : Hash} {bits : Nat} :
    bucketKey a bits = bucketKey b bits ↔ masked a bits = masked b bits := Hash.toHex_inj

@[simp] theorem parse_bucketKey (h : Hash) (bits : Nat) :
    Hash.parse (bucketKey h bits) = some (masked h bits) := Hash.parse_toHex _

@[simp] theorem bucketKey_masked (h : Hash) (bits : Nat) :
    bucketKey (masked h bits) bits = bucketKey h bits := by
  rw [bucketKey_eq_iff, masked_masked]

@[simp] theorem bucketUpper_masked (lo : Hash) (bits : Nat) :
    bucketUpper (masked lo bits) bits = bucketUpper lo bits := by
  have hnext : bucketNext (masked lo bits) (min bits 256) = bucketNext lo (min bits 256) := by
    have hmasked : masked (masked lo bits) (min bits 256) = masked lo (min bits 256) := by
      rw [masked_min, masked_min, masked_masked]
    rw [bucketNext, bucketNext, hmasked]
  rw [bucketUpper, bucketUpper, hnext]

theorem bucketKey_min (h : Hash) (bits : Nat) : bucketKey h (min bits 256) = bucketKey h bits := by
  rw [bucketKey, masked_min, bucketKey]

theorem bucketUpper_min (lo : Hash) (bits : Nat) :
    bucketUpper lo (min bits 256) = bucketUpper lo bits := by
  rw [bucketUpper, bucketUpper, Nat.min_assoc, Nat.min_self]

/-- A coarser bucket is a whole number of finer ones. -/
theorem bucketWidth_coarser {coarser bits : Nat} (h : coarser ≤ bits) :
    ∃ n, bucketWidth coarser = bucketWidth bits * n := by
  refine ⟨2 ^ (min bits 256 - min coarser 256), ?_⟩
  rw [bucketWidth, bucketWidth, ← pow_add]
  congr 1
  omega

/-- The bucket of a hash holds its finer bucket. -/
theorem bucketKey_coarser {a b : Hash} {coarser bits : Nat} (hle : coarser ≤ bits)
    (h : bucketKey a bits = bucketKey b bits) : bucketKey a coarser = bucketKey b coarser := by
  obtain ⟨n, hn⟩ := bucketWidth_coarser hle
  rw [bucketKey_eq_iff, masked_eq_iff] at h ⊢
  rw [hn, ← Nat.div_div_eq_div_mul, ← Nat.div_div_eq_div_mul, h]

/-- **The partition law.** The hashes between a bucket's key and its upper bound are exactly the
hashes with that key. -/
theorem mem_bucket_iff (h lo : Hash) (bits : Nat) :
    (bucketKey lo bits ≤ h.toHex ∧ h.toHex < bucketUpper lo bits) ↔
      bucketKey h bits = bucketKey lo bits := by
  rw [bucketKey_eq_iff, bucketKey, Hash.toHex_le_iff]
  rcases bucketUpper_cases lo bits with ⟨hu, hmem⟩ | ⟨next, hu, hmem⟩
  · rw [hu, hmem]
    exact and_iff_left h.toHex_lt_sentinel
  · rw [hu, hmem, Hash.toHex_lt_iff]

end Naiad
