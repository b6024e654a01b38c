import Mathlib.Algebra.Order.Floor.Ring
import Mathlib.Algebra.Order.Field.Basic
import Mathlib.Tactic.Linarith
import Mathlib.Tactic.Ring

/-!
# Naiad.Lib.Strips

Strips of one width, laid out along a line at one stride, the strip `c` starting at `c * stride`.

* `strip_meets_iff`: the strips an interval meets are consecutive.
* `strip_window`: the strips between two bounds, from where a window starts and how long it is.
* `strip_div`: an index in rows of `columns` is found from its row and column.
-/

namespace Naiad
namespace Lib

variable {K : Type} [Field K] [LinearOrder K] {stride width lo hi : K} {c : ℤ}

/-- A position is its strip and the part of the strip before it. -/
theorem strip_position (hs : 0 < stride) (pos : K) (c : ℤ) :
    (c + (pos / stride - c)) * stride = pos := by
  rw [add_sub_cancel, div_mul_cancel₀ _ hs.ne']

variable [IsStrictOrderedRing K] [FloorRing K]

theorem strip_le_iff (hs : 0 < stride) : c * stride ≤ hi ↔ c ≤ ⌊hi / stride⌋ := by
  rw [Int.le_floor, le_div_iff₀ hs]

theorem le_strip_iff (hs : 0 < stride) :
    lo ≤ c * stride + width ↔ ⌈(lo - width) / stride⌉ ≤ c := by
  rw [Int.ceil_le, div_le_iff₀ hs, sub_le_iff_le_add]

theorem strip_meets_iff (hs : 0 < stride) :
    (lo ≤ c * stride + width ∧ c * stride ≤ hi) ↔
      ⌈(lo - width) / stride⌉ ≤ c ∧ c ≤ ⌊hi / stride⌋ := by
  rw [le_strip_iff hs, strip_le_iff hs]

/-- Strips side by side: those a window of length `len` at `lo` meets are at most one before the
strip it starts in, and at most as many after as it takes to cover its length. -/
theorem strip_window {len : K} (hs : 0 < stride) (hlo : lo ≤ c * stride + stride)
    (hhi : c * stride ≤ lo + len) :
    ⌊lo / stride⌋ - 1 ≤ c ∧ c ≤ ⌊lo / stride⌋ + ⌈len / stride⌉ := by
  constructor
  · have hfloor : (⌊lo / stride⌋ : K) ≤ lo / stride := Int.floor_le _
    have hdiv : lo / stride ≤ c + 1 := by
      rw [div_le_iff₀ hs]
      linarith
    have hcast : (⌊lo / stride⌋ : K) ≤ ((c + 1 : ℤ) : K) := by
      push_cast
      linarith
    have := Int.cast_le.1 hcast
    omega
  · have hfloor : lo / stride < ⌊lo / stride⌋ + 1 := Int.lt_floor_add_one _
    have hceil : len / stride ≤ ⌈len / stride⌉ := Int.le_ceil _
    have hdiv : (c : K) ≤ lo / stride + len / stride := by
      rw [← add_div, le_div_iff₀ hs]
      exact hhi
    have hcast : (c : K) < ((⌊lo / stride⌋ + 1 + ⌈len / stride⌉ : ℤ) : K) := by
      push_cast
      linarith
    have := Int.cast_lt.1 hcast
    omega

/-! ## Rows of strips -/

theorem floor_div_eq {i columns : ℤ} (hc : 0 < columns) :
    ⌊(i : K) / columns⌋ = i / columns := by
  have hcast : (0 : K) < columns := Int.cast_pos.2 hc
  rw [Int.floor_eq_iff]
  have hdiv : i = columns * (i / columns) + i % columns := (Int.mul_ediv_add_emod i columns).symm
  have hnonneg := Int.emod_nonneg i hc.ne'
  have hlt := Int.emod_lt_of_pos i hc
  constructor
  · rw [le_div_iff₀ hcast]
    have : i / columns * columns ≤ i := by linarith
    exact_mod_cast this
  · rw [div_lt_iff₀ hcast]
    have : i < (i / columns + 1) * columns := by linarith
    exact_mod_cast this

theorem strip_div {r c columns : ℤ} (h0 : 0 ≤ c) (hc : c < columns) :
    (r * columns + c) / columns = r ∧ (r * columns + c) % columns = c := by
  have hpos : 0 < columns := by omega
  rw [Int.mul_comm]
  constructor
  · rw [Int.mul_add_ediv_left _ _ hpos.ne', Int.ediv_eq_zero_of_lt h0 hc, add_zero]
  · rw [Int.mul_add_emod_self_left, Int.emod_eq_of_lt h0 hc]

/-- The rows it takes for `n` indices. -/
theorem div_lt_rows {i n columns : ℤ} (hc : 0 < columns) (hi : i < n) :
    i / columns < ⌈(n : K) / columns⌉ := by
  have hcast : (0 : K) < columns := Int.cast_pos.2 hc
  rw [Int.lt_ceil, lt_div_iff₀ hcast]
  have hle : i / columns * columns ≤ i := Int.ediv_mul_le i hc.ne'
  exact_mod_cast hle.trans_lt hi

end Lib
end Naiad
