import Mathlib.Data.Nat.Bitwise

/-!
# Naiad.Lib.BitMask

Masks of flags: clearing and setting one flag of a bit vector, as `&&& ~~~` and `|||` with a power
of two do.

* `getLsbD_setFlag`: a flag set is the flag read; the others stay.
* `setFlag_comm`: two flags are independent.
-/

namespace Naiad
namespace Lib

variable {w : Nat}

/-- Give one flag of a mask this value. -/
def setFlag (m : BitVec w) (i : Nat) (b : Bool) : BitVec w :=
  (m &&& ~~~BitVec.twoPow w i) ||| (if b then BitVec.twoPow w i else 0)

theorem getLsbD_setFlag (m : BitVec w) {i j : Nat} (b : Bool) (hj : j < w) :
    (setFlag m i b).getLsbD j = if j = i then b else m.getLsbD j := by
  unfold setFlag
  by_cases h : j = i
  · subst h
    cases b <;> simp [hj]
  · cases b <;> simp [hj, h]

theorem ext_flags {m n : BitVec w} (h : ∀ j < w, m.getLsbD j = n.getLsbD j) : m = n :=
  BitVec.eq_of_getLsbD_eq h

theorem or_twoPow (m : BitVec w) (i : Nat) : m ||| BitVec.twoPow w i = setFlag m i true := by
  apply ext_flags
  intro j hj
  rw [getLsbD_setFlag m true hj]
  by_cases h : j = i
  · simp [h ▸ hj, h]
  · have h' : ¬ i = j := fun heq => h heq.symm
    simp [BitVec.getLsbD_twoPow, h, h']

theorem and_not_twoPow (m : BitVec w) (i : Nat) :
    m &&& ~~~BitVec.twoPow w i = setFlag m i false := by
  simp [setFlag]

theorem setFlag_self (m : BitVec w) (i : Nat) : setFlag m i (m.getLsbD i) = m := by
  apply ext_flags
  intro j hj
  rw [getLsbD_setFlag m _ hj]
  split
  · rename_i h
    rw [h]
  · rfl

theorem setFlag_setFlag (m : BitVec w) (i : Nat) (a b : Bool) :
    setFlag (setFlag m i a) i b = setFlag m i b := by
  apply ext_flags
  intro j hj
  rw [getLsbD_setFlag _ b hj, getLsbD_setFlag m b hj, getLsbD_setFlag m a hj]
  split <;> rfl

theorem setFlag_comm (m : BitVec w) {i j : Nat} (h : i ≠ j) (a b : Bool) :
    setFlag (setFlag m i a) j b = setFlag (setFlag m j b) i a := by
  apply ext_flags
  intro k hk
  simp only [getLsbD_setFlag _ _ hk]
  by_cases hi : k = i
  · have hj : ¬ k = j := fun heq => h (hi.symm.trans heq)
    simp [hi, h]
  · simp [hi]

theorem and_twoPow_ne_zero (m : BitVec w) {i : Nat} (hi : i < w) :
    m &&& BitVec.twoPow w i ≠ 0 ↔ m.getLsbD i = true := by
  constructor
  · intro h
    by_contra hf
    apply h
    apply ext_flags
    intro j hj
    by_cases hji : i = j
    · subst hji
      simp at hf
      simp [hf]
    · simp [BitVec.getLsbD_twoPow, hji]
  · intro h hz
    have hbit := congrArg (fun n => n.getLsbD i) hz
    simp only [BitVec.getLsbD_and, h, BitVec.getLsbD_twoPow, hi] at hbit
    simp at hbit

/-- A mask that one cleared flag leaves empty had no other. -/
theorem eq_of_setFlag_false {m : BitVec w} {i : Nat} (h : setFlag m i false = 0) :
    m = 0 ∨ m = BitVec.twoPow w i := by
  have hself := setFlag_self m i
  rw [← setFlag_setFlag m i false, h] at hself
  cases hb : m.getLsbD i with
  | false =>
    rw [hb] at hself
    left
    rw [← hself]
    simp [setFlag]
  | true =>
    rw [hb] at hself
    right
    rw [← hself]
    simp [setFlag]

end Lib
end Naiad
