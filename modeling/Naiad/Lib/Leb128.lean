import Naiad.Lib.BigEndian
import Mathlib.Data.Nat.Bitwise

/-!
# Naiad.Lib.Leb128

Numbers in groups of seven bits, the lowest first. Every byte but the last has its high bit set.

* `Leb`: the byte strings that spell one number, `lebValue` the number.
* `or_shiftLeft`: a group set above the bits read so far adds to them.
-/

namespace Naiad
namespace Lib

def lebValue : List Byte → Nat
  | [] => 0
  | b :: bs => b.val % 128 + 128 * lebValue bs

inductive Leb : List Byte → Prop
  | last {b : Byte} : b.val < 128 → Leb [b]
  | more {b : Byte} {bs : List Byte} : 128 ≤ b.val → Leb bs → Leb (b :: bs)

@[simp] theorem lebValue_cons (b : Byte) (bs : List Byte) :
    lebValue (b :: bs) = b.val % 128 + 128 * lebValue bs := rfl

@[simp] theorem lebValue_singleton (b : Byte) : lebValue [b] = b.val % 128 := rfl

theorem Leb.length_pos {bs : List Byte} (h : Leb bs) : 0 < bs.length := by
  cases h <;> simp

theorem Leb.cons_inv {b : Byte} {bs : List Byte} (h : Leb (b :: bs)) :
    b.val < 128 ∧ bs = [] ∨ 128 ≤ b.val ∧ Leb bs := by
  cases h with
  | last hb => exact .inl ⟨hb, rfl⟩
  | more hb hbs => exact .inr ⟨hb, hbs⟩

theorem and_seven (n : Nat) : n &&& 0x7f = n % 128 := Nat.and_two_pow_sub_one_eq_mod n 7

theorem shiftRight_seven (n : Nat) : n >>> 7 = n / 128 := Nat.shiftRight_eq_div_pow n 7

theorem or_high {n : Nat} (h : n < 128) : n ||| 0x80 = n + 128 := by
  have hadd := Nat.two_pow_add_eq_or_of_lt (i := 7) h 1
  calc n ||| 0x80 = 2 ^ 7 * 1 ||| n := Nat.or_comm _ _
    _ = n + 128 := by omega

theorem and_high_eq_zero (b : Byte) : b.val &&& 0x80 = 0 ↔ b.val < 128 := by
  have hbit : b.val &&& 0x80 = (b.val.testBit 7).toNat * 128 := Nat.and_two_pow b.val 7
  rw [hbit, Nat.toNat_testBit]
  omega

theorem or_shiftLeft {low : Nat} (shift high : Nat) (h : low < 2 ^ shift) :
    low ||| high <<< shift = low + 2 ^ shift * high := by
  rw [Nat.shiftLeft_eq, Nat.or_comm, Nat.mul_comm high, ← Nat.two_pow_add_eq_or_of_lt h high]
  omega

end Lib
end Naiad
