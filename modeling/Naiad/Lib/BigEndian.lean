import Mathlib.Data.Fin.Basic
import Mathlib.Data.List.Lex
import Mathlib.Order.Fin.Basic
import Mathlib.Tactic.Ring
import Mathlib.Tactic.IntervalCases
import Mathlib.Tactic.Linarith

/-!
# Naiad.Lib.BigEndian

Big-endian byte strings read as numbers.

* `value_lt_iff`: between byte strings of one length, the `memcmp` order is the numeric one.
* `value_keepBits`: zeroing the low bits rounds down to a multiple of a power of two.
* `value_addAt`: adding at a bit position with a carry loop is addition, until it overflows.
-/

namespace Naiad
namespace Lib

abbrev Byte := Fin 256

instance neZero_byte : NeZero 256 := ⟨by decide⟩

/-- The number a big-endian byte string denotes. -/
def value : List Byte → Nat
  | [] => 0
  | b :: bs => b.val * 256 ^ bs.length + value bs

@[simp] theorem value_nil : value [] = 0 := rfl

theorem value_cons (b : Byte) (bs : List Byte) :
    value (b :: bs) = b.val * 256 ^ bs.length + value bs := rfl

theorem value_lt (bs : List Byte) : value bs < 256 ^ bs.length := by
  induction bs with
  | nil => simp
  | cons b bs ih =>
    have hb : b.val + 1 ≤ 256 := b.isLt
    calc value (b :: bs) < (b.val + 1) * 256 ^ bs.length := by rw [value_cons]; linarith
      _ ≤ 256 * 256 ^ bs.length := Nat.mul_le_mul_right _ hb
      _ = 256 ^ (b :: bs).length := by rw [List.length_cons, pow_succ]; ring

theorem value_append (as bs : List Byte) :
    value (as ++ bs) = value as * 256 ^ bs.length + value bs := by
  induction as with
  | nil => simp
  | cons a as ih =>
    rw [List.cons_append, value_cons, value_cons, ih, List.length_append, pow_add]
    ring

@[simp] theorem value_replicate_zero (n : Nat) : value (List.replicate n 0) = 0 := by
  induction n with
  | zero => rfl
  | succ n ih => rw [List.replicate_succ, value_cons, ih]; simp

/-- Between byte strings of one length the lexicographic order is the numeric order. -/
theorem value_lt_iff {as bs : List Byte} (h : as.length = bs.length) :
    value as < value bs ↔ as < bs := by
  induction as generalizing bs with
  | nil =>
    cases bs with
    | nil => simp
    | cons b bs => simp at h
  | cons a as ih =>
    cases bs with
    | nil => simp at h
    | cons b bs =>
      have hlen : as.length = bs.length := by simpa using h
      have ha := value_lt as
      have hb := value_lt bs
      rw [List.cons_lt_cons_iff, value_cons, value_cons, ← ih hlen, hlen]
      rw [hlen] at ha
      rcases lt_trichotomy a b with hab | hab | hab
      · have : a.val + 1 ≤ b.val := hab
        have := Nat.mul_le_mul_right (256 ^ bs.length) this
        have hlt : a.val * 256 ^ bs.length + value as < b.val * 256 ^ bs.length + value bs := by
          linarith
        exact ⟨fun _ => .inl hab, fun _ => hlt⟩
      · subst hab
        simp
      · have : b.val + 1 ≤ a.val := hab
        have := Nat.mul_le_mul_right (256 ^ bs.length) this
        have hle : b.val * 256 ^ bs.length + value bs < a.val * 256 ^ bs.length + value as := by
          linarith
        constructor
        · intro hlt
          omega
        · rintro (hlt | ⟨heq, _⟩)
          · exact absurd hlt (lt_asymm hab)
          · exact absurd heq (ne_of_gt hab)

theorem value_le_iff {as bs : List Byte} (h : as.length = bs.length) :
    value as ≤ value bs ↔ as ≤ bs := by
  rw [← not_lt, value_lt_iff h.symm, not_lt]

theorem value_inj {as bs : List Byte} (h : as.length = bs.length) (hv : value as = value bs) :
    as = bs :=
  le_antisymm ((value_le_iff h).1 hv.le) ((value_le_iff h.symm).1 hv.ge)

/-! ## Keeping the leading bits -/

/-- The byte whose leading `rem` bits are set, as `0xFF << (8 - rem)` computes it. -/
def highMask (rem : Nat) : Byte := Fin.ofNat 256 (255 <<< (8 - rem))

/-- Keep the leading `full * 8 + rem` bits of a byte string and zero the others. -/
def keepBits (bs : List Byte) (full rem : Nat) : List Byte :=
  match bs.drop full with
  | [] => bs
  | b :: rest =>
    bs.take full ++ (if rem > 0 then b &&& highMask rem else 0) :: rest.map fun _ => 0

theorem mask_byte (b : Byte) {rem : Nat} (h0 : 0 < rem) (h8 : rem < 8) :
    (b &&& highMask rem).val = b.val / 2 ^ (8 - rem) * 2 ^ (8 - rem) := by
  interval_cases rem <;> revert b <;> decide +kernel

theorem keepBits_length (bs : List Byte) (full rem : Nat) :
    (keepBits bs full rem).length = bs.length := by
  unfold keepBits
  split
  · rfl
  · rename_i b rest hd
    have := congrArg List.length hd
    simp at this
    simp
    omega

/-- Zeroing all but the leading bits rounds down to a multiple of their weight. -/
theorem value_keepBits (bs : List Byte) (full rem : Nat) (h8 : rem < 8)
    (hlen : full * 8 + rem ≤ bs.length * 8) :
    value (keepBits bs full rem) =
      value bs / 2 ^ (bs.length * 8 - (full * 8 + rem)) *
        2 ^ (bs.length * 8 - (full * 8 + rem)) := by
  unfold keepBits
  split
  · rename_i hd
    have hfull : bs.length ≤ full := by simpa using hd
    have : bs.length * 8 - (full * 8 + rem) = 0 := by omega
    simp [this]
  · rename_i b rest hd
    have hl := congrArg List.length hd
    simp at hl
    have hbs : bs = bs.take full ++ b :: rest := by rw [← hd, List.take_append_drop]
    have hv : value bs = value (bs.take full) * 256 ^ (rest.length + 1) +
        (b.val * 256 ^ rest.length + value rest) := by
      conv_lhs => rw [hbs]
      rw [value_append, List.length_cons, value_cons]
    -- the dropped bits are `8 - rem` of byte `b` and all of `rest`
    have hexp : bs.length * 8 - (full * 8 + rem) = 8 - rem + 8 * rest.length := by omega
    have h256 : (256 : Nat) ^ rest.length = 2 ^ (8 * rest.length) := by
      rw [pow_mul]; norm_num
    have hdiv : value bs / 2 ^ (8 - rem + 8 * rest.length) =
        value (bs.take full) * 2 ^ rem + b.val / 2 ^ (8 - rem) := by
      have hrest := value_lt rest
      rw [h256] at hrest
      rw [add_comm (8 - rem), pow_add, ← Nat.div_div_eq_div_mul, hv, pow_succ, h256]
      have : value (bs.take full) * (2 ^ (8 * rest.length) * 256) +
          (b.val * 2 ^ (8 * rest.length) + value rest) =
          value rest + (value (bs.take full) * 256 + b.val) * 2 ^ (8 * rest.length) := by ring
      rw [this, Nat.add_mul_div_right _ _ (by positivity), Nat.div_eq_of_lt hrest, Nat.zero_add]
      have h8' : value (bs.take full) * 256 + b.val =
          b.val + value (bs.take full) * 2 ^ rem * 2 ^ (8 - rem) := by
        rw [mul_assoc, ← pow_add, Nat.add_sub_cancel' (by omega)]
        ring
      rw [h8', Nat.add_mul_div_right _ _ (by positivity), add_comm]
    have hbyte : (if rem > 0 then b &&& highMask rem else 0).val =
        b.val / 2 ^ (8 - rem) * 2 ^ (8 - rem) := by
      split
      · exact mask_byte b (by assumption) h8
      · have h0 : rem = 0 := by omega
        have := b.isLt
        subst h0
        simp [Nat.div_eq_of_lt this]
    rw [hexp, hdiv, value_append, value_cons, hbyte]
    simp only [List.length_cons, List.length_map]
    have hz : value (rest.map fun _ => (0 : Byte)) = 0 := by simp
    have h8' : 2 ^ rem * 2 ^ (8 - rem) = 256 := by
      rw [← pow_add, Nat.add_sub_cancel' (by omega)]
      norm_num
    have htop : value (bs.take full) * (2 ^ (8 * rest.length) * 256) =
        value (bs.take full) * (2 ^ (8 * rest.length) * (2 ^ rem * 2 ^ (8 - rem))) := by rw [h8']
    rw [hz, pow_succ, h256, pow_add, htop]
    ring

/-! ## Adding with a carry loop -/

/-- Add `carry` to a little-endian byte string: the digits, and what is carried out of them. -/
def addCarry : List Byte → Nat → List Byte × Nat
  | [], carry => ([], carry)
  | b :: bs, carry =>
    let v := b.val + carry
    let out := addCarry bs (v / 256)
    (Fin.ofNat 256 v :: out.1, out.2)

theorem addCarry_length (bs : List Byte) (carry : Nat) :
    (addCarry bs carry).1.length = bs.length := by
  induction bs generalizing carry with
  | nil => rfl
  | cons b bs ih => simp [addCarry, ih]

theorem value_addCarry (bs : List Byte) (carry : Nat) :
    value (addCarry bs carry).1.reverse + (addCarry bs carry).2 * 256 ^ bs.length =
      value bs.reverse + carry := by
  induction bs generalizing carry with
  | nil => simp [addCarry]
  | cons b bs ih =>
    have h := ih ((b.val + carry) / 256)
    have hdm := Nat.div_add_mod (b.val + carry) 256
    simp only [addCarry, List.reverse_cons, value_append, List.length_cons, value_cons,
      List.length_nil, value_nil, Fin.ofNat, pow_succ, pow_zero]
    generalize hout : addCarry bs ((b.val + carry) / 256) = out at h ⊢
    linarith

/-- Add `carry` at byte `idx`, carrying towards the front; `none` when it overflows the front. -/
def addAt (bs : List Byte) (idx carry : Nat) : Option (List Byte) :=
  if (addCarry (bs.take (idx + 1)).reverse carry).2 > 0 then none
  else some ((addCarry (bs.take (idx + 1)).reverse carry).1.reverse ++ bs.drop (idx + 1))

theorem addAt_length {bs bs' : List Byte} {idx carry : Nat} (h : addAt bs idx carry = some bs') :
    bs'.length = bs.length := by
  unfold addAt at h
  split at h
  · cases h
  · cases h
    simp [addCarry_length]
    omega

/-- A carry loop that does not overflow adds `carry` at the weight of its byte. -/
theorem value_addAt {bs bs' : List Byte} {idx carry : Nat} (h : addAt bs idx carry = some bs') :
    value bs' = value bs + carry * 256 ^ (bs.length - (idx + 1)) := by
  unfold addAt at h
  split at h
  · cases h
  · rename_i hc
    cases h
    have hv := value_addCarry (bs.take (idx + 1)).reverse carry
    have h0 : (addCarry (bs.take (idx + 1)).reverse carry).2 = 0 := by omega
    rw [h0, List.reverse_reverse] at hv
    have hsplit := value_append (bs.take (idx + 1)) (bs.drop (idx + 1))
    rw [List.take_append_drop] at hsplit
    have hv' : value (addCarry (bs.take (idx + 1)).reverse carry).1.reverse =
        value (bs.take (idx + 1)) + carry := by omega
    rw [value_append, hv', hsplit, List.length_drop]
    ring

/-- A carry loop overflows only when the sum does not fit in the byte string. -/
theorem addAt_eq_none {bs : List Byte} {idx carry : Nat} (hidx : idx < bs.length)
    (h : addAt bs idx carry = none) :
    256 ^ bs.length ≤ value bs + carry * 256 ^ (bs.length - (idx + 1)) := by
  unfold addAt at h
  split at h
  · rename_i hc
    have hv := value_addCarry (bs.take (idx + 1)).reverse carry
    have hsplit := value_append (bs.take (idx + 1)) (bs.drop (idx + 1))
    rw [List.take_append_drop, List.length_drop] at hsplit
    have hlen : (bs.take (idx + 1)).reverse.length = idx + 1 := by simp; omega
    rw [hlen, List.reverse_reverse] at hv
    have hone : 256 ^ (idx + 1) ≤ value (bs.take (idx + 1)) + carry := by
      calc 256 ^ (idx + 1) ≤ (addCarry (bs.take (idx + 1)).reverse carry).2 * 256 ^ (idx + 1) :=
            Nat.le_mul_of_pos_left _ hc
        _ ≤ value (bs.take (idx + 1)) + carry := by omega
    have hpow : 256 ^ bs.length = 256 ^ (idx + 1) * 256 ^ (bs.length - (idx + 1)) := by
      rw [← pow_add, Nat.add_sub_cancel' hidx]
    have hmul := Nat.mul_le_mul_right (256 ^ (bs.length - (idx + 1))) hone
    rw [hpow, hsplit]
    calc _ ≤ _ := hmul
      _ ≤ _ := by rw [add_mul]; omega
  · cases h

end Lib
end Naiad
