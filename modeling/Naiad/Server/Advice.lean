import Naiad.Server.Domain

/-!
# Naiad.Server.Advice

The prefix advice over 64-bit words: its division and its logarithm panic at zero, as the
program's do, and on no input does the advice come to that.

* `adviseWord_eq`: over words the advice is that over numbers.
* `adviseWord_crowd`: **the advice is the finest prefix whose average bucket holds a crowd**.
-/

namespace Naiad
namespace Server

open Netproto

/-- `u64 / u64` -/
def divWord (a b : UInt64) : Option UInt64 := if b = 0 then none else some (a / b)

/-- `u64::ilog2`, a `u32`. -/
def ilog2 (n : UInt64) : Option UInt32 :=
  if n = 0 then none else some (UInt32.ofNat (Nat.log2 n.toNat))

/-- `advise`, and `none` for a panic. -/
def adviseWord (count k : UInt64) : Option PullMode :=
  if k = 0 ∨ count < k then some .wholeRepo
  else do
    let quotient ← divWord count k
    let bits ← ilog2 quotient
    if bits = 0 then some .wholeRepo else some (.bucketed bits.toNat)

/-! ## Over numbers -/

theorem advise_bucketed_iff {count k b : Nat} :
    advise count k = .bucketed b ↔ 1 ≤ b ∧ k * 2 ^ b ≤ count ∧ count < k * 2 ^ (b + 1) := by
  unfold advise
  by_cases hsmall : k = 0 ∨ count < k
  · rw [if_pos hsmall]
    refine iff_of_false nofun ?_
    intro ⟨_, hle, hlt⟩
    rcases hsmall with rfl | hcount
    · omega
    · have hpos : 0 < 2 ^ b := Nat.two_pow_pos b
      have hk : k * 1 ≤ k * 2 ^ b := Nat.mul_le_mul_left k hpos
      omega
  · obtain ⟨hk, hcount⟩ : 0 < k ∧ k ≤ count := by omega
    have hquot : count / k ≠ 0 := (Nat.div_pos hcount hk).ne'
    have hbits : Nat.log2 (count / k) = b ↔ k * 2 ^ b ≤ count ∧ count < k * 2 ^ (b + 1) := by
      rw [Nat.log2_eq_iff hquot, Nat.le_div_iff_mul_le hk, Nat.div_lt_iff_lt_mul hk,
        Nat.mul_comm k, Nat.mul_comm k]
    rw [if_neg hsmall, ← hbits]
    by_cases hzero : Nat.log2 (count / k) = 0
    · rw [if_pos hzero]
      refine iff_of_false nofun ?_
      omega
    · rw [if_neg hzero, PullMode.bucketed.injEq]
      omega

theorem advise_wholeRepo_iff {count k : Nat} :
    advise count k = .wholeRepo ↔ k = 0 ∨ count < 2 * k := by
  unfold advise
  by_cases hsmall : k = 0 ∨ count < k
  · rw [if_pos hsmall]
    refine iff_of_true rfl ?_
    omega
  · obtain ⟨hk, hcount⟩ : 0 < k ∧ k ≤ count := by omega
    have hquot : count / k ≠ 0 := (Nat.div_pos hcount hk).ne'
    have hone : 2 ^ 0 ≤ count / k := Nat.div_pos hcount hk
    have hzero : Nat.log2 (count / k) = 0 ↔ count < 2 * k := by
      rw [Nat.log2_eq_iff hquot, and_iff_right hone, Nat.div_lt_iff_lt_mul hk]
    rw [if_neg hsmall]
    by_cases hbits : Nat.log2 (count / k) = 0
    · rw [if_pos hbits]
      exact iff_of_true rfl (.inr (hzero.1 hbits))
    · rw [if_neg hbits]
      refine iff_of_false nofun ?_
      omega

/-! ## Over words -/

theorem ilog2_toNat {n : UInt64} (hn : n ≠ 0) :
    ∃ bits, ilog2 n = some bits ∧ bits.toNat = Nat.log2 n.toNat := by
  refine ⟨_, if_neg hn, ?_⟩
  have hne : n.toNat ≠ 0 := by
    intro h
    exact hn (UInt64.toNat_inj.1 h)
  have hlt : Nat.log2 n.toNat < 64 := (Nat.log2_lt hne).2 n.toNat_lt
  rw [UInt32.toNat_ofNat']
  omega

/-- Neither the division nor the logarithm is ever of zero. -/
theorem adviseWord_eq (count k : UInt64) :
    adviseWord count k = some (advise count.toNat k.toNat) := by
  have hk : k = 0 ↔ k.toNat = 0 := UInt64.toNat_inj.symm
  unfold adviseWord advise
  by_cases hsmall : k = 0 ∨ count < k
  · rw [if_pos hsmall, if_pos (by rwa [← hk, ← UInt64.lt_iff_toNat_lt])]
  · rw [if_neg hsmall, if_neg (by rwa [← hk, ← UInt64.lt_iff_toNat_lt])]
    obtain ⟨hne, hle⟩ := not_or.1 hsmall
    have hdiv : (count / k).toNat = count.toNat / k.toNat := UInt64.toNat_div count k
    have hquot : count / k ≠ 0 := by
      intro h
      have hpos : 0 < count.toNat / k.toNat :=
        Nat.div_pos (UInt64.le_iff_toNat_le.1 (UInt64.not_lt.1 hle))
          (Nat.pos_of_ne_zero (hk.not.1 hne))
      rw [← hdiv, h] at hpos
      exact absurd hpos (Nat.lt_irrefl 0)
    obtain ⟨bits, hbits, hnat⟩ := ilog2_toNat hquot
    have hzero : bits = 0 ↔ Nat.log2 (count.toNat / k.toNat) = 0 := by
      rw [← hdiv, ← hnat]
      exact UInt32.toNat_inj.symm
    simp only [divWord, if_neg hne, Option.bind_eq_bind, Option.bind_some, hbits, hzero, hnat, hdiv]
    split <;> rfl

/-- **For every repository size and every crowd the advice comes without a panic: `b` bits just in
case a bucket of the average size at `b` bits holds the crowd and one at `b + 1` bits does not, and
the whole repository just in case there is no crowd or fewer than two.** -/
theorem adviseWord_crowd (count k : UInt64) :
    ∃ mode, adviseWord count k = some mode ∧
      (∀ b, mode = .bucketed b ↔
        1 ≤ b ∧ k.toNat * 2 ^ b ≤ count.toNat ∧ count.toNat < k.toNat * 2 ^ (b + 1)) ∧
      (mode = .wholeRepo ↔ k.toNat = 0 ∨ count.toNat < 2 * k.toNat) :=
  ⟨_, adviseWord_eq count k, fun _ => advise_bucketed_iff, advise_wholeRepo_iff⟩

example : adviseWord 2000 1000 = some (.bucketed 1) := by decide

end Server
end Naiad
