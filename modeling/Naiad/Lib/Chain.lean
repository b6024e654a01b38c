import Mathlib.Dynamics.PeriodicPts.Defs
import Mathlib.Logic.Relation
import Mathlib.Order.Bounds.Basic

/-!
# Naiad.Lib.Chain

Chains of a partial function: from any element the chain either ends or runs into a cycle. The
representative of an element is the end of its chain, or the least element of the cycle.

* `Represents.unique`: an element has one representative.
* `Represents.self`: a representative represents itself.
* `Represents.eq_end`, `Represents.isLeast`: which element it is.
* `OnCycle.next_walk`, `OnCycle.period_le`: a walk round a cycle and the number of its steps.
-/

namespace Naiad
namespace Lib
namespace Chain

open Relation

variable {α : Type}

/-- Some number of steps along the chain, possibly none. -/
def Reaches (next : α → Option α) : α → α → Prop := ReflTransGen fun a b => next a = some b

def OnCycle (next : α → Option α) (a : α) : Prop := TransGen (fun a b => next a = some b) a a

/-- The elements of the cycle through `c`. -/
def cycle (next : α → Option α) (c : α) : Set α := {d | Reaches next c d ∧ Reaches next d c}

section Cycle

variable {next : α → Option α} {a b c d : α}

theorem rightUnique (next : α → Option α) :
    Relator.RightUnique fun a b => next a = some b := by
  intro a b c hb hc
  exact Option.some_inj.1 (hb.symm.trans hc)

theorem Reaches.eq_of_end (h : Reaches next a b) (hend : next a = none) : b = a := by
  rcases ReflTransGen.cases_head h with rfl | ⟨c, hc, _⟩
  · rfl
  · rw [hend] at hc
    cases hc

/-- A cycle has no way out. -/
theorem OnCycle.back (hc : OnCycle next c) (h : Reaches next c d) :
    TransGen (fun a b => next a = some b) d c := by
  induction h with
  | refl => exact hc
  | tail _ hde ih =>
    obtain ⟨e', he', hrest⟩ := TransGen.head'_iff.1 ih
    rw [rightUnique next hde he']
    rcases reflTransGen_iff_eq_or_transGen.1 hrest with rfl | htrans
    · exact hc
    · exact htrans

theorem OnCycle.of_reaches (hc : OnCycle next c) (h : Reaches next c d) : OnCycle next d :=
  (hc.back h).trans_left h

theorem OnCycle.next_eq (hc : OnCycle next c) : next c = some ((next c).getD c) := by
  obtain ⟨d, hd, _⟩ := TransGen.head'_iff.1 hc
  rw [hd, Option.getD_some]

/-- `k` steps along the chain, staying put at its end. -/
def walk (next : α → Option α) (k : Nat) (a : α) : α := (fun x => (next x).getD x)^[k] a

theorem walk_succ (k : Nat) (a : α) :
    walk next (k + 1) a = (next (walk next k a)).getD (walk next k a) :=
  Function.iterate_succ_apply' _ _ _

theorem Reaches.walk (h : Reaches next a b) : ∃ k, walk next k a = b := by
  induction h with
  | refl => exact ⟨0, rfl⟩
  | tail _ hbc ih =>
    obtain ⟨k, rfl⟩ := ih
    refine ⟨k + 1, ?_⟩
    rw [walk_succ, hbc, Option.getD_some]

theorem OnCycle.reaches_walk (hc : OnCycle next c) (k : Nat) :
    Reaches next c (Chain.walk next k c) := by
  induction k with
  | zero => exact .refl
  | succ k ih =>
    rw [walk_succ]
    exact ih.tail (hc.of_reaches ih).next_eq

theorem OnCycle.next_walk (hc : OnCycle next c) (k : Nat) :
    next (Chain.walk next k c) = some (Chain.walk next (k + 1) c) := by
  rw [walk_succ]
  exact (hc.of_reaches (hc.reaches_walk k)).next_eq

/-- The period of the cycle an element lies on. -/
noncomputable def period (next : α → Option α) (c : α) : Nat :=
  Function.minimalPeriod (fun x => (next x).getD x) c

theorem walk_period (next : α → Option α) (c : α) : Chain.walk next (period next c) c = c :=
  Function.iterate_minimalPeriod

theorem walk_mod {k : Nat} (h : Chain.walk next k c = c) (m : Nat) :
    Chain.walk next (m % k) c = Chain.walk next m c :=
  Function.IsPeriodicPt.iterate_mod_apply h m

theorem OnCycle.period_pos (hc : OnCycle next c) : 0 < period next c := by
  obtain ⟨d, hd, hrest⟩ := TransGen.head'_iff.1 hc
  obtain ⟨k, hk⟩ := Reaches.walk hrest
  refine Function.IsPeriodicPt.minimalPeriod_pos (n := k + 1) (by omega) ?_
  show (fun x => (next x).getD x)^[k + 1] c = c
  rw [Function.iterate_succ_apply, hd, Option.getD_some]
  exact hk

/-- The elements of a cycle are all keys, so its period is at most their number. -/
theorem OnCycle.period_le [DecidableEq α] (hc : OnCycle next c) {keys : Finset α}
    (hkeys : ∀ a b, next a = some b → a ∈ keys) : period next c ≤ keys.card := by
  rw [← Finset.card_range (period next c)]
  refine Finset.card_le_card_of_injOn (fun k => Chain.walk next k c) ?_ ?_
  · intro k _
    exact hkeys _ _ (hc.next_walk k)
  · intro i hi j hj h
    exact Function.iterate_injOn_Iio_minimalPeriod (by simpa [period] using hi)
      (by simpa [period] using hj) h

end Cycle

section Represents

variable [PartialOrder α] {next : α → Option α} {a b c d : α}

/-- The end of the chain from `a`, or the least element of the cycle it runs into. -/
def Represents (next : α → Option α) (a c : α) : Prop :=
  Reaches next a c ∧ (next c = none ∨ (OnCycle next c ∧ ∀ d, Reaches next c d → c ≤ d))

theorem Represents.self (h : Represents next a c) : Represents next c c := ⟨.refl, h.2⟩

theorem Represents.of_end (h : next a = none) : Represents next a a := ⟨.refl, .inl h⟩

theorem Represents.of_next (h : Represents next b c) (hab : next a = some b) :
    Represents next a c :=
  ⟨ReflTransGen.head hab h.1, h.2⟩

theorem Represents.eq_of_reaches (hc : Represents next a c) (hd : Represents next a d)
    (h : Reaches next c d) : c = d := by
  rcases hc.2 with hend | ⟨hcyc, hmin⟩
  · exact (h.eq_of_end hend).symm
  · have hback : Reaches next d c := (hcyc.back h).to_reflTransGen
    rcases hd.2 with hend | ⟨_, hmin'⟩
    · exact hback.eq_of_end hend
    · exact le_antisymm (hmin d h) (hmin' c hback)

theorem Represents.unique (hc : Represents next a c) (hd : Represents next a d) : c = d := by
  rcases ReflTransGen.total_of_right_unique (rightUnique next) hc.1 hd.1 with h | h
  · exact hc.eq_of_reaches hd h
  · exact (hd.eq_of_reaches hc h).symm

/-- A chain that ends is represented by its end. -/
theorem Represents.eq_end (h : Represents next a c) (hd : Reaches next a d)
    (hend : next d = none) : c = d :=
  h.unique ⟨hd, .inl hend⟩

/-- A chain that runs into a cycle is represented by the least element of the cycle, wherever the
chain enters it. -/
theorem Represents.isLeast (h : Represents next a c) (hd : Reaches next a d)
    (hcyc : OnCycle next d) : IsLeast (cycle next d) c := by
  have hdc : Reaches next d c := by
    rcases ReflTransGen.total_of_right_unique (rightUnique next) hd h.1 with hdc | hcd
    · exact hdc
    · rcases h.2 with hend | ⟨hcyc', _⟩
      · rw [Reaches.eq_of_end hcd hend]
        exact .refl
      · exact (hcyc'.back hcd).to_reflTransGen
  have hback : Reaches next c d := (hcyc.back hdc).to_reflTransGen
  refine ⟨⟨hdc, hback⟩, ?_⟩
  rintro e ⟨hde, _⟩
  rcases h.2 with hend | ⟨_, hmin⟩
  · obtain ⟨_, hnext, _⟩ := TransGen.head'_iff.1 (hcyc.of_reaches hdc)
    rw [hend] at hnext
    cases hnext
  · exact hmin e (hback.trans hde)

end Represents

end Chain
end Lib
end Naiad
