import Mathlib.Init
/-!
# Naiad.Lib.Loop

A loop that runs a step until it stops, bounded by fuel, with the two rules that discharge it: an
invariant gives the postcondition, and a measure that decreases gives a result.
-/

namespace Naiad
namespace Lib

inductive Outcome (S R : Type) where
  | running (s : S)
  | stopped (r : R)

variable {S R : Type}

/-- Step until the outcome is a result; `none` when the fuel runs out first. -/
def loop (step : S → Outcome S R) : Nat → S → Option R
  | 0, _ => none
  | fuel + 1, s =>
    match step s with
    | .running s' => loop step fuel s'
    | .stopped r => some r

section

variable {step : S → Outcome S R} {inv : S → Prop}

theorem loop_running {fuel : Nat} {s s' : S} (h : step s = .running s') :
    loop step (fuel + 1) s = loop step fuel s' := by
  rw [loop, h]

theorem loop_stopped {fuel : Nat} {s : S} {r : R} (h : step s = .stopped r) :
    loop step (fuel + 1) s = some r := by
  rw [loop, h]

/-- What the last step leaves of the invariant holds of the result. -/
theorem loop_post (inv : S → Prop) {post : R → Prop} (hrun : ∀ s s', inv s → step s = .running s' → inv s')
    (hstop : ∀ s r, inv s → step s = .stopped r → post r) {fuel : Nat} {s : S} {r : R}
    (h0 : inv s) (h : loop step fuel s = some r) : post r := by
  induction fuel generalizing s with
  | zero => cases h
  | succ fuel ih =>
    cases hs : step s with
    | running s' =>
      rw [loop_running hs] at h
      exact ih (hrun s s' h0 hs) h
    | stopped r' =>
      rw [loop_stopped hs] at h
      cases h
      exact hstop s r h0 hs

/-- A measure that every step decreases bounds the fuel a result needs. -/
theorem loop_terminates (inv : S → Prop) (μ : S → Nat)
    (hrun : ∀ s s', inv s → step s = .running s' → inv s' ∧ μ s' < μ s) {fuel : Nat} {s : S}
    (h0 : inv s) (hfuel : μ s < fuel) : ∃ r, loop step fuel s = some r := by
  induction fuel generalizing s with
  | zero => omega
  | succ fuel ih =>
    cases hs : step s with
    | running s' =>
      obtain ⟨h1, hlt⟩ := hrun s s' h0 hs
      rw [loop_running hs]
      exact ih h1 (by omega)
    | stopped r =>
      rw [loop_stopped hs]
      exact ⟨r, rfl⟩

/-- The rule of total correctness: an invariant indexed by the steps that are left. -/
theorem loop_ranked (rank : Nat → S → Prop) {post : R → Prop}
    (hrun : ∀ n s s', rank n s → step s = .running s' → ∃ m < n, rank m s')
    (hstop : ∀ n s r, rank n s → step s = .stopped r → post r) {n fuel : Nat} {s : S}
    (h0 : rank n s) (hfuel : n < fuel) : ∃ r, loop step fuel s = some r ∧ post r := by
  induction fuel generalizing n s with
  | zero => omega
  | succ fuel ih =>
    cases hs : step s with
    | running s' =>
      obtain ⟨m, hlt, hm⟩ := hrun n s s' h0 hs
      rw [loop_running hs]
      exact ih hm (by omega)
    | stopped r =>
      rw [loop_stopped hs]
      exact ⟨r, rfl, hstop n s r h0 hs⟩

end

end Lib
end Naiad
