import Mathlib.Data.List.Infix
/-!
# Naiad.Lib.Run

Runs of a deterministic labelled transition system, and the rule that carries an invariant along
the runs all of whose steps meet a condition.
-/

namespace Naiad
namespace Lib

variable {S L : Type}

def run (step : S → L → S) (s : S) (ls : List L) : S := ls.foldl step s

/-- Every step of the run meets the condition at the state it is taken from. -/
def AllSteps (step : S → L → S) (cond : S → L → Prop) : S → List L → Prop
  | _, [] => True
  | s, l :: ls => cond s l ∧ AllSteps step cond (step s l) ls

section

variable {step : S → L → S} {cond : S → L → Prop} {inv : S → Prop}

@[simp] theorem run_nil (s : S) : run step s [] = s := rfl

@[simp] theorem run_cons (s : S) (l : L) (ls : List L) :
    run step s (l :: ls) = run step (step s l) ls := rfl

theorem run_append (s : S) (as bs : List L) :
    run step s (as ++ bs) = run step (run step s as) bs := List.foldl_append

instance [∀ s l, Decidable (cond s l)] : ∀ (ls : List L) (s : S),
    Decidable (AllSteps step cond s ls)
  | [], _ => isTrue trivial
  | l :: ls, s =>
    have : Decidable (AllSteps step cond (step s l) ls) := instDecidableAllSteps ls (step s l)
    inferInstanceAs (Decidable (cond s l ∧ AllSteps step cond (step s l) ls))

/-- An invariant that every allowed step preserves holds at the end of every allowed run. -/
theorem AllSteps.invariant {s : S} {ls : List L} (hrun : AllSteps step cond s ls) (h0 : inv s)
    (hstep : ∀ s l, inv s → cond s l → inv (step s l)) : inv (run step s ls) := by
  induction ls generalizing s with
  | nil => exact h0
  | cons l ls ih => exact ih hrun.2 (hstep s l h0 hrun.1)

/-- What every allowed step from an invariant state has, every step of an allowed run has. -/
theorem AllSteps.imp {good : S → L → Prop} {s : S} {ls : List L} (hrun : AllSteps step cond s ls)
    (h0 : inv s) (hstep : ∀ s l, inv s → cond s l → inv (step s l))
    (hgood : ∀ s l, inv s → cond s l → good s l) : AllSteps step good s ls := by
  induction ls generalizing s with
  | nil => trivial
  | cons l ls ih => exact ⟨hgood s l h0 hrun.1, ih hrun.2 (hstep s l h0 hrun.1)⟩

theorem AllSteps.append {s : S} {as bs : List L} :
    AllSteps step cond s (as ++ bs) ↔
      AllSteps step cond s as ∧ AllSteps step cond (run step s as) bs := by
  induction as generalizing s with
  | nil => simp [AllSteps]
  | cons a as ih => simp [AllSteps, ih, and_assoc]

/-- When a step keeps the invariant just in case it meets the condition, the invariant holds in
every state of a run just in case all its steps meet it. -/
theorem allSteps_iff {good : S → Prop} {s : S} {ls : List L} (hg : good s) (h0 : inv s)
    (hgood : ∀ s l, good s → good (step s l))
    (hstep : ∀ s l, good s → inv s → (inv (step s l) ↔ cond s l)) :
    (∀ pre, pre <+: ls → inv (run step s pre)) ↔ AllSteps step cond s ls := by
  induction ls generalizing s with
  | nil => simpa [AllSteps] using h0
  | cons l ls ih =>
    constructor
    · intro hall
      have h1 : inv (step s l) := hall [l] (by simp)
      refine ⟨(hstep s l hg h0).1 h1, (ih (hgood s l hg) h1).1 ?_⟩
      intro pre hpre
      exact hall (l :: pre) (by simpa using hpre)
    · intro hall pre hpre
      have h1 : inv (step s l) := (hstep s l hg h0).2 hall.1
      cases pre with
      | nil => exact h0
      | cons l' pre =>
        obtain ⟨rfl, htail⟩ := List.cons_prefix_cons.1 hpre
        exact (ih (hgood s l' hg) h1).2 hall.2 pre htail

/-- Labels that do nothing in the states of an invariant may be left out of a run. -/
theorem run_filter {skip : L → Bool} {s : S} (ls : List L) (h0 : inv s)
    (hstep : ∀ s l, inv s → inv (step s l))
    (hskip : ∀ s l, inv s → skip l = true → step s l = s) :
    run step s (ls.filter fun l => !skip l) = run step s ls := by
  induction ls generalizing s with
  | nil => rfl
  | cons l ls ih =>
    cases hl : skip l with
    | true =>
      rw [List.filter_cons_of_neg (by simp [hl]), run_cons, hskip s l h0 hl]
      exact ih h0
    | false =>
      rw [List.filter_cons_of_pos (by simp [hl]), run_cons, run_cons]
      exact ih (hstep s l h0)

theorem run_invariant {s : S} (ls : List L) (h0 : inv s)
    (hstep : ∀ s l, inv s → inv (step s l)) : inv (run step s ls) := by
  induction ls generalizing s with
  | nil => exact h0
  | cons l ls ih => exact ih (hstep s l h0)

end

end Lib
end Naiad
