import Mathlib.Data.List.Basic

/-!
# Naiad.Lib.Interleave

Systems that take one enabled step after another, in whatever order their parts come to act. A step
that is not enabled is `none`, and a run is a list of steps each enabled in its turn.

* `LeadsTo.invariant`: what every step preserves holds in every state reached.
* `steps_history`: the same of a state together with the steps that led to it.
* `steps_bounded`: a measure that steps decrease bounds how many of them can follow.
-/

namespace Naiad
namespace Lib

variable {S L : Type}

/-- The state after a list of steps. -/
def steps (step : S → L → Option S) (s : S) : List L → Option S
  | [] => some s
  | l :: ls => (step s l).bind fun s' => steps step s' ls

/-- Some run leads from one state to the other. -/
def LeadsTo (step : S → L → Option S) (s s' : S) : Prop := ∃ ls, steps step s ls = some s'

section

variable {step : S → L → Option S} {s s' s'' : S}

@[simp] theorem steps_nil (s : S) : steps step s [] = some s := rfl

theorem steps_cons {l : L} {ls : List L} :
    steps step s (l :: ls) = some s'' ↔ ∃ s', step s l = some s' ∧ steps step s' ls = some s'' :=
  Option.bind_eq_some_iff

theorem steps_append {ls ls' : List L} :
    steps step s (ls ++ ls') = some s'' ↔
      ∃ s', steps step s ls = some s' ∧ steps step s' ls' = some s'' := by
  induction ls generalizing s with
  | nil => simp
  | cons l ls ih =>
    rw [List.cons_append, steps_cons]
    constructor
    · rintro ⟨s1, hs, hrest⟩
      obtain ⟨s', hls, hls'⟩ := ih.1 hrest
      exact ⟨s', steps_cons.2 ⟨s1, hs, hls⟩, hls'⟩
    · rintro ⟨s', hls, hls'⟩
      obtain ⟨s1, hs, hrest⟩ := steps_cons.1 hls
      exact ⟨s1, hs, ih.2 ⟨s', hrest, hls'⟩⟩

/-- An invariant along a run. -/
theorem steps_invariant (inv : S → Prop) {ls : List L} (hrun : steps step s ls = some s') (h0 : inv s)
    (hstep : ∀ s l s', inv s → step s l = some s' → inv s') : inv s' := by
  induction ls generalizing s with
  | nil =>
    cases hrun
    exact h0
  | cons l ls ih =>
    obtain ⟨s1, hs, hrest⟩ := steps_cons.1 hrun
    exact ih hrest (hstep s l s1 h0 hs)

/-- An invariant of the state and the steps that led to it. -/
theorem steps_history (inv : List L → S → Prop) {ls : List L} (hrun : steps step s ls = some s')
    (h0 : inv [] s) (hstep : ∀ ls s l s', inv ls s → step s l = some s' → inv (ls ++ [l]) s') :
    inv ls s' := by
  have hgeneral : ∀ (done rest : List L) (s : S), inv done s → steps step s rest = some s' →
      inv (done ++ rest) s' := by
    intro done rest
    induction rest generalizing done with
    | nil =>
      intro s h hrun
      cases hrun
      rw [List.append_nil]
      exact h
    | cons l rest ih =>
      intro s h hrun
      obtain ⟨s1, hs, hrest⟩ := steps_cons.1 hrun
      rw [List.append_cons]
      exact ih (done ++ [l]) s1 (hstep done s l s1 h hs) hrest
  exact hgeneral [] ls s h0 hrun

theorem LeadsTo.refl (s : S) : LeadsTo step s s := ⟨[], rfl⟩

theorem LeadsTo.trans (h : LeadsTo step s s') (h' : LeadsTo step s' s'') : LeadsTo step s s'' := by
  obtain ⟨ls, hls⟩ := h
  obtain ⟨ls', hls'⟩ := h'
  exact ⟨ls ++ ls', steps_append.2 ⟨s', hls, hls'⟩⟩

theorem LeadsTo.next {l : L} (h : LeadsTo step s s') (hs : step s' l = some s'') :
    LeadsTo step s s'' :=
  h.trans ⟨[l], steps_cons.2 ⟨s'', hs, rfl⟩⟩

theorem LeadsTo.invariant (inv : S → Prop) (h : LeadsTo step s s') (h0 : inv s)
    (hstep : ∀ s l s', inv s → step s l = some s' → inv s') : inv s' := by
  obtain ⟨ls, hls⟩ := h
  exact steps_invariant inv hls h0 hstep

/-- Steps that each decrease a measure are no more than the measure. -/
theorem steps_bounded {inv : S → Prop} {counted : L → Prop} (measure : S → Nat)
    (hstep : ∀ s l s', inv s → counted l → step s l = some s' → inv s' ∧ measure s' < measure s)
    {ls : List L} (h0 : inv s) (hls : ∀ l ∈ ls, counted l) (hrun : steps step s ls = some s') :
    ls.length ≤ measure s := by
  induction ls generalizing s with
  | nil => exact Nat.zero_le _
  | cons l ls ih =>
    obtain ⟨s1, hs, hrest⟩ := steps_cons.1 hrun
    obtain ⟨h1, hless⟩ := hstep s l s1 h0 (hls l (by simp)) hs
    have hlength := ih h1 (fun l' hl' => hls l' (List.mem_cons_of_mem _ hl')) hrest
    rw [List.length_cons]
    omega

end

end Lib
end Naiad
