import Mathlib.Data.Finset.Card
import Mathlib.Logic.Relation
import Mathlib.Order.Bounds.Basic
import Naiad.Lib.Loop

/-!
# Naiad.Lib.Reach

Worklist closure: visit elements once, push what they lead to, until the worklist is empty. Whether
the worklist is a stack or a queue does not matter to the result.

* `loop_closure`, `mem_closure`: what the loop returns is the set reachable from the seeds.
* `isLeast_reachable`: the least set that holds the seeds and is closed.
* `reflTransGen_restrict`: reachability inside a set that the relation does not leave.
-/

namespace Naiad
namespace Lib
namespace Reach

open Relation

variable {α : Type} [DecidableEq α]

/-- The set of elements seen so far and the worklist. -/
abbrev Work (α : Type) := Finset α × List α

/-- Insert into the seen set; push if it was new. -/
def visit (push : α → List α → List α) (w : Work α) (a : α) : Work α :=
  if a ∈ w.1 then w else (insert a w.1, push a w.2)

def visitAll (push : α → List α → List α) (w : Work α) (as : List α) : Work α :=
  as.foldl (visit push) w

def stack (a : α) (todo : List α) : List α := a :: todo

def queue (a : α) (todo : List α) : List α := todo ++ [a]

def reachStep (push : α → List α → List α) (succ : α → List α) (w : Work α) :
    Outcome (Work α) (Finset α) :=
  match w.2 with
  | [] => .stopped w.1
  | a :: todo => .running (visitAll push (w.1, todo) (succ a))

/-- The elements reachable from the seeds, found by worklist. -/
def closure (push : α → List α → List α) (succ : α → List α) (fuel : Nat) (seeds : List α) :
    Finset α :=
  (loop (reachStep push succ) fuel (visitAll push (∅, []) seeds)).getD ∅

/-- A worklist discipline keeps every element and adds one. -/
structure Pushes (push : α → List α → List α) : Prop where
  mem : ∀ a b todo, b ∈ push a todo ↔ b = a ∨ b ∈ todo
  length : ∀ a todo, (push a todo).length = todo.length + 1

omit [DecidableEq α] in
theorem pushes_stack : Pushes (@stack α) :=
  ⟨fun _ _ _ => List.mem_cons, fun _ _ => rfl⟩

omit [DecidableEq α] in
theorem pushes_queue : Pushes (@queue α) :=
  ⟨fun a b todo => by simp [queue, or_comm], fun a todo => by simp [queue]⟩

section Visit

variable {push : α → List α → List α} (hpush : Pushes push)
include hpush

/-- What visiting a list changes: the seen set and the worklist grow by the same new elements. -/
theorem visitAll_spec (w : Work α) (as : List α) :
    (∀ b, b ∈ (visitAll push w as).1 ↔ b ∈ w.1 ∨ b ∈ as) ∧
      (∀ b, b ∈ (visitAll push w as).2 ↔ b ∈ w.2 ∨ (b ∈ as ∧ b ∉ w.1)) ∧
      (visitAll push w as).1.card + w.2.length = w.1.card + (visitAll push w as).2.length := by
  induction as generalizing w with
  | nil => simp [visitAll]
  | cons a as ih =>
    obtain ⟨hseen, htodo, hcard⟩ := ih (visit push w a)
    change (∀ b, b ∈ (visitAll push (visit push w a) as).1 ↔ _) ∧
      (∀ b, b ∈ (visitAll push (visit push w a) as).2 ↔ _) ∧
      (visitAll push (visit push w a) as).1.card + _ =
        _ + (visitAll push (visit push w a) as).2.length
    by_cases h : a ∈ w.1
    · rw [visit, if_pos h] at hseen htodo hcard ⊢
      refine ⟨fun b => ?_, fun b => ?_, hcard⟩
      · rw [hseen, List.mem_cons]
        grind
      · rw [htodo, List.mem_cons]
        grind
    · rw [visit, if_neg h] at hseen htodo hcard ⊢
      refine ⟨fun b => ?_, fun b => ?_, ?_⟩
      · rw [hseen, List.mem_cons, Finset.mem_insert]
        tauto
      · rw [htodo, hpush.mem, List.mem_cons, Finset.mem_insert]
        grind
      · simp only [Finset.card_insert_of_notMem h, hpush.length] at hcard
        omega

end Visit

section Closure

variable {push : α → List α → List α} {succ : α → List α} {seeds : List α} {univ : Finset α}

/-- The loop's invariant, with the steps that are left. -/
structure Progress (succ : α → List α) (seeds : List α) (univ : Finset α) (n : Nat)
    (w : Work α) : Prop where
  seeded : ∀ s ∈ seeds, s ∈ w.1
  pending : ∀ a ∈ w.2, a ∈ w.1
  sound : ∀ a ∈ w.1, ∃ s ∈ seeds, ReflTransGen (fun a b => b ∈ succ a) s a
  closed : ∀ a ∈ w.1, a ∉ w.2 → ∀ b ∈ succ a, b ∈ w.1
  within : w.1 ⊆ univ
  rank : w.1.card + n = univ.card + w.2.length

theorem Progress.step (hpush : Pushes push) (huniv : ∀ a ∈ univ, ∀ b ∈ succ a, b ∈ univ)
    {n : Nat} {w w' : Work α} (h : Progress succ seeds univ n w)
    (hs : reachStep push succ w = .running w') : ∃ m < n, Progress succ seeds univ m w' := by
  unfold reachStep at hs
  split at hs
  · cases hs
  · rename_i a todo hw
    cases hs
    obtain ⟨hseen, htodo, hcard⟩ := visitAll_spec hpush (w.1, todo) (succ a)
    have ha : a ∈ w.1 := h.pending a (by simp [hw])
    have hle : w.1.card ≤ univ.card := Finset.card_le_card h.within
    have hrank := h.rank
    rw [hw, List.length_cons] at hrank
    refine ⟨n - 1, by omega, ?_⟩
    constructor
    · intro s hs
      exact (hseen s).2 (.inl (h.seeded s hs))
    · intro b hb
      rcases (htodo b).1 hb with hb | ⟨hb, _⟩
      · exact (hseen b).2 (.inl (h.pending b (by simp [hw, show b ∈ todo from hb])))
      · exact (hseen b).2 (.inr hb)
    · intro b hb
      rcases (hseen b).1 hb with hb | hb
      · exact h.sound b hb
      · obtain ⟨s, hs, hsa⟩ := h.sound a ha
        exact ⟨s, hs, hsa.tail hb⟩
    · intro b hb hnot c hc
      by_cases hba : b = a
      · subst hba
        exact (hseen c).2 (.inr hc)
      -- a fresh element is on the worklist, so `b` was seen and done with before
      have hbw : b ∈ w.1 := by
        rcases (hseen b).1 hb with hb | hb
        · exact hb
        · by_contra hfresh
          exact hnot ((htodo b).2 (.inr ⟨hb, hfresh⟩))
      have hdone : b ∉ w.2 := by
        rw [hw, List.mem_cons]
        rintro (rfl | hb)
        · exact hba rfl
        · exact hnot ((htodo b).2 (.inl hb))
      exact (hseen c).2 (.inl (h.closed b hbw hdone c hc))
    · intro b hb
      rcases (hseen b).1 hb with hb | hb
      · exact h.within hb
      · exact huniv a (h.within ha) b hb
    · simp only at hcard
      omega

theorem Progress.start (hpush : Pushes push) (hseeds : ∀ s ∈ seeds, s ∈ univ) :
    Progress succ seeds univ univ.card (visitAll push (∅, []) seeds) := by
  obtain ⟨hseen, htodo, hcard⟩ := visitAll_spec hpush (∅, []) seeds
  simp only [Finset.notMem_empty, false_or, not_false_eq_true, and_true, List.not_mem_nil,
    Finset.card_empty, List.length_nil] at hseen htodo hcard
  constructor
  · exact fun s hs => (hseen s).2 hs
  · exact fun a ha => (hseen a).2 ((htodo a).1 ha)
  · exact fun a ha => ⟨a, (hseen a).1 ha, .refl⟩
  · exact fun a ha hnot => absurd ((htodo a).2 ((hseen a).1 ha)) hnot
  · exact fun a ha => hseeds a ((hseen a).1 ha)
  · omega

/-- A closed set of fewer elements than there is fuel makes the loop stop with what is reachable. -/
theorem loop_closure (hpush : Pushes push) (hseeds : ∀ s ∈ seeds, s ∈ univ)
    (huniv : ∀ a ∈ univ, ∀ b ∈ succ a, b ∈ univ) {fuel : Nat} (hfuel : univ.card < fuel) :
    ∃ result, loop (reachStep push succ) fuel (visitAll push (∅, []) seeds) = some result ∧
      ∀ b, b ∈ result ↔ ∃ s ∈ seeds, ReflTransGen (fun a b => b ∈ succ a) s b := by
  have hrun : ∀ n w w', Progress succ seeds univ n w → reachStep push succ w = .running w' →
      ∃ m < n, Progress succ seeds univ m w' := fun n w w' h hs => h.step hpush huniv hs
  have hstop : ∀ n w result, Progress succ seeds univ n w →
      reachStep push succ w = .stopped result → ∀ b, b ∈ result ↔
        ∃ s ∈ seeds, ReflTransGen (fun a b => b ∈ succ a) s b := by
    intro n w result h hs b
    unfold reachStep at hs
    split at hs
    · rename_i hw
      cases hs
      refine ⟨h.sound b, ?_⟩
      rintro ⟨s, hs, hpath⟩
      induction hpath with
      | refl => exact h.seeded s hs
      | tail _ hbc ih => exact h.closed _ ih (by simp [hw]) _ hbc
    · cases hs
  exact loop_ranked _ hrun hstop (Progress.start hpush hseeds) hfuel

theorem mem_closure (hpush : Pushes push) (hseeds : ∀ s ∈ seeds, s ∈ univ)
    (huniv : ∀ a ∈ univ, ∀ b ∈ succ a, b ∈ univ) {fuel : Nat} (hfuel : univ.card < fuel) (b : α) :
    b ∈ closure push succ fuel seeds ↔
      ∃ s ∈ seeds, ReflTransGen (fun a b => b ∈ succ a) s b := by
  obtain ⟨result, hr, hpost⟩ := loop_closure hpush hseeds huniv hfuel
  rw [closure, hr, Option.getD_some]
  exact hpost b

end Closure

/-- What is reachable from the seeds is the least set that holds them and that the relation does not
leave. -/
theorem isLeast_reachable {α : Type} (r : α → α → Prop) (seeds : α → Prop) :
    IsLeast {s : Set α | (∀ a, seeds a → a ∈ s) ∧ ∀ a ∈ s, ∀ b, r a b → b ∈ s}
      {b | ∃ a, seeds a ∧ ReflTransGen r a b} := by
  refine ⟨⟨fun a ha => ⟨a, ha, .refl⟩, ?_⟩, ?_⟩
  · rintro a ⟨c, hc, hca⟩ b hab
    exact ⟨c, hc, hca.tail hab⟩
  · rintro s ⟨hseeds, hclosed⟩ b ⟨a, ha, hab⟩
    induction hab with
    | refl => exact hseeds a ha
    | tail _ hbc ih => exact hclosed _ ih _ hbc

/-- Where a relation keeps a set, reachability from the set is reachability within it. -/
theorem reflTransGen_restrict {α : Type} {r : α → α → Prop} {p : α → Prop}
    (hkeep : ∀ a b, p a → r a b → p b) {a b : α} (ha : p a) :
    ReflTransGen (fun a b => p a ∧ r a b) a b ↔ ReflTransGen r a b := by
  constructor
  · exact fun h => ReflTransGen.mono (fun _ _ => And.right) _ _ h
  · intro h
    have : p b ∧ ReflTransGen (fun a b => p a ∧ r a b) a b := by
      induction h with
      | refl => exact ⟨ha, .refl⟩
      | tail _ hbc ih => exact ⟨hkeep _ _ ih.1 hbc, ih.2.tail ⟨ih.1, hbc⟩⟩
    exact this.2

end Reach
end Lib
end Naiad
