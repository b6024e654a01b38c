import Mathlib.Algebra.Group.Defs
import Mathlib.Data.List.Forall2

/-!
# Naiad.Lib.Gather

A nested document walked with one accumulator. What the walk adds is described item by item, in
the order of the items; an item that cannot be read ends it.

* `forall₂_append_iff`: two lists related piece by piece.
* `Gathers.foldlM`: a walk succeeds just when every part can be read, and adds what describes the
  items of all of them.
-/

namespace Naiad
namespace Lib

section

variable {α β : Type} {R : α → β → Prop}

theorem forall₂_append_iff {as bs : List α} {cs : List β} :
    List.Forall₂ R (as ++ bs) cs ↔
      ∃ cs₁ cs₂, List.Forall₂ R as cs₁ ∧ List.Forall₂ R bs cs₂ ∧ cs = cs₁ ++ cs₂ := by
  induction as generalizing cs with
  | nil => simp
  | cons a as ih =>
    constructor
    · intro h
      cases h with
      | cons hac hrest =>
        obtain ⟨cs₁, cs₂, h₁, h₂, rfl⟩ := ih.1 hrest
        exact ⟨_, cs₂, .cons hac h₁, h₂, rfl⟩
    · rintro ⟨cs₁, cs₂, h₁, h₂, rfl⟩
      cases h₁ with
      | cons hac hrest => exact .cons hac (ih.2 ⟨_, cs₂, hrest, h₂, rfl⟩)

theorem forall₂_mem_left {as : List α} {bs : List β} (h : List.Forall₂ R as bs) {a : α}
    (ha : a ∈ as) : ∃ b ∈ bs, R a b := by
  induction h with
  | nil => cases ha
  | cons hab _ ih =>
    rcases List.mem_cons.1 ha with rfl | ha
    · exact ⟨_, by simp, hab⟩
    · obtain ⟨b, hb, hR⟩ := ih ha
      exact ⟨b, List.mem_cons_of_mem _ hb, hR⟩

end

/-- `Reads xs c`: what `c` holds is what the items `xs` say, in their order. -/
structure Gathers {X C : Type} [AddMonoid C] (Reads : List X → C → Prop) : Prop where
  nil : ∀ c, Reads [] c ↔ c = 0
  append : ∀ xs ys c, Reads (xs ++ ys) c ↔ ∃ c₁ c₂, Reads xs c₁ ∧ Reads ys c₂ ∧ c = c₁ + c₂

namespace Gathers

variable {X C A B E : Type} [AddMonoid C] {Reads : List X → C → Prop}

theorem foldlM (h : Gathers Reads) (step : C → A → Except E C) (items : B → List X)
    {P : A → B → Prop}
    (hstep : ∀ acc a acc', step acc a = .ok acc' ↔
      ∃ b, P a b ∧ ∃ c, Reads (items b) c ∧ acc' = acc + c)
    {as : List A} {acc acc' : C} :
    as.foldlM step acc = .ok acc' ↔
      ∃ bs, List.Forall₂ P as bs ∧ ∃ c, Reads (bs.flatMap items) c ∧ acc' = acc + c := by
  induction as generalizing acc with
  | nil => simp [h.nil, pure, Except.pure, eq_comm]
  | cons a as ih =>
    rw [List.foldlM_cons]
    constructor
    · intro hrun
      cases hone : step acc a with
      | error e =>
        rw [hone] at hrun
        cases hrun
      | ok mid =>
        rw [hone] at hrun
        obtain ⟨b, hb, c₁, h₁, rfl⟩ := (hstep _ _ _).1 hone
        obtain ⟨bs, hbs, c₂, h₂, rfl⟩ := ih.1 hrun
        refine ⟨b :: bs, .cons hb hbs, c₁ + c₂, ?_, add_assoc _ _ _⟩
        rw [List.flatMap_cons, h.append]
        exact ⟨c₁, c₂, h₁, h₂, rfl⟩
    · rintro ⟨bs, hbs, c, hc, rfl⟩
      cases hbs with
      | @cons _ b _ bs hb hbs =>
        rw [List.flatMap_cons, h.append] at hc
        obtain ⟨c₁, c₂, h₁, h₂, rfl⟩ := hc
        have hone : step acc a = .ok (acc + c₁) := (hstep _ _ _).2 ⟨b, hb, c₁, h₁, rfl⟩
        rw [hone]
        exact ih.2 ⟨bs, hbs, c₂, h₂, (add_assoc _ _ _).symm⟩

end Gathers
end Lib
end Naiad
