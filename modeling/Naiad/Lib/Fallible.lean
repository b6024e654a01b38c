import Mathlib.Data.List.Forall2

/-!
# Naiad.Lib.Fallible

Computations that end in a value or in an error: when each way to build one ends in a given value.

* `bind_eq_ok`, `map_eq_ok_iff`: the parts all end in a value.
* `mapM_eq_ok_iff`: reading a list is reading its items.
-/

namespace Naiad
namespace Lib

variable {E E' A B : Type}

theorem bind_eq_ok {x : Except E A} {f : A → Except E B} {b : B} :
    (x >>= f) = .ok b ↔ ∃ a, x = .ok a ∧ f a = .ok b := by
  cases x <;> simp [bind, Except.bind]

theorem map_eq_ok_iff {x : Except E A} {f : A → B} {b : B} :
    x.map f = .ok b ↔ ∃ a, x = .ok a ∧ f a = b := by
  cases x <;> simp [Except.map]

theorem pure_eq_ok {a b : A} : (pure a : Except E A) = .ok b ↔ b = a := by
  simp [pure, Except.pure, eq_comm]

theorem mapError_eq_ok {f : E → E'} {x : Except E A} {a : A} :
    x.mapError f = .ok a ↔ x = .ok a := by
  cases x <;> simp [Except.mapError]

theorem of_ite_error {c : Prop} [Decidable c] {e : E} {x : Except E A} {a : A}
    (h : (if c then .error e else x) = .ok a) : ¬ c ∧ x = .ok a := by
  by_cases hc : c
  · rw [if_pos hc] at h
    cases h
  · rw [if_neg hc] at h
    exact ⟨hc, h⟩

theorem mapM_eq_ok_iff {f : A → Except E B} {as : List A} {bs : List B} :
    as.mapM f = .ok bs ↔ List.Forall₂ (fun a b => f a = .ok b) as bs := by
  induction as generalizing bs with
  | nil => simp [pure, Except.pure, eq_comm]
  | cons a as ih =>
    rw [List.mapM_cons]
    constructor
    · intro h
      cases ha : f a with
      | error e =>
        rw [ha] at h
        cases h
      | ok b =>
        cases has : as.mapM f with
        | error e =>
          rw [ha, has] at h
          cases h
        | ok cs =>
          rw [ha, has] at h
          cases h
          exact .cons ha (ih.1 has)
    · intro h
      cases h with
      | cons hb hrest =>
        rw [hb, ih.2 hrest]
        rfl

end Lib
end Naiad
