import Naiad.Lib.Table

/-!
# Naiad.Lib.Paging

Rows in the order of a key, read in pages: each page begins past the last key of the one before.

* `filter_past_last`: the rows past a page are those that are left.
-/

namespace Naiad
namespace Lib

variable {α β : Type} [LinearOrder β] {key : α → β}

theorem filter_past_last {l : List α} (h : l.Pairwise fun a b => key a < key b) {n : Nat} {last : α}
    (hlast : (l.take n).getLast? = some last) :
    l.filter (fun a => key last < key a) = l.drop n := by
  obtain ⟨init, hinit⟩ := List.getLast?_eq_some_iff.1 hlast
  have hsplit : l = init ++ last :: l.drop n := by
    conv_lhs => rw [← List.take_append_drop n l, hinit]
    simp
  have hparts := h
  rw [hsplit, List.pairwise_append, List.pairwise_cons] at hparts
  obtain ⟨_, ⟨hafter, _⟩, hbefore⟩ := hparts
  conv_lhs => rw [hsplit]
  have hdone : init.filter (fun a => key last < key a) = [] := by
    rw [List.filter_eq_nil_iff]
    intro a ha
    simpa using le_of_lt (hbefore a ha last (by simp))
  have hleft : (l.drop n).filter (fun a => key last < key a) = l.drop n := by
    rw [List.filter_eq_self]
    intro a ha
    simpa using hafter a ha
  rw [List.filter_append, hdone, List.filter_cons_of_neg (by simp), hleft, List.nil_append]

end Lib
end Naiad
