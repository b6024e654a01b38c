import Mathlib.Algebra.Order.BigOperators.Group.List
import Mathlib.Algebra.Order.Group.Nat
import Mathlib.Algebra.Ring.Nat
import Naiad.Lib.Table

/-!
# Naiad.Lib.Sort

Sorting, beyond `orderBy`: that it is stable under filters, and the sort followed by the removal of
adjacent duplicates.

* `filter_orderBy`: the rows of an ordered read that pass a test, in order.
* `mem_sortDedup`, `sortDedup_strict`: the sorted set of a list.
-/

namespace Naiad
namespace Lib

section Filter

variable {α β : Type} [LinearOrder β] (key : α → β)

/-- An element below all of a list is inserted at its head. -/
theorem orderedInsert_head {a : α} {l : List α} (h : ∀ b ∈ l, key a ≤ key b) :
    l.orderedInsert (fun a b => key a ≤ key b) a = a :: l := by
  cases l with
  | nil => rfl
  | cons b l => rw [List.orderedInsert, if_pos (h b (by simp))]

theorem filter_orderedInsert (p : α → Bool) (a : α) {l : List α}
    (hl : l.Pairwise fun a b => key a ≤ key b) :
    (l.orderedInsert (fun a b => key a ≤ key b) a).filter p =
      if p a then (l.filter p).orderedInsert (fun a b => key a ≤ key b) a else l.filter p := by
  induction l with
  | nil => cases hp : p a <;> simp [hp]
  | cons b l ih =>
    obtain ⟨hb, hl'⟩ := List.pairwise_cons.1 hl
    rw [List.orderedInsert]
    by_cases hab : key a ≤ key b
    · rw [if_pos hab]
      have hbelow : ∀ c ∈ (b :: l).filter p, key a ≤ key c := by
        intro c hc
        rcases List.mem_cons.1 (List.mem_filter.1 hc).1 with rfl | hc
        · exact hab
        · exact hab.trans (hb c hc)
      rw [orderedInsert_head key hbelow]
      cases hp : p a <;> simp [hp]
    · rw [if_neg hab, List.filter_cons, ih hl']
      cases hp : p a with
      | false => simp [List.filter_cons]
      | true => cases hq : p b <;> simp [hq, hab]

/-- A filter of an ordered read is an ordered read of what passes. -/
theorem filter_orderBy (p : α → Bool) (l : List α) :
    (orderBy key l).filter p = orderBy key (l.filter p) := by
  induction l with
  | nil => rfl
  | cons a l ih =>
    have hsorted : (orderBy key l).Pairwise fun a b => key a ≤ key b :=
      List.pairwise_insertionSort (fun a b => key a ≤ key b) l
    show ((orderBy key l).orderedInsert (fun a b => key a ≤ key b) a).filter p = _
    rw [filter_orderedInsert key p a hsorted, ih]
    cases hp : p a with
    | false => simp [hp]
    | true =>
      rw [if_pos rfl, List.filter_cons, if_pos hp]
      rfl

end Filter

section Dedup

variable {α : Type} [LinearOrder α]

/-- Remove all but the first of each run of equal elements. -/
def dedupAdjacent : List α → List α
  | [] => []
  | [a] => [a]
  | a :: b :: l => if a = b then dedupAdjacent (b :: l) else a :: dedupAdjacent (b :: l)

theorem mem_dedupAdjacent {l : List α} {a : α} : a ∈ dedupAdjacent l ↔ a ∈ l := by
  induction l using dedupAdjacent.induct with
  | case1 => rfl
  | case2 b => rfl
  | case3 b l ih => simp [dedupAdjacent, ih]
  | case4 b c l h ih => rw [dedupAdjacent, if_neg h, List.mem_cons, ih, List.mem_cons (b := b)]

theorem dedupAdjacent_strict {l : List α} (h : l.Pairwise (· ≤ ·)) :
    (dedupAdjacent l).Pairwise (· < ·) := by
  induction l using dedupAdjacent.induct with
  | case1 => exact .nil
  | case2 b => exact List.pairwise_singleton _ _
  | case3 b l ih =>
    rw [dedupAdjacent, if_pos rfl]
    exact ih (List.pairwise_cons.1 h).2
  | case4 b c l hne ih =>
    obtain ⟨hb, hl⟩ := List.pairwise_cons.1 h
    rw [dedupAdjacent, if_neg hne, List.pairwise_cons]
    refine ⟨?_, ih hl⟩
    intro d hd
    have hbc : b < c := lt_of_le_of_ne (hb c (by simp)) hne
    rcases List.mem_cons.1 (mem_dedupAdjacent.1 hd) with rfl | hd
    · exact hbc
    · exact lt_of_lt_of_le hbc ((List.pairwise_cons.1 hl).1 d hd)

/-- `sort` and `dedup`. -/
def sortDedup (l : List α) : List α := dedupAdjacent (orderBy id l)

@[simp] theorem mem_sortDedup {l : List α} {a : α} : a ∈ sortDedup l ↔ a ∈ l := by
  rw [sortDedup, mem_dedupAdjacent, mem_orderBy]

theorem sortDedup_strict (l : List α) : (sortDedup l).Pairwise (· < ·) :=
  dedupAdjacent_strict (List.pairwise_insertionSort (fun a b => id a ≤ id b) l)

theorem sortDedup_nodup (l : List α) : (sortDedup l).Nodup :=
  (sortDedup_strict l).imp fun h => ne_of_lt h

/-- A strictly ascending list is its elements. -/
theorem strict_ext {l l' : List α} (h : l.Pairwise (· < ·)) (h' : l'.Pairwise (· < ·))
    (hmem : ∀ a, a ∈ l ↔ a ∈ l') : l = l' := by
  have hperm : l.Perm l' := (List.perm_ext_iff_of_nodup (h.imp fun hlt => ne_of_lt hlt)
    (h'.imp fun hlt => ne_of_lt hlt)).2 hmem
  exact hperm.eq_of_pairwise (fun a b _ _ hab hba => absurd hab (lt_asymm hba)) h h'

end Dedup

/-- A sum over distinct elements of a list is at most the sum over the list. -/
theorem sum_map_le {α : Type} {l l' : List α} (hl : l.Nodup) (hsub : l ⊆ l') (f : α → Nat) :
    (l.map f).sum ≤ (l'.map f).sum := by
  obtain ⟨l'', hperm, hsublist⟩ := List.subperm_of_subset hl hsub
  rw [← (hperm.map f).sum_nat]
  exact (hsublist.map f).sum_le_sum fun _ _ => Nat.zero_le _

end Lib
end Naiad
