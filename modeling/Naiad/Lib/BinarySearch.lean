import Mathlib.Data.List.Sort
import Mathlib.Order.Defs.LinearOrder

/-!
# Naiad.Lib.BinarySearch

Binary search in a strictly ascending list, by halving the part where the item may be.

* `binarySearch_eq_ok`: the place found holds the item.
* `binarySearch_eq_error`: otherwise the place is where the item would keep the order.
* `pairwise_insertIdx`, `eraseIdx_search`: the list with it put there, or taken out.
-/

namespace Naiad
namespace Lib

variable {α : Type} [LinearOrder α]

/-- The last place that may hold `a`, among `size` places from `base` on. -/
def searchBase (l : List α) (a : α) (size base : Nat) : Nat :=
  if 1 < size then
    let half := size / 2
    let mid := base + half
    let next :=
      match l[mid]? with
      | some b => if a < b then base else mid
      | none => base
    searchBase l a (size - half) next
  else base
termination_by size

/-- `slice::binary_search`: `ok` is the place of the item, `error` the place to put it. -/
def binarySearch (l : List α) (a : α) : Except Nat Nat :=
  if l.length = 0 then .error 0
  else
    let base := searchBase l a l.length 0
    match l[base]? with
    | some b => if b = a then .ok base else if b < a then .error (base + 1) else .error base
    | none => .error base

section

variable {l : List α} {a : α}

theorem getElem?_lt (h : l.Pairwise (· < ·)) {i j : Nat} {b c : α} (hi : l[i]? = some b)
    (hj : l[j]? = some c) (hij : i < j) : b < c := by
  obtain ⟨hi', rfl⟩ := List.getElem?_eq_some_iff.1 hi
  obtain ⟨hj', rfl⟩ := List.getElem?_eq_some_iff.1 hj
  exact List.pairwise_iff_getElem.1 h i j hi' hj' hij

theorem searchBase_spec (h : l.Pairwise (· < ·)) {size base : Nat} (hpos : 0 < size)
    (hlen : base + size ≤ l.length) (hlow : base = 0 ∨ ∃ b, l[base]? = some b ∧ b ≤ a)
    (hhigh : ∀ i b, base + size ≤ i → l[i]? = some b → a < b) :
    searchBase l a size base < l.length ∧
      (searchBase l a size base = 0 ∨ ∃ b, l[searchBase l a size base]? = some b ∧ b ≤ a) ∧
      ∀ i b, searchBase l a size base < i → l[i]? = some b → a < b := by
  induction size using Nat.strongRecOn generalizing base with
  | ind size ih =>
    rw [searchBase]
    split
    · rename_i hone
      have hmid : base + size / 2 < l.length := by omega
      have hget : l[base + size / 2]? = some l[base + size / 2] := List.getElem?_eq_getElem hmid
      simp only [hget]
      split
      · rename_i hlt
        apply ih (size - size / 2) (by omega) (by omega) (by omega) hlow
        intro i b hi hb
        rcases Nat.lt_or_eq_of_le (show base + size / 2 ≤ i by omega) with hlater | rfl
        · exact hlt.trans (getElem?_lt h hget hb hlater)
        · rw [hget] at hb
          cases hb
          exact hlt
      · rename_i hle
        apply ih (size - size / 2) (by omega) (by omega) (by omega) (.inr ⟨_, hget, not_lt.1 hle⟩)
        intro i b hi hb
        exact hhigh i b (by omega) hb
    · exact ⟨by omega, hlow, fun i b hi => hhigh i b (by omega)⟩

theorem binarySearch_eq_ok {pos : Nat} (hsearch : binarySearch l a = .ok pos) :
    l[pos]? = some a := by
  simp only [binarySearch] at hsearch
  split at hsearch
  · cases hsearch
  · split at hsearch
    · rename_i b hb
      split at hsearch
      · rename_i heq
        cases hsearch
        rw [hb, heq]
      · split at hsearch <;> cases hsearch
    · cases hsearch

theorem binarySearch_eq_error (h : l.Pairwise (· < ·)) {pos : Nat}
    (hsearch : binarySearch l a = .error pos) :
    pos ≤ l.length ∧ (∀ b ∈ l.take pos, b < a) ∧ ∀ b ∈ l.drop pos, a < b := by
  have hdrop : ∀ pos, (∀ i b, pos ≤ i → l[i]? = some b → a < b) → ∀ b ∈ l.drop pos, a < b := by
    intro pos hall b hb
    obtain ⟨i, hi⟩ := List.mem_iff_getElem?.1 hb
    rw [List.getElem?_drop] at hi
    exact hall (pos + i) b (by omega) hi
  simp only [binarySearch] at hsearch
  split at hsearch
  · rename_i hnil
    cases hsearch
    simp [List.length_eq_zero_iff.1 hnil]
  · rename_i hne
    obtain ⟨hbase, hlow, hhigh⟩ := searchBase_spec (a := a) h (by omega)
      (show 0 + l.length ≤ l.length by omega) (.inl rfl) fun i b hi hb => by
        have hlt := (List.getElem?_eq_some_iff.1 hb).1
        omega
    generalize searchBase l a l.length 0 = base at *
    have hget : l[base]? = some l[base] := List.getElem?_eq_getElem hbase
    simp only [hget] at hsearch
    split at hsearch
    · cases hsearch
    · rename_i hneq
      split at hsearch
      · rename_i hlt
        cases hsearch
        refine ⟨by omega, fun b hb => ?_, hdrop _ fun i b hi => hhigh i b (by omega)⟩
        obtain ⟨i, hi⟩ := List.mem_iff_getElem?.1 hb
        rw [List.getElem?_take] at hi
        split at hi
        · rename_i hi'
          rcases Nat.lt_or_eq_of_le (Nat.le_of_lt_succ hi') with hless | rfl
          · exact (getElem?_lt h hi hget hless).trans hlt
          · rw [hget] at hi
            cases hi
            exact hlt
        · cases hi
      · rename_i hle
        cases hsearch
        have hgt := lt_of_le_of_ne (not_lt.1 hle) (Ne.symm hneq)
        have hzero : pos = 0 := by
          rcases hlow with hzero | ⟨b, hb, hba⟩
          · exact hzero
          · rw [hget] at hb
            cases hb
            exact absurd hba (not_le.2 hgt)
        subst hzero
        refine ⟨by omega, by simp, hdrop _ fun i b _ hb => ?_⟩
        rcases Nat.eq_zero_or_pos i with rfl | hpos
        · rw [hget] at hb
          cases hb
          exact hgt
        · exact hhigh i b hpos hb

theorem mem_of_binarySearch (h : l.Pairwise (· < ·)) :
    a ∈ l ↔ ∃ pos, binarySearch l a = .ok pos := by
  constructor
  · intro hmem
    cases hsearch : binarySearch l a with
    | ok pos => exact ⟨pos, rfl⟩
    | error pos =>
      obtain ⟨_, hbelow, habove⟩ := binarySearch_eq_error h hsearch
      rw [← List.take_append_drop pos l, List.mem_append] at hmem
      rcases hmem with hmem | hmem
      · exact absurd (hbelow a hmem) (lt_irrefl a)
      · exact absurd (habove a hmem) (lt_irrefl a)
  · rintro ⟨pos, hsearch⟩
    exact List.mem_of_getElem? (binarySearch_eq_ok hsearch)

omit [LinearOrder α] in
theorem insertIdx_eq_append {pos : Nat} (h : pos ≤ l.length) :
    l.insertIdx pos a = l.take pos ++ a :: l.drop pos := by
  induction pos generalizing l with
  | zero => simp
  | succ pos ih =>
    cases l with
    | nil => simp at h
    | cons b l => simp [ih (Nat.le_of_succ_le_succ h)]

/-- The item put at the place the search gives. -/
theorem pairwise_insertIdx (h : l.Pairwise (· < ·)) {pos : Nat}
    (hsearch : binarySearch l a = .error pos) : (l.insertIdx pos a).Pairwise (· < ·) := by
  obtain ⟨hpos, hbelow, habove⟩ := binarySearch_eq_error h hsearch
  rw [insertIdx_eq_append hpos, List.pairwise_append, List.pairwise_cons]
  refine ⟨h.sublist (List.take_sublist _ _), ⟨habove, h.sublist (List.drop_sublist _ _)⟩, ?_⟩
  intro b hb c hc
  rcases List.mem_cons.1 hc with rfl | hc
  · exact hbelow b hb
  · exact (hbelow b hb).trans (habove c hc)

theorem mem_insertIdx_search (h : l.Pairwise (· < ·)) {pos : Nat}
    (hsearch : binarySearch l a = .error pos) {b : α} : b ∈ l.insertIdx pos a ↔ b = a ∨ b ∈ l :=
  List.mem_insertIdx (binarySearch_eq_error h hsearch).1

/-- The item taken out of the place the search gives. -/
theorem eraseIdx_search (h : l.Pairwise (· < ·)) {pos : Nat} (hsearch : binarySearch l a = .ok pos) :
    l.eraseIdx pos = l.erase a := by
  obtain ⟨hpos, rfl⟩ := List.getElem?_eq_some_iff.1 (binarySearch_eq_ok hsearch)
  exact (List.Nodup.erase_getElem (h.imp fun hlt => ne_of_lt hlt) pos hpos).symm

end

end Lib
end Naiad
