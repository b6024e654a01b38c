import Mathlib.Data.Finset.Empty
import Mathlib.Data.Finset.Erase
import Mathlib.Data.Finset.Lattice.Basic
import Mathlib.Order.BoundedOrder.Lattice
import Naiad.Lib.Table

/-!
# Naiad.Lib.Join

Hash maps filled row by row, the values of one key joined into one or the first of them kept, and
read back in whatever order they are visited.

* `joinAll_le_iff`: the value of a key is the least bound of what was joined into it, so that the
  order of the rows does not show (`lookup_joinAll_congr`).
* `lookup_firsts`: the first row of a key wins.
* `HashOrder`: an order of visits, one for each map.
-/

namespace Naiad
namespace Lib

variable {K V : Type}

section Order

/-- The order in which maps are visited: every entry of a map once. -/
structure HashOrder (K : Type) where
  visit : {V : Type} → Table K V → List (K × V)
  perm : ∀ {V : Type} (t : Table K V), (visit t).Perm (t.entries.map fun e => (e.1, e.2))

/-- Entries as the table lists them. -/
def HashOrder.listed (K : Type) : HashOrder K where
  visit t := t.entries.map fun e => (e.1, e.2)
  perm _ := .refl _

/-- The other way round. -/
def HashOrder.reversed (K : Type) : HashOrder K where
  visit t := (t.entries.map fun e => (e.1, e.2)).reverse
  perm _ := List.reverse_perm _

theorem HashOrder.mem_visit [DecidableEq K] (order : HashOrder K) {t : Table K V} {k : K} {v : V} :
    (k, v) ∈ order.visit t ↔ t.lookup k = some v := by
  rw [(order.perm t).mem_iff, List.mem_map, ← Table.mem_entries]
  constructor
  · rintro ⟨e, he, heq⟩
    cases heq
    exact he
  · intro h
    exact ⟨_, h, rfl⟩

end Order

section Join

variable [DecidableEq K] [SemilatticeSup V] [OrderBot V]

/-- `entry(k).or_default()`, and a join into it. -/
def join (t : Table K V) (k : K) (v : V) : Table K V := t.insert k ((t.lookup k).getD ⊥ ⊔ v)

def joinAll (l : List (K × V)) : Table K V := l.foldl (fun t e => join t e.1 e.2) ∅

theorem mem_foldl_join (l : List (K × V)) (t : Table K V) (k : K) :
    k ∈ l.foldl (fun t e => join t e.1 e.2) t ↔ k ∈ t ∨ ∃ v, (k, v) ∈ l := by
  induction l generalizing t with
  | nil => simp
  | cons e l ih =>
    rw [List.foldl_cons, ih, join, AList.mem_insert]
    constructor
    · rintro ((rfl | h) | ⟨v, h⟩)
      · exact .inr ⟨e.2, by simp⟩
      · exact .inl h
      · exact .inr ⟨v, List.mem_cons_of_mem _ h⟩
    · rintro (h | ⟨v, h⟩)
      · exact .inl (.inr h)
      · rcases List.mem_cons.1 h with rfl | h
        · exact .inl (.inl rfl)
        · exact .inr ⟨v, h⟩

theorem mem_joinAll {l : List (K × V)} {k : K} : k ∈ joinAll l ↔ ∃ v, (k, v) ∈ l := by
  rw [joinAll, mem_foldl_join]
  simp

theorem foldl_join_le_iff (l : List (K × V)) (t : Table K V) (k : K) (b : V) :
    ((l.foldl (fun t e => join t e.1 e.2) t).lookup k).getD ⊥ ≤ b ↔
      (t.lookup k).getD ⊥ ≤ b ∧ ∀ v, (k, v) ∈ l → v ≤ b := by
  induction l generalizing t with
  | nil => simp
  | cons e l ih =>
    obtain ⟨k', w⟩ := e
    rw [List.foldl_cons, ih]
    by_cases hk : k' = k
    · subst hk
      rw [join, AList.lookup_insert, Option.getD_some, sup_le_iff, and_assoc]
      refine and_congr_right' ?_
      constructor
      · rintro ⟨hw, hl⟩ v hv
        rcases List.mem_cons.1 hv with heq | hv
        · cases heq
          exact hw
        · exact hl v hv
      · intro h
        exact ⟨h w (by simp), fun v hv => h v (List.mem_cons_of_mem _ hv)⟩
    · rw [join, AList.lookup_insert_ne (Ne.symm hk)]
      refine and_congr_right' ?_
      constructor
      · intro h v hv
        rcases List.mem_cons.1 hv with heq | hv
        · cases heq
          exact absurd rfl hk
        · exact h v hv
      · intro h v hv
        exact h v (List.mem_cons_of_mem _ hv)

/-- What a key holds is the least bound of the values joined into it. -/
theorem joinAll_le_iff {l : List (K × V)} {k : K} {b : V} :
    ((joinAll l).lookup k).getD ⊥ ≤ b ↔ ∀ v, (k, v) ∈ l → v ≤ b := by
  rw [joinAll, foldl_join_le_iff]
  simp

/-- Of a key only the values count, not their order or number. -/
theorem lookup_joinAll_congr {l l' : List (K × V)} {k : K} (h : ∀ v, (k, v) ∈ l ↔ (k, v) ∈ l') :
    (joinAll l).lookup k = (joinAll l').lookup k := by
  have hmem : k ∈ joinAll l ↔ k ∈ joinAll l' := by
    rw [mem_joinAll, mem_joinAll]
    exact exists_congr h
  have hvalue : ((joinAll l).lookup k).getD ⊥ = ((joinAll l').lookup k).getD ⊥ := by
    refine le_antisymm (joinAll_le_iff.2 ?_) (joinAll_le_iff.2 ?_)
    · intro v hv
      exact joinAll_le_iff.1 le_rfl v ((h v).1 hv)
    · intro v hv
      exact joinAll_le_iff.1 le_rfl v ((h v).2 hv)
  rw [← AList.lookup_isSome, ← AList.lookup_isSome] at hmem
  cases hl : (joinAll l).lookup k with
  | none =>
    cases hl' : (joinAll l').lookup k with
    | none => rfl
    | some v' => simp [hl, hl'] at hmem
  | some v =>
    cases hl' : (joinAll l').lookup k with
    | none => simp [hl, hl'] at hmem
    | some v' =>
      rw [hl, hl', Option.getD_some, Option.getD_some] at hvalue
      rw [hvalue]

theorem mem_joinAll_union {X : Type} [DecidableEq X] {l : List (K × Finset X)} {k : K} {x : X} :
    x ∈ ((joinAll l).lookup k).getD ∅ ↔ ∃ s, (k, s) ∈ l ∧ x ∈ s := by
  constructor
  · intro h
    by_contra hno
    -- everything joined leaves `x` out
    have hle : ((joinAll l).lookup k).getD ⊥ ≤ (((joinAll l).lookup k).getD ∅).erase x := by
      refine joinAll_le_iff.2 ?_
      intro s hs y hy
      have hsub : s ≤ ((joinAll l).lookup k).getD ∅ := joinAll_le_iff.1 le_rfl s hs
      refine Finset.mem_erase.2 ⟨?_, hsub hy⟩
      rintro rfl
      exact hno ⟨s, hs, hy⟩
    exact Finset.notMem_erase x _ (hle h)
  · rintro ⟨s, hs, hx⟩
    have hsub : s ≤ ((joinAll l).lookup k).getD ⊥ := joinAll_le_iff.1 le_rfl s hs
    exact hsub hx

end Join

section First

variable [DecidableEq K]

/-- `entry(k).or_insert(v)` -/
def orInsert (t : Table K V) (k : K) (v : V) : Table K V :=
  if (t.lookup k).isSome then t else t.insert k v

def firsts (l : List (K × V)) : Table K V := l.foldl (fun t e => orInsert t e.1 e.2) ∅

theorem lookup_orInsert (t : Table K V) (k k' : K) (v : V) :
    (orInsert t k v).lookup k' = (t.lookup k').or (if k = k' then some v else none) := by
  unfold orInsert
  by_cases hk : k = k'
  · subst hk
    rw [if_pos rfl]
    cases hl : t.lookup k with
    | none => simp
    | some w => simp [hl]
  · rw [if_neg hk, Option.or_none]
    split
    · rfl
    · exact AList.lookup_insert_ne (Ne.symm hk)

theorem lookup_foldl_orInsert (l : List (K × V)) (t : Table K V) (k : K) :
    (l.foldl (fun t e => orInsert t e.1 e.2) t).lookup k =
      (t.lookup k).or ((l.find? (·.1 = k)).map Prod.snd) := by
  induction l generalizing t with
  | nil => simp
  | cons e l ih =>
    rw [List.foldl_cons, ih, lookup_orInsert, Option.or_assoc, List.find?_cons]
    by_cases hk : e.1 = k
    · simp [hk]
    · simp [hk]

theorem lookup_firsts (l : List (K × V)) (k : K) :
    (firsts l).lookup k = (l.find? (·.1 = k)).map Prod.snd := by
  rw [firsts, lookup_foldl_orInsert, AList.lookup_empty, Option.none_or]

theorem firsts_some {l : List (K × V)} {k : K} {v : V} (h : (firsts l).lookup k = some v) :
    (k, v) ∈ l := by
  rw [lookup_firsts] at h
  obtain ⟨⟨k', v'⟩, hfind, rfl⟩ := Option.map_eq_some_iff.1 h
  have hk : k' = k := by simpa using List.find?_some hfind
  rw [← hk]
  exact List.mem_of_find?_eq_some hfind

theorem firsts_none {l : List (K × V)} {k : K} :
    (firsts l).lookup k = none ↔ ∀ v, (k, v) ∉ l := by
  rw [lookup_firsts, Option.map_eq_none_iff, List.find?_eq_none]
  constructor
  · intro h v hv
    have := h _ hv
    simp at this
  · rintro h ⟨k', v⟩ he
    simp only [decide_eq_true_eq]
    rintro rfl
    exact h v he

end First

end Lib
end Naiad
