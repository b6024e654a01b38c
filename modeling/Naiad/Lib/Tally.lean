import Mathlib.Data.List.Nodup
import Naiad.Lib.Table

/-!
# Naiad.Lib.Tally

Tables of counts that stand for a grouped count of another table, `COUNT(*) .. GROUP BY`, without
counting again: a row that enters a group adds one to its count and a row that leaves takes one
away, the count's row coming and going with its first and last member.

* `Materializes`: a table holds the values of a function and no row where it is zero.
* `groupCount`: how many rows of a table are in a group; a row may be in none.
* `Materializes.increment`, `Materializes.decrement`: the two changes of a count.
* `groupCount_increment`, `groupCount_decrement`: when the counts are grouped in turn, only a row
  that comes or goes matters.
-/

namespace Naiad
namespace Lib

variable {K V G : Type}

/-- Rows with the values of a function, and none where it is zero. -/
def Materializes [DecidableEq G] (counts : Table G Nat) (f : G → Nat) : Prop :=
  ∀ x, counts.lookup x = if f x = 0 then none else some (f x)

section Changes

variable [DecidableEq G] {counts : Table G Nat} {f g : G → Nat}

/-- `INSERT .. VALUES (x, 1) ON CONFLICT DO UPDATE SET count = count + 1` -/
def increment (counts : Table G Nat) (x : G) : Table G Nat :=
  (counts.upsert x 1 fun n => some (n + 1)).1

/-- `DELETE .. WHERE key = x AND count = 1`, then `UPDATE .. SET count = count - 1 WHERE key = x AND
count > 1`. -/
def decrement (counts : Table G Nat) (x : G) : Table G Nat :=
  Table.modify (Table.select counts fun y n => !(y = x && n = 1))
    fun y n => if y = x && 1 < n then n - 1 else n

theorem lookup_increment (counts : Table G Nat) (x y : G) :
    (increment counts x).lookup y =
      if y = x then some ((counts.lookup x).getD 0 + 1) else counts.lookup y := by
  by_cases h : y = x
  · subst h
    unfold increment Table.upsert
    cases counts.lookup y with
    | none => simp [AList.lookup_insert]
    | some n => simp [AList.lookup_insert]
  · rw [if_neg h]
    exact Table.lookup_upsert_ne h

theorem lookup_decrement (counts : Table G Nat) (x y : G) :
    (decrement counts x).lookup y =
      if y = x then (counts.lookup x).bind fun n => if n = 1 then none else some (n - 1)
      else counts.lookup y := by
  rw [decrement, Table.lookup_modify, Table.lookup_select]
  by_cases h : y = x
  · subst h
    cases hl : counts.lookup y with
    | none => simp
    | some n =>
      by_cases h1 : n = 1
      · simp [h1, Option.filter]
      · by_cases h0 : 1 < n
        · simp [h1, h0, Option.filter]
        · have hzero : n = 0 := by omega
          simp [hzero, Option.filter]
  · cases counts.lookup y with
    | none => simp [h]
    | some n => simp [h, Option.filter]

theorem Materializes.congr (h : Materializes counts f) (hfg : ∀ x, f x = g x) :
    Materializes counts g := by
  intro x
  rw [← hfg x]
  exact h x

theorem Materializes.getD (h : Materializes counts f) (x : G) : (counts.lookup x).getD 0 = f x := by
  rw [h x]
  by_cases h0 : f x = 0
  · simp [h0]
  · simp [h0]

theorem Materializes.increment (h : Materializes counts f) (x : G) :
    Materializes (increment counts x) fun y => f y + if y = x then 1 else 0 := by
  intro y
  rw [lookup_increment, h.getD]
  by_cases hy : y = x
  · simp [hy]
  · simpa [hy] using h y

theorem Materializes.decrement (h : Materializes counts f) (x : G) :
    Materializes (decrement counts x) fun y => f y - if y = x then 1 else 0 := by
  intro y
  rw [lookup_decrement]
  by_cases hy : y = x
  · subst hy
    rw [if_pos rfl, h y]
    by_cases h0 : f y = 0
    · simp [h0]
    · by_cases h1 : f y = 1
      · simp [h1]
      · have hpos : f y - 1 ≠ 0 := by omega
        simp [h0, h1, hpos]
  · simpa [hy] using h y

/-- `SELECT x, COUNT(*) .. GROUP BY x`. -/
def tallyOf (l : List G) : Table G Nat := l.foldl Lib.increment ∅

theorem materializes_foldl (l : List G) (h : Materializes counts f) :
    Materializes (l.foldl Lib.increment counts) fun x => f x + l.count x := by
  induction l generalizing counts f with
  | nil => exact h
  | cons x l ih =>
    refine (ih (h.increment x)).congr ?_
    intro y
    by_cases hy : y = x
    · simp only [hy, if_true, List.count_cons_self]
      omega
    · simp [hy, Ne.symm hy]

theorem materializes_tallyOf (l : List G) : Materializes (tallyOf l) fun x => l.count x := by
  have hempty : Materializes (∅ : Table G Nat) fun _ => 0 := fun x => by simp
  refine (materializes_foldl l hempty).congr ?_
  intro x
  exact Nat.zero_add _

end Changes

section Groups

variable [DecidableEq G] {t t' : Table K V} {group : K → V → Option G}

/-- The number of rows of a group. -/
def groupCount (t : Table K V) (group : K → V → Option G) (x : G) : Nat :=
  t.entries.countP fun e => group e.1 e.2 = some x

theorem groupCount_eq_count (t : Table K V) (group : K → V → Option G) (x : G) :
    groupCount t group x = (t.entries.filterMap fun e => group e.1 e.2).count x := by
  rw [groupCount, List.count, List.countP_filterMap]
  congr 1
  funext e
  cases group e.1 e.2 with
  | none => rfl
  | some y => simp [beq_eq_decide]

theorem groupCount_modify {f : K → V → V} (h : ∀ k v, group k (f k v) = group k v) (x : G) :
    groupCount (Table.modify t f) group x = groupCount t group x := by
  rw [groupCount, Table.modify, List.countP_map]
  refine List.countP_congr ?_
  intro e _
  simp [h]

/-- The rows that stay and the rows that go. -/
theorem groupCount_select (t : Table K V) (p : K → V → Bool) (x : G) :
    groupCount t group x = groupCount (Table.select t p) group x +
      (t.entries.filter fun e => !p e.1 e.2).countP fun e => group e.1 e.2 = some x := by
  rw [groupCount, groupCount, Table.select,
    List.countP_eq_countP_filter_add _ _ fun e : Sigma fun _ : K => V => p e.1 e.2]

variable [DecidableEq K]

/-- Only the rows count, not their order. -/
theorem groupCount_congr (h : ∀ k, t.lookup k = t'.lookup k) (x : G) :
    groupCount t group x = groupCount t' group x := by
  refine List.Perm.countP_eq _ (List.lookup_ext t.nodupKeys t'.nodupKeys ?_)
  intro k v
  have hk : List.dlookup k t.entries = List.dlookup k t'.entries := h k
  rw [hk]

theorem groupCount_congr_group {group' : K → V → Option G}
    (h : ∀ k v, t.lookup k = some v → group k v = group' k v) (x : G) :
    groupCount t group x = groupCount t group' x := by
  refine List.countP_congr ?_
  intro e he
  rw [h e.1 e.2 (Table.mem_entries.1 he)]

/-- The rows of a group that is not empty. -/
theorem exists_of_groupCount {x : G} (h : groupCount t group x ≠ 0) :
    ∃ k v, t.lookup k = some v ∧ group k v = some x := by
  obtain ⟨e, he, hx⟩ := List.countP_pos_iff.1 (Nat.pos_of_ne_zero h)
  exact ⟨e.1, e.2, Table.mem_entries.1 he, of_decide_eq_true hx⟩

theorem groupCount_insert (t : Table K V) (k : K) (v : V) (x : G) :
    groupCount (t.insert k v) group x =
      groupCount (t.erase k) group x + if group k v = some x then 1 else 0 := by
  have herase : (t.erase k).entries = t.entries.kerase k := rfl
  rw [groupCount, groupCount, AList.entries_insert, List.countP_cons, herase]
  simp

theorem groupCount_of_lookup {k : K} {v : V} (h : t.lookup k = some v) (x : G) :
    groupCount t group x =
      groupCount (t.erase k) group x + if group k v = some x then 1 else 0 := by
  rw [← groupCount_insert]
  refine groupCount_congr ?_ x
  intro k'
  by_cases hk : k' = k
  · rw [hk, AList.lookup_insert, h]
  · rw [AList.lookup_insert_ne hk]

/-- A row that is replaced leaves its group and joins another. -/
theorem groupCount_replace {k : K} {v : V} (h : t.lookup k = some v) (w : V) (x : G) :
    groupCount (t.insert k w) group x + (if group k v = some x then 1 else 0) =
      groupCount t group x + if group k w = some x then 1 else 0 := by
  rw [groupCount_insert, groupCount_of_lookup h]
  omega

theorem groupCount_erase_of_none {k : K} (h : t.lookup k = none) (x : G) :
    groupCount (t.erase k) group x = groupCount t group x := by
  refine groupCount_congr ?_ x
  intro k'
  by_cases hk : k' = k
  · rw [hk, h]
    exact AList.lookup_erase k t
  · exact AList.lookup_erase_ne hk

theorem groupCount_insert_of_none {k : K} (h : t.lookup k = none) (v : V) (x : G) :
    groupCount (t.insert k v) group x =
      groupCount t group x + if group k v = some x then 1 else 0 := by
  rw [groupCount_insert, groupCount_erase_of_none h]

end Groups

section Counts

variable [DecidableEq K] [DecidableEq G] {counts : Table K Nat} {group : K → Option G}

theorem groupCount_insert_key {k : K} {n m : Nat} (h : counts.lookup k = some n) (x : G) :
    groupCount (counts.insert k m) (fun k _ => group k) x =
      groupCount counts (fun k _ => group k) x := by
  rw [groupCount_insert, groupCount_of_lookup h]

/-- A count whose row is there already moves no group of the counts. -/
theorem groupCount_increment (counts : Table K Nat) (group : K → Option G) (k : K) (x : G) :
    groupCount (increment counts k) (fun k _ => group k) x =
      groupCount counts (fun k _ => group k) x +
        if (counts.lookup k).isSome then 0 else if group k = some x then 1 else 0 := by
  unfold increment Table.upsert
  cases hl : counts.lookup k with
  | none =>
    rw [groupCount_insert, groupCount_erase_of_none hl]
    simp
  | some n =>
    simp only [Option.isSome_some, if_true, Nat.add_zero]
    exact groupCount_insert_key hl x

/-- A count whose row stays moves no group of the counts. -/
theorem groupCount_decrement (counts : Table K Nat) (group : K → Option G) (k : K) (x : G) :
    groupCount (decrement counts k) (fun k _ => group k) x =
      groupCount counts (fun k _ => group k) x -
        if counts.lookup k = some 1 then if group k = some x then 1 else 0 else 0 := by
  by_cases h1 : counts.lookup k = some 1
  · have herase : groupCount (decrement counts k) (fun k _ => group k) x =
        groupCount (counts.erase k) (fun k _ => group k) x := by
      refine groupCount_congr ?_ x
      intro k'
      rw [lookup_decrement]
      by_cases hk : k' = k
      · rw [if_pos hk, h1, hk, AList.lookup_erase]
        rfl
      · rw [if_neg hk, AList.lookup_erase_ne hk]
    rw [herase, groupCount_of_lookup h1, if_pos h1, Nat.add_sub_cancel]
  · rw [if_neg h1, Nat.sub_zero]
    cases hl : counts.lookup k with
    | none =>
      refine groupCount_congr ?_ x
      intro k'
      rw [lookup_decrement]
      by_cases hk : k' = k
      · rw [if_pos hk, hk, hl]
        rfl
      · rw [if_neg hk]
    | some n =>
      have hn : n ≠ 1 := fun heq => h1 (by rw [hl, heq])
      rw [← groupCount_insert_key (m := n - 1) hl]
      refine groupCount_congr ?_ x
      intro k'
      rw [lookup_decrement]
      by_cases hk : k' = k
      · rw [if_pos hk, hk, hl, AList.lookup_insert]
        simp [hn]
      · rw [if_neg hk, AList.lookup_insert_ne hk]

end Counts

end Lib
end Naiad
