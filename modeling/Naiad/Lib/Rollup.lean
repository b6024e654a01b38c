import Mathlib.Algebra.BigOperators.Group.List.Lemmas
import Mathlib.Algebra.Order.Field.Basic
import Naiad.Lib.Table

/-!
# Naiad.Lib.Rollup

Samples folded into coarser tables, `INSERT .. SELECT .. GROUP BY .. ON CONFLICT DO NOTHING`: a
group without a row gets one and a row there is stays as it is. What a row says of its group is the
number of the values, their extrema and their mean, and such summaries can be folded again.

* `groupValues`: the values of a group.
* `insertGroups`: the statement, its aggregate a function of the group's values.
* `IsSummary`: what a summary says of a list of values.
* `IsSummary.merge`: the summaries of the parts give the summary of the whole.
-/

namespace Naiad
namespace Lib

section Groups

variable {K G H V S : Type} [DecidableEq K] [DecidableEq G] [DecidableEq H]

/-- The values of the rows whose key is in the group. -/
def groupValues (t : Table K V) (key : K → G) (g : G) : List V :=
  (t.entries.filter fun e => key e.1 = g).map fun e => e.2

/-- `INSERT .. SELECT key, f(..) FROM src GROUP BY key ON CONFLICT DO NOTHING` -/
def insertGroups (t : Table G S) (src : Table K V) (key : K → G) (f : List V → S) : Table G S :=
  (src.keys.map key).dedup.foldl
    (fun t g => (t.upsert g (f (groupValues src key g)) fun _ => none).1) t

theorem mem_groupValues {t : Table K V} {key : K → G} {g : G} {v : V} :
    v ∈ groupValues t key g ↔ ∃ k, t.lookup k = some v ∧ key k = g := by
  constructor
  · intro hv
    obtain ⟨e, he, rfl⟩ := List.mem_map.1 hv
    obtain ⟨hmem, hkey⟩ := List.mem_filter.1 he
    exact ⟨e.1, Table.mem_entries.1 hmem, of_decide_eq_true hkey⟩
  · intro ⟨k, hk, hkey⟩
    have hmem : (⟨k, v⟩ : Sigma fun _ : K => V) ∈ t.entries.filter fun e => key e.1 = g :=
      List.mem_filter.2 ⟨Table.mem_entries.2 hk, decide_eq_true hkey⟩
    exact List.mem_map.2 ⟨_, hmem, rfl⟩

theorem groupValues_eq_nil {t : Table K V} {key : K → G} {g : G} :
    groupValues t key g = [] ↔ ∀ k v, t.lookup k = some v → key k ≠ g := by
  rw [List.eq_nil_iff_forall_not_mem]
  constructor
  · intro h k v hk hkey
    exact h v (mem_groupValues.2 ⟨k, hk, hkey⟩)
  · intro h v hv
    obtain ⟨k, hk, hkey⟩ := mem_groupValues.1 hv
    exact h k v hk hkey

/-- Tables that agree on the keys of a group have the same values in it. -/
theorem perm_groupValues {t t' : Table K V} {key : K → G} {g : G}
    (h : ∀ k, key k = g → t.lookup k = t'.lookup k) :
    (groupValues t key g).Perm (groupValues t' key g) := by
  have hsame : (Table.select t fun k _ => key k = g).entries.Perm
      (Table.select t' fun k _ => key k = g).entries := by
    refine List.lookup_ext (AList.nodupKeys _) (AList.nodupKeys _) ?_
    intro k v
    have hrow : (Table.select t fun k _ => key k = g).lookup k =
        (Table.select t' fun k _ => key k = g).lookup k := by
      rw [Table.lookup_select_key, Table.lookup_select_key]
      by_cases hk : key k = g
      · rw [h k hk]
      · simp [hk]
    exact Eq.to_iff (congrArg (v ∈ ·) hrow)
  exact hsame.map _

theorem lookup_foldl_ignore (f : G → S) (gs : List G) (t : Table G S) (g : G) :
    (gs.foldl (fun t g => (t.upsert g (f g) fun _ => none).1) t).lookup g =
      (t.lookup g).or (if g ∈ gs then some (f g) else none) := by
  induction gs generalizing t with
  | nil => simp
  | cons g' gs ih =>
    rw [List.foldl_cons, ih]
    by_cases hg : g = g'
    · subst hg
      cases hl : t.lookup g with
      | none => simp [Table.upsert, hl, AList.lookup_insert]
      | some s => simp [Table.upsert, hl]
    · rw [Table.lookup_upsert_ne hg]
      simp [hg]

/-- A group with no row gets its aggregate, and a row there is stays. -/
theorem lookup_insertGroups (t : Table G S) (src : Table K V) (key : K → G) (f : List V → S)
    (g : G) : (insertGroups t src key f).lookup g =
      (t.lookup g).or
        (if groupValues src key g = [] then none else some (f (groupValues src key g))) := by
  rw [insertGroups, lookup_foldl_ignore fun g => f (groupValues src key g)]
  by_cases hnil : groupValues src key g = []
  · have hout : g ∉ (src.keys.map key).dedup := by
      intro hmem
      obtain ⟨k, hk, hkey⟩ := List.mem_map.1 (List.mem_dedup.1 hmem)
      obtain ⟨v, hv⟩ := Option.isSome_iff_exists.1 (AList.lookup_isSome.2 hk)
      exact groupValues_eq_nil.1 hnil k v hv hkey
    rw [if_neg hout, if_pos hnil]
  · obtain ⟨v, hv⟩ := List.exists_mem_of_ne_nil _ hnil
    obtain ⟨k, hk, hkey⟩ := mem_groupValues.1 hv
    have hin : g ∈ (src.keys.map key).dedup :=
      List.mem_dedup.2 (List.mem_map.2 ⟨k, AList.lookup_isSome.1 (by rw [hk]; rfl), hkey⟩)
    rw [if_pos hin, if_neg hnil]

/-- Nothing is inserted when every group has its row. -/
theorem insertGroups_eq_self {t : Table G S} {src : Table K V} {key : K → G} {f : List V → S}
    (h : ∀ k v, src.lookup k = some v → t.lookup (key k) ≠ none) :
    insertGroups t src key f = t := by
  have hall : ∀ g ∈ (src.keys.map key).dedup, t.lookup g ≠ none := by
    intro g hg
    obtain ⟨k, hk, rfl⟩ := List.mem_map.1 (List.mem_dedup.1 hg)
    obtain ⟨v, hv⟩ := Option.isSome_iff_exists.1 (AList.lookup_isSome.2 hk)
    exact h k v hv
  unfold insertGroups
  generalize (src.keys.map key).dedup = gs at hall
  induction gs with
  | nil => rfl
  | cons g gs ih =>
    obtain ⟨s, hs⟩ := Option.ne_none_iff_exists'.1 (hall g (by simp))
    have hkeep : (t.upsert g (f (groupValues src key g)) fun _ => none).1 = t := by
      simp [Table.upsert, hs]
    rw [List.foldl_cons, hkeep]
    exact ih fun g' hg' => hall g' (List.mem_cons_of_mem _ hg')

theorem perm_flatMap_filter {α : Type} (l : List α) (f : α → H) {hs : List H} (hnd : hs.Nodup) :
    (l.filter fun a => f a ∈ hs).Perm (hs.flatMap fun h => l.filter fun a => f a = h) := by
  induction hs with
  | nil => simp
  | cons h hs ih =>
    obtain ⟨hnew, hnd⟩ := List.nodup_cons.1 hnd
    have hsplit := List.filter_append_perm (fun a => f a = h) (l.filter fun a => f a ∈ h :: hs)
    rw [List.filter_filter, List.filter_filter] at hsplit
    have hfirst : (l.filter fun a => decide (f a = h) && decide (f a ∈ h :: hs)) =
        l.filter fun a => f a = h := by
      apply List.filter_congr
      intro a _
      by_cases ha : f a = h
      · simp [ha]
      · simp [ha]
    have hrest : (l.filter fun a => (!decide (f a = h)) && decide (f a ∈ h :: hs)) =
        l.filter fun a => f a ∈ hs := by
      apply List.filter_congr
      intro a _
      by_cases ha : f a = h
      · simp [ha, hnew]
      · simp [ha]
    rw [hfirst, hrest] at hsplit
    rw [List.flatMap_cons]
    exact hsplit.symm.trans ((ih hnd).append_left _)

/-- A group of groups is made of its groups. -/
theorem groupValues_perm_flatMap {t : Table K V} {inner : K → H} {outer : H → G} {g : G}
    {hs : List H} (hnd : hs.Nodup) (hout : ∀ h ∈ hs, outer h = g)
    (hcover : ∀ k v, t.lookup k = some v → outer (inner k) = g → inner k ∈ hs) :
    (groupValues t (fun k => outer (inner k)) g).Perm (hs.flatMap (groupValues t inner)) := by
  have hsame : (t.entries.filter fun e => outer (inner e.1) = g) =
      t.entries.filter fun e => inner e.1 ∈ hs := by
    apply List.filter_congr
    intro e he
    have hiff : outer (inner e.1) = g ↔ inner e.1 ∈ hs :=
      ⟨hcover e.1 e.2 (Table.mem_entries.1 he), hout _⟩
    simp [hiff]
  have hparts := (perm_flatMap_filter t.entries (fun e => inner e.1) hnd).map fun e => e.2
  rw [List.map_flatMap] at hparts
  rw [groupValues, hsame]
  exact hparts

end Groups

section Summaries

variable {K : Type}

/-- A row `(v_min, v_max, v_avg, n)`. -/
structure Summary (K : Type) where
  vMin : K
  vMax : K
  vAvg : K
  n : Nat
deriving DecidableEq

variable [Field K] [LinearOrder K]

/-- The row tells the values' number, extrema and mean. -/
structure IsSummary (values : List K) (s : Summary K) : Prop where
  n_eq : s.n = values.length
  vMin_mem : s.vMin ∈ values
  vMin_le : ∀ v ∈ values, s.vMin ≤ v
  vMax_mem : s.vMax ∈ values
  le_vMax : ∀ v ∈ values, v ≤ s.vMax
  vAvg_eq : s.vAvg = values.sum / values.length

/-- `MIN` -/
def least (values : List K) : K := values.min?.getD 0

/-- `MAX` -/
def greatest (values : List K) : K := values.max?.getD 0

/-- `MIN(value), MAX(value), AVG(value), COUNT(*)` -/
def summarize (values : List K) : Summary K where
  vMin := least values
  vMax := greatest values
  vAvg := values.sum / values.length
  n := values.length

/-- `MIN(v_min), MAX(v_max), SUM(v_avg * n) / SUM(n), SUM(n)` -/
def mergeSummaries (parts : List (Summary K)) : Summary K where
  vMin := least (parts.map (·.vMin))
  vMax := greatest (parts.map (·.vMax))
  vAvg := (parts.map fun s => s.vAvg * (s.n : K)).sum / ((parts.map (·.n)).sum : Nat)
  n := (parts.map (·.n)).sum

theorem least_spec {values : List K} (h : values ≠ []) :
    least values ∈ values ∧ ∀ v ∈ values, least values ≤ v := by
  obtain ⟨m, hm⟩ := Option.isSome_iff_exists.1 (List.isSome_min?_of_ne_nil h)
  rw [least, hm]
  exact List.min?_eq_some_iff.1 hm

theorem greatest_spec {values : List K} (h : values ≠ []) :
    greatest values ∈ values ∧ ∀ v ∈ values, v ≤ greatest values := by
  obtain ⟨m, hm⟩ := Option.isSome_iff_exists.1 (List.isSome_max?_of_ne_nil h)
  rw [greatest, hm]
  exact List.max?_eq_some_iff.1 hm

theorem isSummary_summarize {values : List K} (h : values ≠ []) :
    IsSummary values (summarize values) where
  n_eq := rfl
  vMin_mem := (least_spec h).1
  vMin_le := (least_spec h).2
  vMax_mem := (greatest_spec h).1
  le_vMax := (greatest_spec h).2
  vAvg_eq := rfl

namespace IsSummary

theorem perm {l l' : List K} {s : Summary K} (h : IsSummary l s) (hl : l.Perm l') :
    IsSummary l' s where
  n_eq := by rw [h.n_eq, hl.length_eq]
  vMin_mem := hl.mem_iff.1 h.vMin_mem
  vMin_le := fun v hv => h.vMin_le v (hl.mem_iff.2 hv)
  vMax_mem := hl.mem_iff.1 h.vMax_mem
  le_vMax := fun v hv => h.le_vMax v (hl.mem_iff.2 hv)
  vAvg_eq := by rw [h.vAvg_eq, hl.sum_eq, hl.length_eq]

theorem sum_n {ι : Type} {is : List ι} {part : ι → List K} {row : ι → Summary K}
    (h : ∀ i ∈ is, IsSummary (part i) (row i)) :
    ((is.map row).map (·.n)).sum = (is.flatMap part).length := by
  rw [List.map_map, List.length_flatMap]
  exact congrArg List.sum (List.map_congr_left fun i hi => (h i hi).n_eq)

variable [IsStrictOrderedRing K]

theorem vAvg_mul_n {l : List K} {s : Summary K} (h : IsSummary l s) : s.vAvg * s.n = l.sum := by
  have hpos : 0 < l.length := List.length_pos_of_mem h.vMin_mem
  have hne : (l.length : K) ≠ 0 := Nat.cast_ne_zero.2 hpos.ne'
  rw [h.vAvg_eq, h.n_eq, div_mul_cancel₀ _ hne]

theorem sum_vAvg {ι : Type} {is : List ι} {part : ι → List K} {row : ι → Summary K}
    (h : ∀ i ∈ is, IsSummary (part i) (row i)) :
    ((is.map row).map fun s => s.vAvg * (s.n : K)).sum = (is.flatMap part).sum := by
  rw [List.map_map, List.flatMap_def, List.sum_flatten, List.map_map]
  exact congrArg List.sum (List.map_congr_left fun i hi => (h i hi).vAvg_mul_n)

/-- **The rows of the parts fold into the row of the whole.** -/
theorem merge {ι : Type} {is : List ι} {part : ι → List K} {row : ι → Summary K}
    (h : ∀ i ∈ is, IsSummary (part i) (row i)) (hne : is ≠ []) :
    IsSummary (is.flatMap part) (mergeSummaries (is.map row)) := by
  have hmins : (is.map row).map (·.vMin) ≠ [] := by simpa using hne
  have hmaxs : (is.map row).map (·.vMax) ≠ [] := by simpa using hne
  have hmin := least_spec hmins
  have hmax := greatest_spec hmaxs
  refine ⟨sum_n h, ?_, ?_, ?_, ?_, ?_⟩
  · obtain ⟨s, hs, hv⟩ := List.mem_map.1 hmin.1
    obtain ⟨i, hi, rfl⟩ := List.mem_map.1 hs
    have hmem := (h i hi).vMin_mem
    rw [hv] at hmem
    exact List.mem_flatMap.2 ⟨i, hi, hmem⟩
  · intro v hv
    obtain ⟨i, hi, hvi⟩ := List.mem_flatMap.1 hv
    have hrow := hmin.2 _ (List.mem_map_of_mem (List.mem_map_of_mem hi))
    exact hrow.trans ((h i hi).vMin_le v hvi)
  · obtain ⟨s, hs, hv⟩ := List.mem_map.1 hmax.1
    obtain ⟨i, hi, rfl⟩ := List.mem_map.1 hs
    have hmem := (h i hi).vMax_mem
    rw [hv] at hmem
    exact List.mem_flatMap.2 ⟨i, hi, hmem⟩
  · intro v hv
    obtain ⟨i, hi, hvi⟩ := List.mem_flatMap.1 hv
    have hrow := hmax.2 _ (List.mem_map_of_mem (List.mem_map_of_mem hi))
    exact ((h i hi).le_vMax v hvi).trans hrow
  · change _ / _ = _
    rw [sum_vAvg h, sum_n h]

/-- The rows of the groups of a group fold into its row. -/
theorem mergeGroups {V H G : Type} [DecidableEq V] [DecidableEq H] [DecidableEq G]
    {t : Table V K} {mid : Table H (Summary K)} {inner : V → H} {outer : H → G} {g : G}
    (hrow : ∀ h s, mid.lookup h = some s → outer h = g → IsSummary (groupValues t inner h) s)
    (hcover : ∀ k v, t.lookup k = some v → outer (inner k) = g → mid.lookup (inner k) ≠ none)
    (hne : groupValues mid outer g ≠ []) :
    IsSummary (groupValues t (fun k => outer (inner k)) g)
      (mergeSummaries (groupValues mid outer g)) := by
  have hin : ∀ e ∈ mid.entries.filter fun e => outer e.1 = g,
      mid.lookup e.1 = some e.2 ∧ outer e.1 = g := by
    intro e he
    obtain ⟨hmem, hout⟩ := List.mem_filter.1 he
    exact ⟨Table.mem_entries.1 hmem, of_decide_eq_true hout⟩
  have hmerged := merge (fun e he => hrow e.1 e.2 (hin e he).1 (hin e he).2)
    fun hnil => hne (List.map_eq_nil_iff.2 hnil)
  have hkeys : ((mid.entries.filter fun e => outer e.1 = g).map fun e => e.1).Nodup :=
    (mid.nodupKeys.sublist List.filter_sublist : List.NodupKeys _)
  have hout : ∀ h ∈ (mid.entries.filter fun e => outer e.1 = g).map fun e => e.1, outer h = g := by
    intro h hh
    obtain ⟨e, he, rfl⟩ := List.mem_map.1 hh
    exact (hin e he).2
  have hall : ∀ k v, t.lookup k = some v → outer (inner k) = g →
      inner k ∈ (mid.entries.filter fun e => outer e.1 = g).map fun e => e.1 := by
    intro k v hk hg
    obtain ⟨s, hs⟩ := Option.ne_none_iff_exists'.1 (hcover k v hk hg)
    have hmem : (⟨inner k, s⟩ : Sigma fun _ : H => Summary K) ∈
        mid.entries.filter fun e => outer e.1 = g :=
      List.mem_filter.2 ⟨Table.mem_entries.2 hs, decide_eq_true hg⟩
    exact List.mem_map.2 ⟨_, hmem, rfl⟩
  have hparts := groupValues_perm_flatMap hkeys hout hall
  rw [List.flatMap_map] at hparts
  exact hmerged.perm hparts.symm

end IsSummary

end Summaries

end Lib
end Naiad
