import Mathlib.Data.List.Nodup
import Mathlib.Data.List.Perm.Basic

/-!
# Naiad.Lib.IdTable

Tables whose rows get their id from the engine: a new row takes the greatest id plus one. With a
value column that is kept unique they are interning tables.

* `mem_rows_iff_idOf`: in an interning table the id of a value determines the row.
* `idOf_intern`: interning a value makes it resolve to the id returned.
* `intern_rows`: interning keeps every row there was.
-/

namespace Naiad
namespace Lib

/-- Rows newest first, so that ids decrease along the list. -/
structure IdTable (α : Type) where
  rows : List (Nat × α)
  fresh : (rows.map Prod.fst).Pairwise (· > ·)

namespace IdTable

variable {α : Type}

def empty : IdTable α := ⟨[], List.Pairwise.nil⟩

def ids (t : IdTable α) : List Nat := t.rows.map Prod.fst

def values (t : IdTable α) : List α := t.rows.map Prod.snd

def nextId (t : IdTable α) : Nat := t.ids.headD 0 + 1

theorem lt_nextId {t : IdTable α} {id : Nat} (h : id ∈ t.ids) : id < t.nextId := by
  obtain ⟨rows, fresh⟩ := t
  cases rows with
  | nil => simp [ids] at h
  | cons r rows =>
    simp only [List.map_cons, List.pairwise_cons] at fresh
    simp only [ids, List.map_cons, List.mem_cons] at h
    simp only [nextId, ids, List.map_cons, List.headD_cons]
    rcases h with h | h
    · omega
    · have := fresh.1 id h
      omega

theorem nextId_not_mem (t : IdTable α) : t.nextId ∉ t.ids := by
  intro h
  exact absurd (lt_nextId h) (Nat.lt_irrefl _)

theorem ids_nodup (t : IdTable α) : t.ids.Nodup := t.fresh.imp (fun h => Nat.ne_of_gt h)

/-- `INSERT`: the new row takes the greatest id plus one. -/
def append (t : IdTable α) (v : α) : IdTable α :=
  ⟨(t.nextId, v) :: t.rows, List.Pairwise.cons (fun _ h => lt_nextId h) t.fresh⟩

@[simp] theorem append_rows (t : IdTable α) (v : α) :
    (t.append v).rows = (t.nextId, v) :: t.rows := rfl

def valueOf (t : IdTable α) (id : Nat) : Option α := (t.rows.find? (·.1 = id)).map Prod.snd

theorem mem_rows_unique {t : IdTable α} {id : Nat} {v w : α} (hv : (id, v) ∈ t.rows)
    (hw : (id, w) ∈ t.rows) : v = w := by
  have := List.inj_on_of_nodup_map t.ids_nodup hv hw rfl
  exact (Prod.mk.inj this).2

theorem valueOf_eq_some {t : IdTable α} {id : Nat} {v : α} :
    t.valueOf id = some v ↔ (id, v) ∈ t.rows := by
  unfold valueOf
  constructor
  · intro h
    obtain ⟨⟨i, w⟩, hf, rfl⟩ := Option.map_eq_some_iff.1 h
    have hi : i = id := by simpa using List.find?_some hf
    subst hi
    exact List.mem_of_find?_eq_some hf
  · intro h
    cases hf : t.rows.find? (·.1 = id) with
    | none =>
      have := List.find?_eq_none.1 hf (id, v) h
      simp at this
    | some r =>
      obtain ⟨i, w⟩ := r
      have hi : i = id := by simpa using List.find?_some hf
      subst hi
      rw [mem_rows_unique h (List.mem_of_find?_eq_some hf)]
      rfl

theorem mem_ids_of_mem {t : IdTable α} {id : Nat} {v : α} (h : (id, v) ∈ t.rows) : id ∈ t.ids :=
  List.mem_map.2 ⟨_, h, rfl⟩

theorem mem_values_of_mem {t : IdTable α} {id : Nat} {v : α} (h : (id, v) ∈ t.rows) :
    v ∈ t.values :=
  List.mem_map.2 ⟨_, h, rfl⟩

theorem exists_valueOf {t : IdTable α} {id : Nat} (h : id ∈ t.ids) :
    ∃ v, t.valueOf id = some v := by
  obtain ⟨⟨i, v⟩, hmem, rfl⟩ := List.mem_map.1 h
  exact ⟨v, valueOf_eq_some.2 hmem⟩

/-! ## Interning -/

/-- The `UNIQUE` constraint on the value column. -/
def Unique (t : IdTable α) : Prop := t.values.Nodup

theorem unique_empty : (empty : IdTable α).Unique := List.nodup_nil

theorem Unique.append {t : IdTable α} (h : t.Unique) {v : α} (hv : v ∉ t.values) :
    (t.append v).Unique := List.nodup_cons.2 ⟨hv, h⟩

/-! ## Rows changed in place -/

/-- `DELETE .. WHERE id = ..` -/
def erase (t : IdTable α) (id : Nat) : IdTable α :=
  ⟨t.rows.filter (·.1 ≠ id), t.fresh.sublist (List.filter_sublist.map _)⟩

/-- `UPDATE .. SET value = v WHERE id = ..` -/
def setValue (t : IdTable α) (id : Nat) (v : α) : IdTable α :=
  ⟨t.rows.map fun r => (r.1, if r.1 = id then v else r.2), by
    rw [List.map_map]
    exact t.fresh⟩

theorem mem_ids_erase {t : IdTable α} {id i : Nat} :
    i ∈ (t.erase id).ids ↔ i ∈ t.ids ∧ i ≠ id := by
  simp only [ids, erase, List.mem_map, List.mem_filter, decide_eq_true_eq]
  constructor
  · rintro ⟨r, ⟨hr, hne⟩, rfl⟩
    exact ⟨⟨r, hr, rfl⟩, hne⟩
  · rintro ⟨⟨r, hr, rfl⟩, hne⟩
    exact ⟨r, ⟨hr, hne⟩, rfl⟩

theorem Unique.erase {t : IdTable α} (h : t.Unique) (id : Nat) : (t.erase id).Unique :=
  h.sublist (List.filter_sublist.map _)

theorem ids_setValue (t : IdTable α) (id : Nat) (v : α) : (t.setValue id v).ids = t.ids := by
  rw [ids, setValue, List.map_map]
  rfl

/-- A row may take a value that no row has. -/
theorem Unique.setValue {t : IdTable α} (h : t.Unique) (id : Nat) {v : α} (hv : v ∉ t.values) :
    (t.setValue id v).Unique := by
  have hrows : t.rows.Nodup := List.Nodup.of_map _ t.ids_nodup
  rw [Unique, values, IdTable.setValue, List.map_map]
  refine hrows.map_on ?_
  intro r hr r' hr' heq
  simp only [Function.comp] at heq
  by_cases hid : r.1 = id
  · by_cases hid' : r'.1 = id
    · exact List.inj_on_of_nodup_map t.ids_nodup hr hr' (hid.trans hid'.symm)
    · rw [if_pos hid, if_neg hid'] at heq
      exact absurd (List.mem_map.2 ⟨r', hr', heq.symm⟩) hv
  · by_cases hid' : r'.1 = id
    · rw [if_neg hid, if_pos hid'] at heq
      exact absurd (List.mem_map.2 ⟨r, hr, heq⟩) hv
    · rw [if_neg hid, if_neg hid'] at heq
      exact List.inj_on_of_nodup_map h hr hr' heq

theorem valueOf_setValue (t : IdTable α) (id : Nat) (v : α) (i : Nat) :
    (t.setValue id v).valueOf i = (t.valueOf i).map fun w => if i = id then v else w := by
  simp only [valueOf, setValue, List.find?_map, Option.map_map]
  cases hf : t.rows.find? fun r => r.1 = i with
  | none => simp [Function.comp_def, hf]
  | some r =>
    have hi : r.1 = i := by simpa using List.find?_some hf
    simp [Function.comp_def, hf, hi]

theorem valueOf_erase (t : IdTable α) (id i : Nat) :
    (t.erase id).valueOf i = if i = id then none else t.valueOf i := by
  cases h : (t.erase id).valueOf i with
  | some v =>
    obtain ⟨hrow, hne⟩ := List.mem_filter.1 (valueOf_eq_some.1 h)
    rw [if_neg (by simpa using hne), valueOf_eq_some.2 hrow]
  | none =>
    split
    · rfl
    · rename_i hne
      cases hv : t.valueOf i with
      | none => rfl
      | some v =>
        have hrow : (i, v) ∈ (t.erase id).rows :=
          List.mem_filter.2 ⟨valueOf_eq_some.1 hv, by simpa using hne⟩
        rw [valueOf_eq_some.2 hrow] at h
        cases h

variable [DecidableEq α]

instance (t : IdTable α) : Decidable t.Unique := inferInstanceAs (Decidable t.values.Nodup)

/-- `SELECT id WHERE value = v`. -/
def idOf (t : IdTable α) (v : α) : Option Nat := (t.rows.find? (·.2 = v)).map Prod.fst

theorem mem_of_idOf {t : IdTable α} {v : α} {id : Nat} (h : t.idOf v = some id) :
    (id, v) ∈ t.rows := by
  obtain ⟨⟨i, w⟩, hf, rfl⟩ := Option.map_eq_some_iff.1 h
  have hw : w = v := by simpa using List.find?_some hf
  subst hw
  exact List.mem_of_find?_eq_some hf

theorem mem_ids_of_idOf {t : IdTable α} {v : α} {id : Nat} (h : t.idOf v = some id) : id ∈ t.ids :=
  mem_ids_of_mem (mem_of_idOf h)

theorem valueOf_of_idOf {t : IdTable α} {v : α} {id : Nat} (h : t.idOf v = some id) :
    t.valueOf id = some v :=
  valueOf_eq_some.2 (mem_of_idOf h)

theorem idOf_eq_none {t : IdTable α} {v : α} : t.idOf v = none ↔ v ∉ t.values := by
  simp only [idOf, Option.map_eq_none_iff, List.find?_eq_none, values, List.mem_map]
  constructor
  · rintro h ⟨r, hr, rfl⟩
    simpa using h r hr
  · intro h r hr
    have : r.2 ≠ v := fun he => h ⟨r, hr, he⟩
    simpa using this

theorem mem_rows_iff_idOf {t : IdTable α} (hu : t.Unique) {v : α} {id : Nat} :
    (id, v) ∈ t.rows ↔ t.idOf v = some id := by
  constructor
  · intro h
    cases hid : t.idOf v with
    | none => exact absurd (mem_values_of_mem h) (idOf_eq_none.1 hid)
    | some j =>
      have := List.inj_on_of_nodup_map hu (mem_of_idOf hid) h rfl
      rw [(Prod.mk.inj this).1]
  · exact mem_of_idOf

theorem idOf_of_valueOf {t : IdTable α} (hu : t.Unique) {v : α} {id : Nat}
    (h : t.valueOf id = some v) : t.idOf v = some id :=
  (mem_rows_iff_idOf hu).1 (valueOf_eq_some.1 h)

theorem idOf_append (t : IdTable α) (v w : α) :
    (t.append v).idOf w = if v = w then some t.nextId else t.idOf w := by
  unfold idOf
  rw [append_rows, List.find?_cons]
  by_cases h : v = w <;> simp [h]

/-- The read-first resolver: the id of a value, inserting it when it has none. -/
def intern (t : IdTable α) (v : α) : IdTable α × Nat :=
  match t.idOf v with
  | some id => (t, id)
  | none => (t.append v, t.nextId)

theorem idOf_intern (t : IdTable α) (v : α) : (t.intern v).1.idOf v = some (t.intern v).2 := by
  unfold intern
  cases h : t.idOf v with
  | some id => exact h
  | none => simp [idOf_append]

theorem intern_of_idOf {t : IdTable α} {v : α} {id : Nat} (h : t.idOf v = some id) :
    t.intern v = (t, id) := by
  simp [intern, h]

theorem unique_intern {t : IdTable α} (h : t.Unique) (v : α) : (t.intern v).1.Unique := by
  unfold intern
  cases hid : t.idOf v with
  | some id => exact h
  | none => exact h.append (idOf_eq_none.1 hid)

/-- Interning keeps every row there was; the only row it can add is that of the value. -/
theorem mem_intern_rows {t : IdTable α} {v w : α} {id : Nat} :
    (id, w) ∈ (t.intern v).1.rows ↔
      (id, w) ∈ t.rows ∨ (t.idOf v = none ∧ id = t.nextId ∧ w = v) := by
  unfold intern
  cases hid : t.idOf v with
  | some i => simp
  | none => simp [or_comm]

theorem intern_rows {t : IdTable α} {v w : α} {id : Nat} (h : (id, w) ∈ t.rows) :
    (id, w) ∈ (t.intern v).1.rows :=
  mem_intern_rows.2 (.inl h)

theorem suffix_intern (t : IdTable α) (v : α) : t.rows <:+ (t.intern v).1.rows := by
  unfold intern
  cases t.idOf v with
  | some id => exact List.suffix_rfl
  | none => exact List.suffix_cons _ _

theorem mem_ids_intern {t : IdTable α} {v : α} {id : Nat} (h : id ∈ t.ids) :
    id ∈ (t.intern v).1.ids := by
  obtain ⟨⟨i, w⟩, hmem, rfl⟩ := List.mem_map.1 h
  exact mem_ids_of_mem (intern_rows hmem)

theorem idOf_intern_of_some {t : IdTable α} {v w : α} {id : Nat} (h : t.idOf w = some id) :
    (t.intern v).1.idOf w = some id := by
  unfold intern
  cases hid : t.idOf v with
  | some i => exact h
  | none =>
    rw [idOf_append, if_neg]
    · exact h
    · rintro rfl
      rw [hid] at h
      cases h

/-- A value that had no id and has one after interning another is that other value, with a fresh
id. -/
theorem idOf_intern_of_none {t : IdTable α} {v w : α} {id : Nat} (h : t.idOf w = none)
    (h' : (t.intern v).1.idOf w = some id) : w = v ∧ id = t.nextId := by
  unfold intern at h'
  cases hid : t.idOf v with
  | some i =>
    rw [hid] at h'
    rw [h] at h'
    cases h'
  | none =>
    rw [hid] at h'
    simp only [idOf_append] at h'
    split at h'
    · rename_i heq
      exact ⟨heq.symm, by simpa using h'.symm⟩
    · rw [h] at h'
      cases h'

theorem valueOf_intern {t : IdTable α} {id : Nat} (h : id ∈ t.ids) (v : α) :
    (t.intern v).1.valueOf id = t.valueOf id := by
  obtain ⟨w, hw⟩ := exists_valueOf h
  rw [hw, valueOf_eq_some]
  exact intern_rows (valueOf_eq_some.1 hw)

/-- Interning does not show where a fresh id leads nowhere. -/
theorem bind_idOf_intern {β : Type} {t : IdTable α} {f : Nat → Option β}
    (hf : ∀ id, id ∉ t.ids → f id = none) (v w : α) :
    ((t.intern v).1.idOf w).bind f = (t.idOf w).bind f := by
  cases hw : t.idOf w with
  | some id => rw [idOf_intern_of_some hw]
  | none =>
    cases hw' : (t.intern v).1.idOf w with
    | none => rfl
    | some id =>
      obtain ⟨_, rfl⟩ := idOf_intern_of_none hw hw'
      exact hf _ t.nextId_not_mem

end IdTable

end Lib
end Naiad
