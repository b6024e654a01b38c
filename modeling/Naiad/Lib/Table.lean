import Mathlib.Data.List.AList
import Mathlib.Data.List.Sort
import Mathlib.Order.Lattice

/-!
# Naiad.Lib.Table

Keyed tables as association lists: the statements a relational engine runs on them, beyond the
lookup, insert and erase of `AList`.

* `upsert`: `INSERT .. ON CONFLICT DO UPDATE .. WHERE`, with the number of rows changed.
* `modify`: `UPDATE`, a function of key and row that cannot change keys.
* `select`: `DELETE` of the rows that fail a test.
* `rekey`: `UPDATE OR IGNORE` of the key; `Moved`: what it leaves once the rows left behind go.
* `maxOf`: `COALESCE(MAX(column), 0)`.
* `groupOnto`, `collect`: rows collected into a map of lists, or of last values.
-/

namespace Naiad
namespace Lib

abbrev Table (K V : Type) := AList fun _ : K => V

namespace Table

variable {K V : Type}

section Modify

/-- Apply a function of the key to every row. -/
def modify (t : Table K V) (f : K → V → V) : Table K V :=
  ⟨t.entries.map fun e => ⟨e.1, f e.1 e.2⟩, by
    have : (t.entries.map fun e => (⟨e.1, f e.1 e.2⟩ : Sigma fun _ : K => V)).keys =
        t.entries.keys := by
      simp [List.keys]
    rw [List.NodupKeys, this]
    exact t.nodupKeys⟩

/-- Keep the rows that pass a test. -/
def select (t : Table K V) (p : K → V → Bool) : Table K V :=
  ⟨t.entries.filter fun e => p e.1 e.2, t.nodupKeys.sublist List.filter_sublist⟩

/-- A test of the key deletes nothing when every key passes it. -/
theorem select_eq_self {t : Table K V} {p : K → Bool} :
    select t (fun k _ => p k) = t ↔ ∀ k ∈ t.keys, p k = true := by
  rw [AList.ext_iff]
  change t.entries.filter _ = t.entries ↔ _
  rw [List.filter_eq_self]
  constructor
  · intro h k hk
    obtain ⟨e, he, rfl⟩ := List.mem_map.1 hk
    exact h e he
  · intro h e he
    exact h e.1 (List.mem_map.2 ⟨e, he, rfl⟩)

theorem mem_keys_select {t : Table K V} {p : K → Bool} {k : K} :
    k ∈ (select t fun k _ => p k).keys ↔ k ∈ t.keys ∧ p k = true := by
  constructor
  · intro h
    obtain ⟨e, he, rfl⟩ := List.mem_map.1 h
    obtain ⟨hmem, hp⟩ := List.mem_filter.1 he
    exact ⟨List.mem_map.2 ⟨e, hmem, rfl⟩, hp⟩
  · intro h
    obtain ⟨e, he, rfl⟩ := List.mem_map.1 h.1
    exact List.mem_map.2 ⟨e, List.mem_filter.2 ⟨he, h.2⟩, rfl⟩

variable [DecidableEq K]

theorem mem_entries {t : Table K V} {k : K} {v : V} :
    (⟨k, v⟩ : Sigma fun _ : K => V) ∈ t.entries ↔ t.lookup k = some v :=
  AList.mem_lookup_iff.symm

theorem lookup_modify (t : Table K V) (f : K → V → V) (k : K) :
    (modify t f).lookup k = (t.lookup k).map (f k) := by
  cases h : t.lookup k with
  | some v =>
    have hmem := mem_entries.2 h
    exact mem_entries.1 (List.mem_map.2 ⟨_, hmem, rfl⟩)
  | none =>
    rw [Option.map_none, AList.lookup_eq_none, AList.mem_keys]
    rw [AList.lookup_eq_none, AList.mem_keys] at h
    simpa [modify, AList.keys, List.keys] using h

theorem lookup_select (t : Table K V) (p : K → V → Bool) (k : K) :
    (select t p).lookup k = (t.lookup k).filter (p k) := by
  cases h : (t.lookup k).filter (p k) with
  | some v =>
    obtain ⟨hl, hp⟩ := Option.filter_eq_some_iff.1 h
    exact mem_entries.1 (List.mem_filter.2 ⟨mem_entries.2 hl, hp⟩)
  | none =>
    cases hs : (select t p).lookup k with
    | none => rfl
    | some v =>
      obtain ⟨hl, hp⟩ := List.mem_filter.1 (mem_entries.2 hs)
      have : (t.lookup k).filter (p k) = some v :=
        Option.filter_eq_some_iff.2 ⟨mem_entries.1 hl, hp⟩
      rw [h] at this
      cases this

theorem lookup_select_key (t : Table K V) (p : K → Bool) (k : K) :
    (select t fun k _ => p k).lookup k = if p k then t.lookup k else none := by
  rw [lookup_select]
  cases hp : p k with
  | false => simp
  | true =>
    cases t.lookup k with
    | none => rfl
    | some v => rfl

theorem of_lookup_erase {t : Table K V} {k k' : K} {v : V} (h : (t.erase k).lookup k' = some v) :
    k' ≠ k ∧ t.lookup k' = some v := by
  by_cases hk : k' = k
  · subst hk
    rw [AList.lookup_erase] at h
    cases h
  · exact ⟨hk, (AList.lookup_erase_ne hk).symm.trans h⟩

end Modify

section Length

theorem length_entries (t : Table K V) : t.entries.length = t.keys.length := by
  rw [AList.keys, List.keys, List.length_map]

variable [DecidableEq K]

theorem length_insert_of_mem {t : Table K V} {k : K} (h : k ∈ t) (v : V) :
    (t.insert k v).entries.length = t.entries.length := by
  have hpos : 0 < t.keys.length := List.length_pos_of_mem h
  rw [length_entries, length_entries, AList.keys_insert, List.length_cons, List.length_erase_of_mem h]
  omega

theorem length_insert_of_notMem {t : Table K V} {k : K} (h : k ∉ t) (v : V) :
    (t.insert k v).entries.length = t.entries.length + 1 := by
  rw [AList.entries_insert_of_notMem h, List.length_cons]

theorem length_erase_le (t : Table K V) (k : K) : (t.erase k).entries.length ≤ t.entries.length := by
  rw [length_entries, length_entries, AList.keys_erase]
  exact List.length_erase_le

end Length

section Upsert

variable [DecidableEq K]

/-- Insert a row, or let `merge` update the row there is; the count of rows changed. -/
def upsert (t : Table K V) (k : K) (row : V) (merge : V → Option V) : Table K V × Nat :=
  match t.lookup k with
  | none => (t.insert k row, 1)
  | some old =>
    match merge old with
    | none => (t, 0)
    | some new => (t.insert k new, 1)

theorem upsert_cases (t : Table K V) (k : K) (row : V) (merge : V → Option V) :
    (∃ old, t.lookup k = some old ∧ merge old = none ∧ upsert t k row merge = (t, 0)) ∨
      ∃ new, upsert t k row merge = (t.insert k new, 1) ∧
        ((t.lookup k = none ∧ new = row) ∨
          ∃ old, t.lookup k = some old ∧ merge old = some new) := by
  unfold upsert
  cases hl : t.lookup k with
  | none => exact .inr ⟨row, rfl, .inl ⟨rfl, rfl⟩⟩
  | some old =>
    simp only
    cases hm : merge old with
    | none => exact .inl ⟨old, rfl, hm, rfl⟩
    | some new => exact .inr ⟨new, rfl, .inr ⟨old, rfl, hm⟩⟩

theorem lookup_upsert_ne {t : Table K V} {k k' : K} {row : V} {merge : V → Option V}
    (h : k' ≠ k) : (upsert t k row merge).1.lookup k' = t.lookup k' := by
  rcases upsert_cases t k row merge with ⟨_, _, _, hu⟩ | ⟨new, hu, _⟩
  · rw [hu]
  · rw [hu, AList.lookup_insert_ne h]

end Upsert

section Rekey

variable [DecidableEq K]

/-- A row whose new key is taken stays as it is. -/
def rekeyRow (f : K → K) (t : Table K V) (e : Sigma fun _ : K => V) : Table K V :=
  if (t.lookup (f e.1)).isSome then t else (t.erase e.1).insert (f e.1) e.2

/-- `UPDATE OR IGNORE .. SET key = f key`. -/
def rekey (t : Table K V) (f : K → K) : Table K V := t.entries.foldl (rekeyRow f) t

theorem of_lookup_rekeyRow {f : K → K} {t : Table K V} {e : Sigma fun _ : K => V} {k : K} {v : V}
    (h : (rekeyRow f t e).lookup k = some v) : t.lookup k = some v ∨ (k = f e.1 ∧ v = e.2) := by
  unfold rekeyRow at h
  split at h
  · exact .inl h
  · by_cases hk : k = f e.1
    · rw [hk, AList.lookup_insert] at h
      exact .inr ⟨hk, (Option.some.inj h).symm⟩
    · rw [AList.lookup_insert_ne hk] at h
      by_cases hold : k = e.1
      · rw [hold, AList.lookup_erase] at h
        cases h
      · rw [AList.lookup_erase_ne hold] at h
        exact .inl h

/-- Every row comes from one there was, with its old key or the new one. -/
theorem of_lookup_rekey {f : K → K} {t : Table K V} {k : K} {v : V}
    (h : (rekey t f).lookup k = some v) : ∃ k', t.lookup k' = some v ∧ (k = k' ∨ k = f k') := by
  have hrows : ∀ (l : List (Sigma fun _ : K => V)) (s : Table K V),
      (l.foldl (rekeyRow f) s).lookup k = some v →
        s.lookup k = some v ∨ ∃ e ∈ l, k = f e.1 ∧ v = e.2 := by
    intro l
    induction l with
    | nil => exact fun _ hs => .inl hs
    | cons e l ih =>
      intro s hs
      rcases ih _ hs with hrow | ⟨e', he', hrow⟩
      · rcases of_lookup_rekeyRow hrow with hold | hnew
        · exact .inl hold
        · exact .inr ⟨e, by simp, hnew⟩
      · exact .inr ⟨e', List.mem_cons_of_mem _ he', hrow⟩
  rcases hrows t.entries t h with hold | ⟨e, he, hk, hv⟩
  · exact ⟨k, hold, .inl rfl⟩
  · refine ⟨e.1, ?_, .inr hk⟩
    rw [hv]
    exact mem_entries.1 he

theorem lookup_rekeyRow_of_some {f : K → K} {t : Table K V} {e : Sigma fun _ : K => V} {k : K}
    {v : V} (hk : f k = k) (h : t.lookup k = some v) : (rekeyRow f t e).lookup k = some v := by
  unfold rekeyRow
  split
  · exact h
  · rename_i hfree
    have hne : k ≠ f e.1 := by
      rintro rfl
      simp [h] at hfree
    have hne' : k ≠ e.1 := by
      rintro rfl
      exact hne hk.symm
    rw [AList.lookup_insert_ne hne, AList.lookup_erase_ne hne', h]

/-- A row whose key stays keeps its value. -/
theorem lookup_foldl_rekeyRow {f : K → K} {k : K} {v : V} (hk : f k = k)
    (l : List (Sigma fun _ : K => V)) {t : Table K V} (h : t.lookup k = some v) :
    (l.foldl (rekeyRow f) t).lookup k = some v := by
  induction l generalizing t with
  | nil => exact h
  | cons e l ih => exact ih (lookup_rekeyRow_of_some hk h)

/-- The new key of a row is taken in the end, by this row or another. -/
theorem exists_lookup_rekey {f : K → K} (hf : ∀ k, f (f k) = f k) {t : Table K V} {k : K} {v : V}
    (h : t.lookup k = some v) : ∃ v', (rekey t f).lookup (f k) = some v' := by
  have hrows : ∀ (l : List (Sigma fun _ : K => V)) (s : Table K V),
      (⟨k, v⟩ : Sigma fun _ : K => V) ∈ l →
        ∃ v', (l.foldl (rekeyRow f) s).lookup (f k) = some v' := by
    intro l
    induction l with
    | nil => simp
    | cons e l ih =>
      intro s he
      rcases List.mem_cons.1 he with rfl | he
      · have hhead : ∃ v', (rekeyRow f s ⟨k, v⟩).lookup (f k) = some v' := by
          unfold rekeyRow
          split
          · rename_i htaken
            exact Option.isSome_iff_exists.1 htaken
          · exact ⟨v, AList.lookup_insert _⟩
        obtain ⟨v', hv'⟩ := hhead
        exact ⟨v', lookup_foldl_rekeyRow (hf k) l hv'⟩
      · exact ih _ he
  exact hrows t.entries t (mem_entries.2 h)

/-- `t'` has the rows of `t` under their new keys, one for each. -/
structure Moved (f : K → K) (g : V → V) (t t' : Table K V) : Prop where
  of_new : ∀ k' v', t'.lookup k' = some v' → ∃ k v, t.lookup k = some v ∧ f k = k' ∧ g v = v'
  of_old : ∀ k v, t.lookup k = some v → ∃ v', t'.lookup (f k) = some v'

namespace Moved

theorem of_id {f : K → K} {g : V → V} (hf : ∀ k, f k = k) (hg : ∀ v, g v = v) (t : Table K V) :
    Moved f g t t where
  of_new := fun k v h => ⟨k, v, h, hf k, hg v⟩
  of_old := fun k v h => ⟨v, by rw [hf, h]⟩

/-- Keys are rewritten, and the rows that could not move are deleted. -/
theorem of_rekey {f : K → K} {g : V → V} (hf : ∀ k, f (f k) = f k) {t t' : Table K V}
    (h : ∀ k v', t'.lookup k = some v' ↔ f k = k ∧ ∃ v, (rekey t f).lookup k = some v ∧ g v = v') :
    Moved f g t t' where
  of_new := by
    intro k' v' hv'
    obtain ⟨hk', v, hv, hg⟩ := (h k' v').1 hv'
    obtain ⟨k, hk, rfl | rfl⟩ := of_lookup_rekey hv
    · exact ⟨k', v, hk, hk', hg⟩
    · exact ⟨k, v, hk, rfl, hg⟩
  of_old := by
    intro k v hv
    obtain ⟨v', hv'⟩ := exists_lookup_rekey hf hv
    exact ⟨g v', (h (f k) (g v')).2 ⟨hf k, v', hv', rfl⟩⟩

end Moved

end Rekey

section Max

/-- `COALESCE(MAX(f), 0)`. -/
def maxOf (t : Table K V) (f : V → Nat) : Nat := (t.entries.map fun e => f e.2).foldr max 0

theorem le_foldr_max {l : List Nat} {n : Nat} (h : n ∈ l) : n ≤ l.foldr max 0 := by
  induction l with
  | nil => cases h
  | cons a l ih =>
    rw [List.foldr_cons]
    rcases List.mem_cons.1 h with rfl | h
    · exact Nat.le_max_left _ _
    · exact Nat.le_trans (ih h) (Nat.le_max_right _ _)

theorem foldr_max_le {l : List Nat} {n : Nat} (h : ∀ m ∈ l, m ≤ n) : l.foldr max 0 ≤ n := by
  induction l with
  | nil => exact Nat.zero_le n
  | cons a l ih =>
    rw [List.foldr_cons]
    exact Nat.max_le.2 ⟨h a (by simp), ih fun m hm => h m (List.mem_cons_of_mem _ hm)⟩

variable [DecidableEq K]

theorem le_maxOf {t : Table K V} {f : V → Nat} {k : K} {v : V} (h : t.lookup k = some v) :
    f v ≤ maxOf t f :=
  le_foldr_max (List.mem_map.2 ⟨_, mem_entries.2 h, rfl⟩)

theorem maxOf_le {t : Table K V} {f : V → Nat} {n : Nat}
    (h : ∀ k v, t.lookup k = some v → f v ≤ n) : maxOf t f ≤ n := by
  apply foldr_max_le
  intro m hm
  obtain ⟨⟨k, v⟩, he, rfl⟩ := List.mem_map.1 hm
  exact h k v (mem_entries.1 he)

end Max

section Group

variable [DecidableEq K]

/-- Append a value to the list a key holds. -/
def push (t : Table K (List V)) (k : K) (v : V) : Table K (List V) :=
  t.insert k ((t.lookup k).getD [] ++ [v])

def groupOnto (t : Table K (List V)) (l : List (K × V)) : Table K (List V) :=
  l.foldl (fun t e => push t e.1 e.2) t

theorem lookup_groupOnto (t : Table K (List V)) (l : List (K × V)) (k : K) :
    ((groupOnto t l).lookup k).getD [] =
      (t.lookup k).getD [] ++ (l.filter (·.1 = k)).map Prod.snd := by
  induction l generalizing t with
  | nil => simp [groupOnto]
  | cons e l ih =>
    change ((groupOnto (push t e.1 e.2) l).lookup k).getD [] = _
    rw [ih, push]
    by_cases h : e.1 = k
    · subst h
      simp [AList.lookup_insert]
    · rw [AList.lookup_insert_ne (Ne.symm h)]
      simp [h]

theorem mem_groupOnto (t : Table K (List V)) (l : List (K × V)) (k : K) :
    k ∈ groupOnto t l ↔ k ∈ t ∨ ∃ v, (k, v) ∈ l := by
  induction l generalizing t with
  | nil => simp [groupOnto]
  | cons e l ih =>
    change k ∈ groupOnto (push t e.1 e.2) l ↔ _
    rw [ih, push, AList.mem_insert]
    constructor
    · rintro ((rfl | h) | ⟨v, hv⟩)
      · exact .inr ⟨e.2, by simp⟩
      · exact .inl h
      · exact .inr ⟨v, List.mem_cons_of_mem _ hv⟩
    · rintro (h | ⟨v, hv⟩)
      · exact .inl (.inr h)
      · rcases List.mem_cons.1 hv with rfl | hv
        · exact .inl (.inl rfl)
        · exact .inr ⟨v, hv⟩

theorem groupOnto_ne_nil {l : List (K × V)} {k : K} {vs : List V}
    (h : (groupOnto ∅ l).lookup k = some vs) : vs ≠ [] := by
  have hmem : k ∈ groupOnto ∅ l := AList.lookup_isSome.1 (by rw [h]; rfl)
  rcases (mem_groupOnto ∅ l k).1 hmem with hempty | ⟨v, hv⟩
  · cases hempty
  · have hvs := lookup_groupOnto ∅ l k
    rw [h] at hvs
    have hin : v ∈ (l.filter (·.1 = k)).map Prod.snd :=
      List.mem_map.2 ⟨(k, v), List.mem_filter.2 ⟨hv, by simp⟩, rfl⟩
    intro hnil
    simp only [Option.getD_some, AList.lookup_empty, Option.getD_none, List.nil_append] at hvs
    rw [← hvs, hnil] at hin
    cases hin

/-- The rows of a map of lists. -/
def rows (t : Table K (List V)) : List (K × V) :=
  t.entries.flatMap fun e => e.2.map fun v => (e.1, v)

theorem rows_insert (t : Table K (List V)) (k : K) (vs : List V) :
    rows (t.insert k vs) = vs.map (fun v => (k, v)) ++ rows (t.erase k) := by
  rw [rows, AList.entries_insert]
  rfl

theorem perm_rows (t : Table K (List V)) (k : K) :
    (rows t).Perm (((t.lookup k).getD []).map (fun v => (k, v)) ++ rows (t.erase k)) := by
  by_cases hk : k ∈ t
  · obtain ⟨vs, before, after, hfresh, hsplit, herase⟩ := List.exists_of_kerase (AList.mem_keys.1 hk)
    have hl : t.lookup k = some vs := by
      rw [AList.lookup, hsplit]
      simp [List.dlookup_append, List.dlookup_eq_none.2 hfresh]
    have hrest : (t.erase k).entries = before ++ after := herase
    rw [hl, rows, rows, hsplit, hrest, List.flatMap_append, List.flatMap_append, List.flatMap_cons]
    exact List.perm_append_comm_assoc _ _ _
  · have hnone : t.lookup k = none := AList.lookup_eq_none.2 hk
    have hsame : (t.erase k).entries = t.entries := List.kerase_of_notMem_keys hk
    rw [hnone, rows, rows, hsame]
    exact .refl _

/-- Collecting rows into a map of lists loses none. -/
theorem perm_rows_groupOnto (t : Table K (List V)) (l : List (K × V)) :
    (rows (groupOnto t l)).Perm (rows t ++ l) := by
  induction l generalizing t with
  | nil =>
    rw [List.append_nil]
    exact .refl _
  | cons e l ih =>
    have hpush : (rows (push t e.1 e.2)).Perm (rows t ++ [e]) := by
      have hnew : ([e] ++ rows (t.erase e.1)).Perm (rows (t.erase e.1) ++ [e]) :=
        List.perm_append_comm
      have hold := (perm_rows t e.1).symm.append_right [e]
      rw [List.append_assoc] at hold
      rw [push, rows_insert, List.map_append, List.append_assoc]
      exact (hnew.append_left _).trans hold
    have hrest := ih (push t e.1 e.2)
    have happ := hpush.append_right l
    rw [List.append_assoc] at happ
    exact hrest.trans happ

end Group

section Collect

variable [DecidableEq K]

/-- Rows collected into a map; a later row replaces an earlier one of its key. -/
def collect (l : List (K × V)) : Table K V := l.foldl (fun t e => t.insert e.1 e.2) ∅

theorem lookup_foldl_insert (l : List (K × V)) (t : Table K V) (k : K) :
    (l.foldl (fun t e => t.insert e.1 e.2) t).lookup k =
      (((l.filter (·.1 = k)).map Prod.snd).getLast?).or (t.lookup k) := by
  induction l generalizing t with
  | nil => rfl
  | cons e l ih =>
    rw [List.foldl_cons, ih]
    by_cases h : e.1 = k
    · subst h
      simp only [AList.lookup_insert, decide_true, List.filter_cons_of_pos, List.map_cons,
        List.getLast?_cons]
      cases ((l.filter (·.1 = e.1)).map Prod.snd).getLast? with
      | none => rfl
      | some v => rfl
    · rw [AList.lookup_insert_ne (Ne.symm h)]
      simp [h]

theorem collect_some {l : List (K × V)} {k : K} {v : V} (h : (collect l).lookup k = some v) :
    (k, v) ∈ l := by
  rw [collect, lookup_foldl_insert, AList.lookup_empty, Option.or_none] at h
  obtain ⟨e, he, rfl⟩ := List.mem_map.1 (List.mem_of_getLast? h)
  obtain ⟨hmem, hk⟩ := List.mem_filter.1 he
  rw [← of_decide_eq_true hk]
  exact hmem

/-- A key all of whose rows agree gets their value. -/
theorem collect_of_mem {l : List (K × V)} {k : K} {v : V} (h : (k, v) ∈ l)
    (hall : ∀ w, (k, w) ∈ l → w = v) : (collect l).lookup k = some v := by
  cases hl : (collect l).lookup k with
  | some w => rw [hall w (collect_some hl)]
  | none =>
    rw [collect, lookup_foldl_insert, AList.lookup_empty, Option.or_none,
      List.getLast?_eq_none_iff, List.map_eq_nil_iff, List.filter_eq_nil_iff] at hl
    have hfalse := hl _ h
    simp at hfalse

end Collect

end Table

/-- `ORDER BY key`. -/
def orderBy {α β : Type} [LinearOrder β] (key : α → β) (l : List α) : List α :=
  l.insertionSort fun a b => key a ≤ key b

theorem perm_orderBy {α β : Type} [LinearOrder β] (key : α → β) (l : List α) :
    (orderBy key l).Perm l :=
  List.perm_insertionSort _ l

@[simp] theorem mem_orderBy {α β : Type} [LinearOrder β] {key : α → β} {l : List α} {a : α} :
    a ∈ orderBy key l ↔ a ∈ l :=
  List.mem_insertionSort _

/-- Rows with distinct keys come out in strictly ascending order. -/
theorem orderBy_strict {α β : Type} [LinearOrder β] {key : α → β} {l : List α}
    (h : (l.map key).Nodup) : ((orderBy key l).map key).Pairwise (· < ·) := by
  have hle : ((orderBy key l).map key).Pairwise (· ≤ ·) := by
    rw [List.pairwise_map]
    exact List.pairwise_insertionSort (fun a b => key a ≤ key b) l
  have hne : ((orderBy key l).map key).Nodup :=
    ((List.perm_insertionSort (fun a b => key a ≤ key b) l).map key).nodup_iff.2 h
  exact (hle.and hne).imp fun h => lt_of_le_of_ne h.1 h.2

end Lib
end Naiad
