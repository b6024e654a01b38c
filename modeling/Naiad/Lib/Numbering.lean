import Naiad.Lib.DeltaLog
import Naiad.Lib.LastWrite

/-!
# Naiad.Lib.Numbering

Writes to a keyed log that are numbered as they change something: a write that finds its value
takes no number. And lists whose equal elements stand together.

* `recordAll_count`: as many numbers are given out as there are changes.
* `recordAll_log`: a key holds its last change, under the place of that change among all changes.
* `numbers_dense`: the numbers held are all of them if no key is given two values.
-/

namespace Naiad
namespace Lib

section Numbering

variable {K V : Type} [DecidableEq K] [DecidableEq V]

/-- A log and the last number given out. -/
structure Numbered (K V : Type) where
  log : Log K V
  count : Nat

def Numbered.start : Numbered K V := ⟨fun _ => none, 0⟩

def record (n : Numbered K V) (w : K × V) : Numbered K V :=
  if (n.log w.1).map Prod.fst = some w.2 then n
  else ⟨write n.log (w.1, (w.2, n.count + 1)), n.count + 1⟩

def recordAll (n : Numbered K V) (ws : List (K × V)) : Numbered K V := ws.foldl record n

/-- The writes that change something. -/
def changes : (K → Option V) → List (K × V) → List (K × V)
  | _, [] => []
  | f, w :: ws => if f w.1 = some w.2 then changes f ws else w :: changes (write f w) ws

@[simp] theorem recordAll_nil (n : Numbered K V) : recordAll n [] = n := rfl

@[simp] theorem recordAll_cons (n : Numbered K V) (w : K × V) (ws : List (K × V)) :
    recordAll n (w :: ws) = recordAll (record n w) ws := rfl

/-- The log without its numbers. -/
def Numbered.values (n : Numbered K V) : K → Option V := fun k => (n.log k).map Prod.fst

theorem values_record (n : Numbered K V) (w : K × V) :
    (record n w).values = write n.values w := by
  funext k
  unfold record
  split
  · rename_i h
    by_cases hk : k = w.1
    · subst hk
      simp [write, Numbered.values, h]
    · simp [write, hk]
  · by_cases hk : k = w.1
    · subst hk
      simp [Numbered.values, write]
    · simp [Numbered.values, write, hk]

theorem values_recordAll (n : Numbered K V) (ws : List (K × V)) :
    (recordAll n ws).values = writeAll n.values ws := by
  induction ws generalizing n with
  | nil => rfl
  | cons w ws ih => rw [recordAll_cons, ih, values_record, writeAll_cons]

theorem record_same {n : Numbered K V} {w : K × V} (h : n.values w.1 = some w.2) :
    record n w = n := by
  unfold record
  exact if_pos h

theorem record_change {n : Numbered K V} {w : K × V} (h : n.values w.1 ≠ some w.2) :
    record n w = ⟨write n.log (w.1, (w.2, n.count + 1)), n.count + 1⟩ := by
  unfold record
  exact if_neg h

theorem recordAll_count (n : Numbered K V) (ws : List (K × V)) :
    (recordAll n ws).count = n.count + (changes n.values ws).length := by
  induction ws generalizing n with
  | nil => rfl
  | cons w ws ih =>
    rw [recordAll_cons, ih]
    by_cases h : n.values w.1 = some w.2
    · simp [changes, h, record_same h]
    · rw [values_record, record_change h]
      simp only [changes, h, if_false, List.length_cons]
      omega

/-- A key holds a number given out before, or that of its last change. -/
theorem recordAll_log (n : Numbered K V) (ws : List (K × V)) (k : K) (v : V) (m : Nat) :
    (recordAll n ws).log k = some (v, m) ↔
      (lastWrite (changes n.values ws) k = none ∧ n.log k = some (v, m)) ∨
        ∃ before after, changes n.values ws = before ++ (k, v) :: after ∧
          lastWrite after k = none ∧ m = n.count + before.length + 1 := by
  induction ws generalizing n with
  | nil => simp [changes]
  | cons w ws ih =>
    rw [recordAll_cons, ih]
    by_cases h : n.values w.1 = some w.2
    · simp only [changes, h, if_true, record_same h]
    · rw [values_record, record_change h]
      simp only [changes, h, if_false]
      obtain ⟨k₀, v₀⟩ := w
      constructor
      · rintro (⟨hnone, hlog⟩ | ⟨before, after, hch, hlast, rfl⟩)
        · by_cases hk : k = k₀
          · subst hk
            simp only [write_same, Option.some.injEq, Prod.mk.injEq] at hlog
            obtain ⟨rfl, rfl⟩ := hlog
            exact .inr ⟨[], _, rfl, hnone, by simp⟩
          · rw [write_ne hk] at hlog
            refine .inl ⟨?_, hlog⟩
            rw [← List.singleton_append, lastWrite_append, hnone, lastWrite_singleton,
              if_neg (Ne.symm hk)]
            rfl
        · refine .inr ⟨(k₀, v₀) :: before, after, by rw [hch]; rfl, hlast, ?_⟩
          simp only [List.length_cons]
          omega
      · rintro (⟨hnone, hlog⟩ | ⟨before, after, hch, hlast, rfl⟩)
        · rw [← List.singleton_append, lastWrite_append, Option.or_eq_none_iff,
            lastWrite_singleton] at hnone
          have hk : k ≠ k₀ := by
            rintro rfl
            simp at hnone
          exact .inl ⟨hnone.1, by rwa [write_ne hk]⟩
        · cases before with
          | nil =>
            simp only [List.nil_append, List.cons.injEq, Prod.mk.injEq] at hch
            obtain ⟨⟨rfl, rfl⟩, rfl⟩ := hch
            exact .inl ⟨hlast, by simp⟩
          | cons b before =>
            simp only [List.cons_append, List.cons.injEq] at hch
            refine .inr ⟨before, after, hch.2, hlast, ?_⟩
            simp only [List.length_cons]
            omega

/-! ## No gaps -/

/-- A key given one value only changes at most once. -/
theorem not_mem_changes {f : K → Option V} {ws : List (K × V)} {k : K} {v : V}
    (hf : f k = some v) (h : ∀ w ∈ ws, w.1 = k → w.2 = v) : ∀ w ∈ changes f ws, w.1 ≠ k := by
  induction ws generalizing f with
  | nil => simp [changes]
  | cons w ws ih =>
    have hw := h w (by simp)
    have hws : ∀ w ∈ ws, w.1 = k → w.2 = v := fun w' hw' => h w' (List.mem_cons_of_mem _ hw')
    intro w' hmem
    rw [changes] at hmem
    split at hmem
    · exact ih hf hws w' hmem
    · rename_i hne
      have hk : w.1 ≠ k := by
        rintro rfl
        exact hne (by rw [hf, hw rfl])
      rcases List.mem_cons.1 hmem with rfl | hmem
      · exact hk
      · exact ih (by rw [write, if_neg (Ne.symm hk)]; exact hf) hws w' hmem

theorem changes_nodup {f : K → Option V} {ws : List (K × V)}
    (h : ∀ w ∈ ws, ∀ w' ∈ ws, w.1 = w'.1 → w.2 = w'.2) :
    ((changes f ws).map Prod.fst).Nodup := by
  induction ws generalizing f with
  | nil => simp [changes]
  | cons w ws ih =>
    have hws : ∀ a ∈ ws, ∀ b ∈ ws, a.1 = b.1 → a.2 = b.2 := fun a ha b hb =>
      h a (List.mem_cons_of_mem _ ha) b (List.mem_cons_of_mem _ hb)
    rw [changes]
    split
    · exact ih hws
    · rw [List.map_cons, List.nodup_cons]
      refine ⟨?_, ih hws⟩
      intro hmem
      obtain ⟨w', hw', hk⟩ := List.mem_map.1 hmem
      refine not_mem_changes (f := write f w) (v := w.2) (by simp [write]) ?_ w' hw' hk
      intro a ha hka
      exact (h w (by simp) a (List.mem_cons_of_mem _ ha) hka.symm).symm

/-- Numbers given out from the start: all of them are held if no key is given two values. -/
theorem numbers_dense {ws : List (K × V)}
    (h : ∀ w ∈ ws, ∀ w' ∈ ws, w.1 = w'.1 → w.2 = w'.2) (m : Nat) :
    (∃ k v, (recordAll .start ws).log k = some (v, m)) ↔
      1 ≤ m ∧ m ≤ (recordAll (.start : Numbered K V) ws).count := by
  have hnodup := changes_nodup (f := (Numbered.start : Numbered K V).values) h
  have hcount := recordAll_count (.start : Numbered K V) ws
  have hzero : (Numbered.start : Numbered K V).count = 0 := rfl
  constructor
  · rintro ⟨k, v, hlog⟩
    rcases (recordAll_log _ _ _ _ _).1 hlog with ⟨_, hlog⟩ | ⟨before, after, hch, _, rfl⟩
    · cases hlog
    · rw [hcount, hch, List.length_append, List.length_cons]
      omega
  · rintro ⟨hpos, hle⟩
    rw [hcount, hzero, Nat.zero_add] at hle
    obtain ⟨before, after, hch, hlen⟩ :
        ∃ before after, changes (Numbered.start : Numbered K V).values ws = before ++ after ∧
          before.length = m - 1 :=
      ⟨_, _, (List.take_append_drop (m - 1) _).symm, by rw [List.length_take]; omega⟩
    cases after with
    | nil =>
      rw [hch, List.append_nil] at hle
      omega
    | cons w after =>
      obtain ⟨k, v⟩ := w
      refine ⟨k, v, (recordAll_log _ _ _ _ _).2 (.inr ⟨before, after, hch, ?_, ?_⟩)⟩
      · rw [hch, List.map_append, List.map_cons, List.nodup_append] at hnodup
        rw [lastWrite_eq_none]
        intro w hw hk
        exact (List.nodup_cons.1 hnodup.2.1).1 (List.mem_map.2 ⟨w, hw, hk⟩)
      · rw [hzero, hlen]
        omega

end Numbering

section Grouped

variable {α : Type}

/-- Equal elements stand together. -/
def Grouped : List α → Prop
  | [] => True
  | x :: xs => (x ∈ xs → xs.head? = some x) ∧ Grouped xs

instance Grouped.instDecidable [DecidableEq α] : (l : List α) → Decidable (Grouped l)
  | [] => inferInstanceAs (Decidable True)
  | x :: xs =>
    have := Grouped.instDecidable xs
    inferInstanceAs (Decidable ((x ∈ xs → xs.head? = some x) ∧ Grouped xs))

/-- Of the elements seen, only the last one seen may come again, and then it comes next. -/
structure Continues (seen : List α) (last : Option α) (rest : List α) : Prop where
  next : ∀ x ∈ seen, x ∈ rest → last = some x ∧ rest.head? = some x
  grouped : Grouped rest

theorem Continues.start {l : List α} (h : Grouped l) (last : Option α) : Continues [] last l :=
  ⟨fun _ hx => by simp at hx, h⟩

/-- After one that is not recorded. -/
theorem Continues.again {seen : List α} {last : Option α} {x : α} {rest : List α}
    (h : Continues seen last (x :: rest)) : Continues seen last rest := by
  refine ⟨?_, h.grouped.2⟩
  intro y hy hmem
  obtain ⟨hlast, hhead⟩ := h.next y hy (List.mem_cons_of_mem _ hmem)
  have hxy : x = y := by simpa using hhead
  subst hxy
  exact ⟨hlast, h.grouped.1 hmem⟩

/-- Any other is seen for the first time. -/
theorem Continues.fresh {seen : List α} {last : Option α} {x : α} {rest : List α}
    (h : Continues seen last (x :: rest)) (hl : last ≠ some x) :
    x ∉ seen ∧ Continues (x :: seen) (some x) rest := by
  refine ⟨fun hx => hl (h.next x hx (by simp)).1, ?_, h.grouped.2⟩
  intro y hy hmem
  rcases List.mem_cons.1 hy with rfl | hy
  · exact ⟨rfl, h.grouped.1 hmem⟩
  · obtain ⟨hlast, hhead⟩ := h.next y hy (List.mem_cons_of_mem _ hmem)
    have hxy : x = y := by simpa using hhead
    subst hxy
    exact absurd hlast hl

end Grouped

end Lib
end Naiad
