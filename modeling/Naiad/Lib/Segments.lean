import Mathlib.Data.List.Basic
import Mathlib.Data.List.Infix

/-!
# Naiad.Lib.Segments

Lists of segments written out one after another, each after a separator that occurs in none of them.

* `prefix_joinSegments`: a prefix that ends at a separator cuts the segments.
* `segments_joinSegments`: splitting at the separator finds the segments again.
-/

namespace Naiad
namespace Lib

section

variable {α : Type}

def joinSegments (sep : α) (segs : List (List α)) : List α := segs.flatMap fun s => sep :: s

structure IsSegment (sep : α) (s : List α) : Prop where
  nonempty : s ≠ []
  clear : sep ∉ s

variable {sep : α}

theorem joinSegments_cons (s : List α) (segs : List (List α)) :
    joinSegments sep (s :: segs) = sep :: (s ++ joinSegments sep segs) :=
  rfl

/-- What follows a list of segments starts with the separator. -/
theorem head_joinSegments_append {segs : List (List α)} {t : List α} (ht : t = [] ∨ t = [sep]) :
    ∀ c ∈ (joinSegments sep segs ++ t).head?, c = sep := by
  cases segs with
  | nil =>
    rcases ht with rfl | rfl
    · simp [joinSegments]
    · simp [joinSegments]
  | cons s segs => simp [joinSegments_cons]

/-- A segment ends where the first separator is. -/
theorem prefix_append_sep {a b x y : List α} (ha : sep ∉ a) (hb : sep ∉ b)
    (hy : ∀ c ∈ y.head?, c = sep) : (a ++ sep :: x) <+: (b ++ y) ↔ a = b ∧ (sep :: x) <+: y := by
  induction a generalizing b with
  | nil =>
    cases b with
    | nil => simp
    | cons d b =>
      have hd : sep ≠ d := fun h => hb (by simp [h])
      simp [List.cons_prefix_cons, hd]
  | cons c a ih =>
    cases b with
    | nil =>
      have hc : sep ≠ c := fun h => ha (by simp [h])
      refine iff_of_false ?_ (by simp)
      intro hprefix
      cases y with
      | nil => simp at hprefix
      | cons d y =>
        have hd : d = sep := hy d (by simp)
        have heq := (List.cons_prefix_cons.1 hprefix).1
        exact hc (heq.trans hd).symm
    | cons d b =>
      rw [List.cons_append, List.cons_append, List.cons_prefix_cons,
        ih (fun h => ha (List.mem_cons_of_mem _ h)) (fun h => hb (List.mem_cons_of_mem _ h)),
        List.cons.injEq, and_assoc]

/-- Segments followed by a separator are a prefix just where they are the first segments and the
separator follows. -/
theorem prefix_joinSegments {A B : List (List α)} {x t : List α} (hA : ∀ s ∈ A, IsSegment sep s)
    (hB : ∀ s ∈ B, IsSegment sep s) (ht : t = [] ∨ t = [sep]) :
    (joinSegments sep A ++ sep :: x) <+: (joinSegments sep B ++ t) ↔
      ∃ rest, B = A ++ rest ∧ (sep :: x) <+: (joinSegments sep rest ++ t) := by
  induction A generalizing B with
  | nil => simp [joinSegments]
  | cons a A ih =>
    cases B with
    | nil =>
      refine iff_of_false ?_ (by simp)
      intro h
      have hlen := h.length_le
      have ha := List.length_pos_of_ne_nil (hA a (by simp)).nonempty
      have ht1 : t.length ≤ 1 := by rcases ht with rfl | rfl <;> simp
      simp only [joinSegments, List.flatMap_cons, List.flatMap_nil, List.nil_append,
        List.length_append, List.length_cons] at hlen
      omega
    | cons b B =>
      have ha := hA a (by simp)
      have hb := hB b (by simp)
      have htail := ih (B := B) (fun s hs => hA s (List.mem_cons_of_mem _ hs))
        fun s hs => hB s (List.mem_cons_of_mem _ hs)
      rw [joinSegments_cons, joinSegments_cons, List.cons_append, List.cons_append,
        List.cons_prefix_cons, List.append_assoc, List.append_assoc]
      have hstart : ∃ x', joinSegments sep A ++ sep :: x = sep :: x' := by
        cases A with
        | nil => exact ⟨x, rfl⟩
        | cons a' A => exact ⟨_, rfl⟩
      obtain ⟨x', hx'⟩ := hstart
      rw [hx'] at htail ⊢
      rw [prefix_append_sep ha.clear hb.clear (head_joinSegments_append ht), htail]
      constructor
      · rintro ⟨-, rfl, rest, rfl, hrest⟩
        exact ⟨rest, rfl, hrest⟩
      · rintro ⟨rest, heq, hrest⟩
        obtain ⟨rfl, rfl⟩ := List.cons.inj heq
        exact ⟨rfl, rfl, rest, rfl, hrest⟩

/-- A separator follows where a segment or a closing separator does. -/
theorem starts_sep {rest : List (List α)} {t : List α} (ht : t = [] ∨ t = [sep]) :
    [sep] <+: (joinSegments sep rest ++ t) ↔ rest ≠ [] ∨ t = [sep] := by
  cases rest with
  | nil =>
    rcases ht with rfl | rfl
    · simp [joinSegments]
    · simp [joinSegments]
  | cons s rest => simp [joinSegments_cons, List.cons_prefix_cons]

/-- What is written out ends in its last segment. -/
theorem getLast_joinSegments_ne {segs : List (List α)} (hsegs : ∀ s ∈ segs, IsSegment sep s) :
    (joinSegments sep segs).getLast? ≠ some sep := by
  induction segs with
  | nil => simp [joinSegments]
  | cons s segs ih =>
    have hs := hsegs s (by simp)
    have hlast : s.getLast? ≠ some sep := fun h => hs.clear (List.mem_of_getLast? h)
    have hrest := ih fun s' hs' => hsegs s' (List.mem_cons_of_mem _ hs')
    obtain ⟨c, s', rfl⟩ := List.exists_cons_of_ne_nil hs.nonempty
    rw [joinSegments_cons, List.cons_append, List.getLast?_cons_cons, ← List.cons_append,
      List.getLast?_append]
    cases htail : (joinSegments sep segs).getLast? with
    | none => simpa using hlast
    | some d =>
      rw [htail] at hrest
      simpa using hrest

/-- Two separators never follow each other. -/
theorem not_starts_sep_sep {rest : List (List α)} {t x : List α}
    (hrest : ∀ s ∈ rest, IsSegment sep s) (ht : t = [] ∨ t = [sep]) :
    ¬(sep :: sep :: x) <+: (joinSegments sep rest ++ t) := by
  intro h
  cases rest with
  | nil =>
    have hlen := h.length_le
    have ht1 : t.length ≤ 1 := by rcases ht with rfl | rfl <;> simp
    simp only [joinSegments, List.flatMap_nil, List.nil_append, List.length_cons] at hlen
    omega
  | cons s rest =>
    have hs := hrest s (by simp)
    obtain ⟨c, s', rfl⟩ := List.exists_cons_of_ne_nil hs.nonempty
    rw [joinSegments_cons] at h
    have heq := (List.cons_prefix_cons.1 (List.cons_prefix_cons.1 h).2).1
    exact hs.clear (by simp [heq])

/-- The parts between separators, empty ones aside. -/
def segments [BEq α] (sep : α) (l : List α) : List (List α) :=
  (l.splitOn sep).filter fun s => !s.isEmpty

section

variable [BEq α] [LawfulBEq α]

theorem segments_append {s y : List α} (hs : IsSegment sep s) (hy : ∀ c ∈ y.head?, c = sep) :
    segments sep (s ++ y) = s :: segments sep y := by
  have hkeep : (!s.isEmpty) = true := by simpa using hs.nonempty
  have halone : s.splitOn sep = [s] := List.splitOn_eq_singleton hs.clear
  cases y with
  | nil => simp [segments, halone, hkeep]
  | cons c y =>
    obtain rfl : c = sep := hy c (by simp)
    have hrest : (c :: y).splitOn c = [].splitOn c ++ y.splitOn c :=
      List.splitOn_append_cons_self [] y
    rw [segments, segments, List.splitOn_append_cons_self, hrest, halone]
    simp [hkeep]

theorem segments_sep_cons (l : List α) : segments sep (sep :: l) = segments sep l := by
  have hsplit : (sep :: l).splitOn sep = [].splitOn sep ++ l.splitOn sep :=
    List.splitOn_append_cons_self [] l
  rw [segments, segments, hsplit]
  simp

/-- Splitting finds the segments again. -/
theorem segments_joinSegments {segs : List (List α)} {t : List α}
    (hsegs : ∀ s ∈ segs, IsSegment sep s) (ht : t = [] ∨ t = [sep]) :
    segments sep (joinSegments sep segs ++ t) = segs := by
  induction segs with
  | nil =>
    rcases ht with rfl | rfl
    · simp [segments, joinSegments]
    · simp [segments, joinSegments, List.splitOn_cons_eq_if_modifyHead]
  | cons s segs ih =>
    rw [joinSegments_cons, List.cons_append, List.append_assoc, segments_sep_cons,
      segments_append (hsegs s (by simp)) (head_joinSegments_append ht),
      ih fun s' hs' => hsegs s' (List.mem_cons_of_mem _ hs')]

end

end

end Lib
end Naiad
