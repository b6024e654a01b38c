import Mathlib.Data.List.Basic
import Mathlib.Data.String.Basic

/-!
# Naiad.Lib.Text

Texts made of parts: lists joined by a separator, pieces split at separators, and decimal numbers.

* `Spaced`: texts of words with single separators between them; `Spaced.splitOnP` splits and joins.
* `mapContext`: a map of characters that may look at the text around them.
* `intercalate_inj`: parts without the separator are read back from the joined text.
* `toDigits_inj`, `int_toList_inj`: so are numbers from their decimal texts.
-/

namespace Naiad
namespace Lib

section

variable {α : Type} {sep : α}

theorem intercalate_inj [DecidableEq α] {as bs : List (List α)} (ha : ∀ a ∈ as, sep ∉ a) (hb : ∀ b ∈ bs, sep ∉ b)
    (hane : as ≠ []) (hbne : bs ≠ []) (h : [sep].intercalate as = [sep].intercalate bs) :
    as = bs := by
  have hsplit := congrArg (List.splitOn sep) h
  rwa [List.splitOn_intercalate sep ha hane, List.splitOn_intercalate sep hb hbne] at hsplit

/-- What a joined text is made of. -/
theorem mem_intercalate {ls : List (List α)} {c : α} (h : c ∈ [sep].intercalate ls) :
    c = sep ∨ ∃ l ∈ ls, c ∈ l := by
  induction ls with
  | nil => simp at h
  | cons l ls ih =>
    cases ls with
    | nil =>
      right
      exact ⟨l, by simp, by simpa using h⟩
    | cons l' ls =>
      rw [List.intercalate_cons_cons, List.mem_append, List.mem_append] at h
      rcases h with (h | h) | h
      · exact .inr ⟨l, by simp, h⟩
      · exact .inl (List.mem_singleton.1 h)
      · rcases ih h with heq | ⟨m, hm, hc⟩
        · exact .inl heq
        · exact .inr ⟨m, List.mem_cons_of_mem _ hm, hc⟩

theorem mem_intercalate_of_mem {ls : List (List α)} {l : List α} {c : α} (hl : l ∈ ls)
    (hc : c ∈ l) : c ∈ [sep].intercalate ls := by
  induction ls with
  | nil => cases hl
  | cons l' ls ih =>
    rcases List.mem_cons.1 hl with rfl | hl
    · cases ls with
      | nil => simpa using hc
      | cons m ls =>
        rw [List.intercalate_cons_cons]
        simp [hc]
    · cases ls with
      | nil => cases hl
      | cons m ls =>
        rw [List.intercalate_cons_cons]
        simp [ih hl]

/-- No piece holds a character it was split at. -/
theorem not_sep_of_mem_splitOnP {p : α → Bool} {s piece : List α}
    (h : piece ∈ s.splitOnP p) : ∀ c ∈ piece, p c = false := by
  induction s generalizing piece with
  | nil =>
    rw [List.splitOnP_nil, List.mem_singleton] at h
    simp [h]
  | cons c s ih =>
    rw [List.splitOnP_cons_eq_if_modifyHead] at h
    split at h
    · rcases List.mem_cons.1 h with rfl | h
      · simp
      · exact ih h
    · rename_i hp
      cases hs : s.splitOnP p with
      | nil => exact absurd hs (List.splitOnP_ne_nil p s)
      | cons first rest =>
        rw [hs, List.modifyHead_cons] at h
        rcases List.mem_cons.1 h with rfl | h
        · intro d hd
          rcases List.mem_cons.1 hd with rfl | hd
          · simpa using hp
          · exact ih (by simp [hs]) d hd
        · exact ih (by simp [hs, h])

/-- A character that is no place to split at is in some piece. -/
theorem exists_mem_splitOnP {p : α → Bool} {s : List α} {c : α} (hc : c ∈ s) (hp : p c = false) :
    ∃ piece ∈ s.splitOnP p, c ∈ piece := by
  induction s with
  | nil => cases hc
  | cons d s ih =>
    rw [List.splitOnP_cons_eq_if_modifyHead]
    rcases List.mem_cons.1 hc with rfl | hc
    · rw [if_neg (by simp [hp])]
      cases hs : s.splitOnP p with
      | nil => exact absurd hs (List.splitOnP_ne_nil _ _)
      | cons piece pieces => exact ⟨c :: piece, by simp, by simp⟩
    · obtain ⟨piece, hpiece, hmem⟩ := ih hc
      by_cases hd : p d = true
      · rw [if_pos hd]
        exact ⟨piece, List.mem_cons_of_mem _ hpiece, hmem⟩
      · rw [if_neg hd]
        cases hs : s.splitOnP p with
        | nil => exact absurd hs (List.splitOnP_ne_nil _ _)
        | cons first pieces =>
          rw [hs] at hpiece
          rcases List.mem_cons.1 hpiece with rfl | hpiece
          · exact ⟨d :: piece, by simp, List.mem_cons_of_mem _ hmem⟩
          · exact ⟨piece, by simp [hpiece], hmem⟩

theorem mem_of_mem_splitOnP {p : α → Bool} {s piece : List α} {c : α}
    (h : piece ∈ s.splitOnP p) (hc : c ∈ piece) : c ∈ s := by
  induction s generalizing piece with
  | nil =>
    rw [List.splitOnP_nil, List.mem_singleton] at h
    rwa [h] at hc
  | cons d s ih =>
    rw [List.splitOnP_cons_eq_if_modifyHead] at h
    split at h
    · rcases List.mem_cons.1 h with rfl | h
      · cases hc
      · exact List.mem_cons_of_mem _ (ih h hc)
    · cases hs : s.splitOnP p with
      | nil => exact absurd hs (List.splitOnP_ne_nil p s)
      | cons first rest =>
        rw [hs, List.modifyHead_cons] at h
        rcases List.mem_cons.1 h with rfl | h
        · rcases List.mem_cons.1 hc with rfl | hc
          · simp
          · exact List.mem_cons_of_mem _ (ih (by simp [hs]) hc)
        · exact List.mem_cons_of_mem _ (ih (by simp [hs, h]) hc)

end

/-! ## Words with single separators -/

section

variable {α : Type} {p : α → Bool} {sep : α}

/-- A text that starts and ends with no separator, where single separators stand between words. -/
inductive Spaced (p : α → Bool) (sep : α) : List α → Prop
  | single {c : α} : p c = false → Spaced p sep [c]
  | cons {c : α} {rest : List α} : p c = false → Spaced p sep rest → Spaced p sep (c :: rest)
  | sep {c : α} {rest : List α} : p c = false → Spaced p sep rest → Spaced p sep (c :: sep :: rest)

namespace Spaced

theorem ne_nil {s : List α} (h : Spaced p sep s) : s ≠ [] := by
  cases h <;> simp

theorem word_append {w s : List α} (hw : ∀ c ∈ w, p c = false) (hs : Spaced p sep s) :
    Spaced p sep (w ++ s) := by
  induction w with
  | nil => exact hs
  | cons c w ih => exact .cons (hw c (by simp)) (ih fun d hd => hw d (List.mem_cons_of_mem _ hd))

theorem word {w : List α} (hne : w ≠ []) (hw : ∀ c ∈ w, p c = false) : Spaced p sep w := by
  induction w with
  | nil => exact absurd rfl hne
  | cons c w ih =>
    have hc := hw c (by simp)
    cases w with
    | nil => exact .single hc
    | cons d w => exact .cons hc (ih (by simp) fun e he => hw e (List.mem_cons_of_mem _ he))

theorem word_sep {w s : List α} (hne : w ≠ []) (hw : ∀ c ∈ w, p c = false)
    (hs : Spaced p sep s) : Spaced p sep (w ++ sep :: s) := by
  induction w with
  | nil => exact absurd rfl hne
  | cons c w ih =>
    have hc := hw c (by simp)
    cases w with
    | nil => exact .sep hc hs
    | cons d w => exact .cons hc (ih (by simp) fun e he => hw e (List.mem_cons_of_mem _ he))

theorem intercalate {words : List (List α)} (hne : words ≠ [])
    (hwords : ∀ w ∈ words, w ≠ [] ∧ ∀ c ∈ w, p c = false) :
    Spaced p sep ([sep].intercalate words) := by
  induction words with
  | nil => exact absurd rfl hne
  | cons w words ih =>
    obtain ⟨hwne, hw⟩ := hwords w (by simp)
    cases words with
    | nil =>
      rw [List.intercalate_singleton]
      exact word hwne hw
    | cons w' words =>
      rw [List.intercalate_cons_cons, List.append_assoc]
      exact word_sep hwne hw (ih (by simp) fun v hv => hwords v (List.mem_cons_of_mem _ hv))

/-- Two such texts with a character in between that is no separator. -/
theorem glue {c : α} {s t : List α} (hc : p c = false) (hs : Spaced p sep s)
    (ht : Spaced p sep t) : Spaced p sep (s ++ c :: t) := by
  induction hs with
  | single hd => exact .cons hd (.cons hc ht)
  | cons hd _ ih => exact .cons hd ih
  | sep hd _ ih => exact .sep hd ih

theorem head {s : List α} (h : Spaced p sep s) : ∃ c rest, s = c :: rest ∧ p c = false := by
  cases h with
  | single hc => exact ⟨_, _, rfl, hc⟩
  | cons hc _ => exact ⟨_, _, rfl, hc⟩
  | sep hc _ => exact ⟨_, _, rfl, hc⟩

theorem last {s : List α} (h : Spaced p sep s) : ∃ init c, s = init ++ [c] ∧ p c = false := by
  induction h with
  | single hc => exact ⟨[], _, rfl, hc⟩
  | @cons d _ _ _ ih =>
    obtain ⟨init, c, heq, hc⟩ := ih
    exact ⟨d :: init, c, by simp [heq], hc⟩
  | @sep d _ _ _ ih =>
    obtain ⟨init, c, heq, hc⟩ := ih
    exact ⟨d :: sep :: init, c, by simp [heq], hc⟩

/-- Splitting such a text at separators and joining its words gives it back. -/
theorem splitOnP {s : List α} (hsep : p sep = true) (h : Spaced p sep s) :
    (∀ w ∈ s.splitOnP p, w ≠ []) ∧ [sep].intercalate (s.splitOnP p) = s := by
  induction h with
  | single hc => simp [List.splitOnP_cons_eq_if_modifyHead, hc]
  | @cons c rest hc _ ih =>
    obtain ⟨hne, hjoin⟩ := ih
    rw [List.splitOnP_cons_eq_if_modifyHead, if_neg (by simp [hc])]
    cases hs : rest.splitOnP p with
    | nil => exact absurd hs (List.splitOnP_ne_nil p rest)
    | cons first words =>
      rw [hs] at hne hjoin
      rw [List.modifyHead_cons]
      refine ⟨?_, ?_⟩
      · intro w hw
        rcases List.mem_cons.1 hw with rfl | hw
        · simp
        · exact hne w (List.mem_cons_of_mem _ hw)
      · rw [← hjoin]
        cases words with
        | nil => simp
        | cons w words => simp [List.intercalate_cons_cons]
  | @sep c rest hc _ ih =>
    obtain ⟨hne, hjoin⟩ := ih
    rw [List.splitOnP_cons_eq_if_modifyHead, if_neg (by simp [hc]),
      List.splitOnP_cons_eq_if_modifyHead, if_pos hsep, List.modifyHead_cons]
    refine ⟨?_, ?_⟩
    · intro w hw
      rcases List.mem_cons.1 hw with rfl | hw
      · simp
      · exact hne w hw
    · cases hs : rest.splitOnP p with
      | nil => exact absurd hs (List.splitOnP_ne_nil p rest)
      | cons first words =>
        rw [hs] at hjoin
        rw [List.intercalate_cons_cons, hjoin]
        rfl

end Spaced

/-- Apply a function of a character and the text around it. -/
def mapContext (f : List α → α → List α → List α) : List α → List α → List α
  | _, [] => []
  | before, c :: after => f before c after ++ mapContext f (before ++ [c]) after

theorem mem_mapContext {f : List α → α → List α → List α} {before s : List α} {d : α}
    (h : d ∈ mapContext f before s) : ∃ c ∈ s, ∃ b a, d ∈ f b c a := by
  induction s generalizing before with
  | nil => cases h
  | cons c s ih =>
    rw [mapContext, List.mem_append] at h
    rcases h with h | h
    · exact ⟨c, by simp, before, s, h⟩
    · obtain ⟨c', hc', b, a, hd⟩ := ih h
      exact ⟨c', List.mem_cons_of_mem _ hc', b, a, hd⟩

theorem mem_mapContext_of_mem {f : List α → α → List α → List α} {s : List α} {c d : α}
    (hc : c ∈ s) (hd : ∀ b a, d ∈ f b c a) (before : List α) : d ∈ mapContext f before s := by
  induction s generalizing before with
  | nil => cases hc
  | cons e s ih =>
    rw [mapContext, List.mem_append]
    rcases List.mem_cons.1 hc with rfl | hc
    · exact .inl (hd _ _)
    · exact .inr (ih hc _)

theorem mapContext_fixed {f : List α → α → List α → List α} {s : List α}
    (h : ∀ d ∈ s, ∀ b a, f b d a = [d]) (before : List α) : mapContext f before s = s := by
  induction s generalizing before with
  | nil => rfl
  | cons c s ih =>
    rw [mapContext, h c (by simp), ih fun d hd => h d (List.mem_cons_of_mem _ hd)]
    rfl

end

/-! ## Decimal numbers -/

theorem toDigits_inj {m n : Nat} (h : Nat.toDigits 10 m = Nat.toDigits 10 n) : m = n := by
  have hvalue := congrArg (Nat.ofDigitChars 10 · 0) h
  simpa using hvalue

theorem isDigit_of_mem_toDigits {n : Nat} {c : Char} (h : c ∈ Nat.toDigits 10 n) :
    c.isDigit = true :=
  Nat.isDigit_of_mem_toDigits (by decide) (by decide) h

theorem nat_toList (n : Nat) : (toString n).toList = Nat.toDigits 10 n := Nat.toList_repr

theorem int_toList_ofNat (n : Nat) : (toString (n : Int)).toList = Nat.toDigits 10 n :=
  Nat.toList_repr

theorem int_toList_negSucc (n : Nat) :
    (toString (Int.negSucc n)).toList = '-' :: Nat.toDigits 10 (n + 1) := by
  change ("-" ++ Nat.repr (n + 1)).toList = _
  rw [String.toList_append, Nat.toList_repr]
  rfl

/-- A decimal text is made of digits and a sign. -/
theorem mem_int_toList {i : Int} {c : Char} (h : c ∈ (toString i).toList) :
    c = '-' ∨ c.isDigit = true := by
  cases i with
  | ofNat n =>
    rw [Int.ofNat_eq_natCast, int_toList_ofNat] at h
    exact .inr (isDigit_of_mem_toDigits h)
  | negSucc n =>
    rw [int_toList_negSucc] at h
    rcases List.mem_cons.1 h with rfl | h
    · exact .inl rfl
    · exact .inr (isDigit_of_mem_toDigits h)

theorem int_toList_inj {i j : Int} (h : (toString i).toList = (toString j).toList) : i = j := by
  have hsign : ∀ m n : Nat, Nat.toDigits 10 m ≠ '-' :: Nat.toDigits 10 n := by
    intro m n heq
    have hdigit : ('-').isDigit = true := isDigit_of_mem_toDigits (n := m) (by simp [heq])
    exact absurd hdigit (by decide)
  cases i with
  | ofNat m =>
    rw [Int.ofNat_eq_natCast, int_toList_ofNat] at h
    cases j with
    | ofNat n =>
      rw [Int.ofNat_eq_natCast, int_toList_ofNat] at h
      rw [toDigits_inj h]
    | negSucc n =>
      rw [int_toList_negSucc] at h
      exact absurd h (hsign _ _)
  | negSucc m =>
    rw [int_toList_negSucc] at h
    cases j with
    | ofNat n =>
      rw [Int.ofNat_eq_natCast, int_toList_ofNat] at h
      exact absurd h.symm (hsign _ _)
    | negSucc n =>
      rw [int_toList_negSucc] at h
      have heq := toDigits_inj (List.cons.inj h).2
      rw [Nat.succ.inj heq]

end Lib
end Naiad
