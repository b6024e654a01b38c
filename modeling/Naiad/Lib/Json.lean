import Mathlib.Algebra.Ring.Nat
import Mathlib.Data.Nat.Log
import Mathlib.Data.List.Defs
import Mathlib.Data.String.Basic

/-!
# Naiad.Lib.Json

JSON texts and the bytes they take in UTF-8.

* `textLen_string`, `textLen_array`, `textLen_object`: the bytes of a text from those of its parts.
* `textLen_number`: those of a number.
-/

namespace Naiad
namespace Lib

/-- The bytes of a text in UTF-8. -/
def textLen (s : List Char) : Nat := (s.map Char.utf8Size).sum

@[simp] theorem textLen_nil : textLen [] = 0 := rfl

@[simp] theorem textLen_cons (c : Char) (s : List Char) :
    textLen (c :: s) = c.utf8Size + textLen s := by
  simp [textLen]

@[simp] theorem textLen_append (s t : List Char) : textLen (s ++ t) = textLen s + textLen t := by
  simp [textLen]

theorem textLen_intercalate (c : Char) (items : List (List Char)) :
    textLen ([c].intercalate items) =
      (items.map textLen).sum + c.utf8Size * (items.length - 1) := by
  induction items with
  | nil => simp
  | cons item items ih =>
    cases items with
    | nil => simp
    | cons next items =>
      rw [List.intercalate_cons_cons, textLen_append, textLen_append, ih]
      simp [Nat.mul_add]
      omega

theorem textLen_flatMap {α : Type} (f : α → List Char) (l : List α) :
    textLen (l.flatMap f) = (l.map fun a => textLen (f a)).sum := by
  induction l with
  | nil => rfl
  | cons a l ih => simp [ih]

namespace Json

/-- The one-letter escape of a control character. -/
def shortEscape : Nat → Option Char
  | 0x08 => some 'b'
  | 0x09 => some 't'
  | 0x0A => some 'n'
  | 0x0C => some 'f'
  | 0x0D => some 'r'
  | _ => none

/-- A character inside a string. -/
def escape (c : Char) : List Char :=
  if c = '"' ∨ c = '\\' then ['\\', c]
  else
    match shortEscape c.toNat with
    | some e => ['\\', e]
    | none =>
      if c.toNat < 0x20 then
        ['\\', 'u', '0', '0', (c.toNat / 16).digitChar, (c.toNat % 16).digitChar]
      else [c]

def string (s : String) : List Char := '"' :: (s.toList.flatMap escape ++ ['"'])

def number (n : Nat) : List Char := Nat.toDigits 10 n

def array (items : List (List Char)) : List Char := '[' :: ([','].intercalate items ++ [']'])

def field (f : String × List Char) : List Char := string f.1 ++ ':' :: f.2

def object (fields : List (String × List Char)) : List Char :=
  '{' :: ([','].intercalate (fields.map field) ++ ['}'])

theorem textLen_string (s : String) :
    textLen (string s) = (s.toList.map fun c => textLen (escape c)).sum + 2 := by
  have hquote : '"'.utf8Size = 1 := by decide
  rw [string, textLen_cons, textLen_append, textLen_flatMap, hquote]
  simp [hquote]
  omega

theorem textLen_array (items : List (List Char)) :
    textLen (array items) = (items.map textLen).sum + (items.length - 1) + 2 := by
  have hsep : ','.utf8Size = 1 := by decide
  have hopen : '['.utf8Size = 1 := by decide
  have hclose : ']'.utf8Size = 1 := by decide
  rw [array, textLen_cons, textLen_append, textLen_intercalate, hsep, hopen]
  simp [hclose]
  omega

theorem textLen_object (fields : List (String × List Char)) :
    textLen (object fields) =
      (fields.map fun f => textLen (string f.1) + 1 + textLen f.2).sum + (fields.length - 1) + 2 := by
  have hsep : ','.utf8Size = 1 := by decide
  have hcolon : ':'.utf8Size = 1 := by decide
  have hopen : '{'.utf8Size = 1 := by decide
  have hclose : '}'.utf8Size = 1 := by decide
  have hfield : ∀ f, textLen (field f) = textLen (string f.1) + 1 + textLen f.2 := by
    intro f
    rw [field, textLen_append, textLen_cons, hcolon]
    omega
  rw [object, textLen_cons, textLen_append, textLen_intercalate, hsep, hopen, List.map_map]
  simp [hclose, hfield, Function.comp_def]
  omega

/-- The digits of a number. -/
theorem length_number (n : Nat) :
    (number n).length = if n = 0 then 1 else Nat.log 10 n + 1 := by
  split
  · rename_i hzero
    subst hzero
    rfl
  · rename_i hpos
    apply Nat.le_antisymm
    · rw [number, Nat.length_toDigits_le_iff (by decide) (by simp)]
      exact Nat.lt_pow_succ_log_self (by decide) n
    · by_contra hlt
      have hshort : (number n).length ≤ Nat.log 10 n := by omega
      have hlen : 0 < (number n).length := Nat.length_toDigits_pos
      rw [number, Nat.length_toDigits_le_iff (by decide) (by omega)] at hshort
      exact absurd (Nat.pow_log_le_self 10 hpos) (by omega)

theorem utf8Size_of_isDigit {c : Char} (h : c.isDigit = true) : c.utf8Size = 1 := by
  have hle : c.val ≤ 57 := by
    simp [Char.isDigit] at h
    exact h.2
  rw [Char.utf8Size_eq_one_iff]
  exact UInt32.le_trans hle (by decide)

theorem textLen_number (n : Nat) : textLen (number n) = (number n).length := by
  have hone : ∀ s : List Char, (∀ c ∈ s, c.isDigit = true) → textLen s = s.length := by
    intro s hs
    induction s with
    | nil => rfl
    | cons c s ih =>
      rw [textLen_cons, utf8Size_of_isDigit (hs c (by simp)),
        ih fun d hd => hs d (List.mem_cons_of_mem _ hd), List.length_cons]
      omega
  exact hone _ fun c hc => Nat.isDigit_of_mem_toDigits (by decide) (by decide) hc

end Json
end Lib
end Naiad
