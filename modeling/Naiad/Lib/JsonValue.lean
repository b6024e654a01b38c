import Mathlib.Algebra.Order.Ring.Int
import Mathlib.Data.List.Forall2
import Mathlib.Data.String.Basic

/-!
# Naiad.Lib.JsonValue

Parsed JSON as code without a schema reads it: by asking a value whether it is of a kind, and an
array for its first elements.

* `readInt_eq_some`: the texts read as an integer are the decimal numerals with at most one sign.
* `asI64_eq_some`, `asU64_eq_some`, `asArray_eq_some`, `asStr_eq_some`: when a value is of a kind.
* `asEnumI64_eq_some`: an integer may also come as the text of one.
-/

namespace Naiad
namespace Lib

/-! ## Numerals -/

/-- A non-empty run of decimal digits. -/
def isDigits (s : List Char) : Bool := !s.isEmpty && s.all Char.isDigit

def readDigits (s : List Char) : Option Nat :=
  if isDigits s then some (Nat.ofDigitChars 10 s 0) else none

/-- `str::parse` at a signed type, before the range is checked. -/
def readInt : List Char → Option Int
  | '+' :: s => (readDigits s).map Int.ofNat
  | '-' :: s => (readDigits s).map fun n => -Int.ofNat n
  | s => (readDigits s).map Int.ofNat

/-- The numerals of an integer. -/
inductive Spells : List Char → Int → Prop
  | plain {s : List Char} : isDigits s = true → Spells s (Nat.ofDigitChars 10 s 0)
  | plus {s : List Char} : isDigits s = true → Spells ('+' :: s) (Nat.ofDigitChars 10 s 0)
  | minus {s : List Char} : isDigits s = true → Spells ('-' :: s) (-(Nat.ofDigitChars 10 s 0 : Int))

theorem readDigits_eq_some {s : List Char} {n : Nat} :
    readDigits s = some n ↔ isDigits s = true ∧ n = Nat.ofDigitChars 10 s 0 := by
  unfold readDigits
  split
  · simp [*, eq_comm]
  · simp [*]

theorem readInt_eq_some {s : List Char} {i : Int} : readInt s = some i ↔ Spells s i := by
  constructor
  · intro h
    unfold readInt at h
    split at h
    · obtain ⟨n, hn, rfl⟩ := Option.map_eq_some_iff.1 h
      obtain ⟨hd, rfl⟩ := readDigits_eq_some.1 hn
      exact .plus hd
    · obtain ⟨n, hn, rfl⟩ := Option.map_eq_some_iff.1 h
      obtain ⟨hd, rfl⟩ := readDigits_eq_some.1 hn
      exact .minus hd
    · obtain ⟨n, hn, rfl⟩ := Option.map_eq_some_iff.1 h
      obtain ⟨hd, rfl⟩ := readDigits_eq_some.1 hn
      exact .plain hd
  · intro h
    cases h with
    | plus hd => simp [readInt, readDigits, hd]
    | minus hd => simp [readInt, readDigits, hd]
    | plain hd =>
      unfold readInt
      -- A sign is no digit.
      split
      · simp [isDigits] at hd
      · simp [isDigits] at hd
      · simp [readDigits, hd]

namespace Json

/-- A number as the parser keeps it. Nothing here reads a fraction. -/
inductive Number
  | posInt (n : UInt64)
  | negInt (n : Int64)
  | float

inductive Value
  | null
  | bool (b : Bool)
  | number (n : Number)
  | string (s : String)
  | array (items : List Value)
  | object (fields : List (String × Value))

namespace Value

def asArray : Value → Option (List Value)
  | .array items => some items
  | _ => none

def asStr : Value → Option String
  | .string s => some s
  | _ => none

def asI64 : Value → Option Int
  | .number (.posInt n) => if n.toNat < 2 ^ 63 then some n.toNat else none
  | .number (.negInt n) => some n.toInt
  | _ => none

def asU64 : Value → Option Nat
  | .number (.posInt n) => some n.toNat
  | _ => none

theorem asArray_eq_some {v : Value} {items : List Value} :
    v.asArray = some items ↔ v = .array items := by
  cases v <;> simp [asArray]

theorem asStr_eq_some {v : Value} {s : String} : v.asStr = some s ↔ v = .string s := by
  cases v <;> simp [asStr]

/-- `v` is the integer `i`, in the range of 64 bits with a sign. -/
inductive IsI64 : Value → Int → Prop
  | posInt {n : UInt64} : n.toNat < 2 ^ 63 → IsI64 (.number (.posInt n)) n.toNat
  | negInt {n : Int64} : IsI64 (.number (.negInt n)) n.toInt

/-- `v` is the number `n`, in the range of 64 bits without a sign. -/
def IsU64 (v : Value) (n : Nat) : Prop := ∃ u : UInt64, v = .number (.posInt u) ∧ u.toNat = n

theorem asI64_eq_some {v : Value} {i : Int} : v.asI64 = some i ↔ v.IsI64 i := by
  constructor
  · intro h
    unfold asI64 at h
    split at h
    · split at h
      · cases h
        exact .posInt ‹_›
      · cases h
    · cases h
      exact .negInt
    · cases h
  · intro h
    cases h with
    | posInt hlt => simp only [asI64, if_pos hlt]
    | negInt => rfl

theorem asU64_eq_some {v : Value} {n : Nat} : v.asU64 = some n ↔ v.IsU64 n := by
  unfold IsU64
  cases v with
  | number m => cases m <;> simp [asU64]
  | null => simp [asU64]
  | bool b => simp [asU64]
  | string s => simp [asU64]
  | array items => simp [asU64]
  | object fields => simp [asU64]

/-- Small enumerations come as integers or as the texts of integers. -/
def asEnumI64 (v : Value) : Option Int :=
  match v.asI64 with
  | some i => some i
  | none => v.asStr.bind fun s => (readInt s.toList).filter fun i => -2 ^ 63 ≤ i ∧ i < 2 ^ 63

inductive IsEnum (v : Value) (i : Int) : Prop
  | number : v.IsI64 i → IsEnum v i
  | text {s : String} : v = .string s → Spells s.toList i → -2 ^ 63 ≤ i → i < 2 ^ 63 → IsEnum v i

theorem asEnumI64_eq_some {v : Value} {i : Int} : v.asEnumI64 = some i ↔ v.IsEnum i := by
  unfold asEnumI64
  constructor
  · intro h
    split at h
    · rename_i j hj
      cases h
      exact .number (asI64_eq_some.1 hj)
    · obtain ⟨s, hs, hread⟩ := Option.bind_eq_some_iff.1 h
      obtain ⟨hread, hrange⟩ := Option.filter_eq_some_iff.1 hread
      have hin : -2 ^ 63 ≤ i ∧ i < 2 ^ 63 := by simpa using hrange
      exact .text (asStr_eq_some.1 hs) (readInt_eq_some.1 hread) hin.1 hin.2
  · intro h
    cases h with
    | number hnum => simp [asI64_eq_some.2 hnum]
    | text hv hs hlo hhi =>
      subst hv
      have hin : -2 ^ 63 ≤ i ∧ i < 2 ^ 63 := ⟨hlo, hhi⟩
      simp only [asI64, asStr, Option.bind_some, readInt_eq_some.2 hs]
      exact Option.filter_eq_some_iff.2 ⟨rfl, by simpa using hin⟩

end Value
end Json
end Lib
end Naiad
