import Mathlib.Data.String.Basic
import Naiad.Lib.BigEndian

/-!
# Naiad.Core.Hash

The 256-bit content hash and its text form, 64 lowercase hex digits.

* `Hash.parse_toHex`: the text of a hash reads back as the hash.
* `Hash.toHex_lt_iff`: the text order of hashes is their byte order.
-/

namespace Naiad

open Lib

structure Hash where
  bytes : List Byte
  size : bytes.length = 32
deriving DecidableEq

namespace Hash

theorem bytes_injective : Function.Injective Hash.bytes := by
  intro a b h
  cases a
  cases b
  cases h
  rfl

instance : LinearOrder Hash := LinearOrder.lift' Hash.bytes bytes_injective

theorem lt_def {a b : Hash} : a < b ↔ a.bytes < b.bytes := Iff.rfl

theorem le_def {a b : Hash} : a ≤ b ↔ a.bytes ≤ b.bytes := Iff.rfl

/-- The hash all of whose bytes are `b`. -/
def fill (b : Byte) : Hash := ⟨List.replicate 32 b, List.length_replicate⟩

def ofBytes? (bs : List Byte) : Option Hash :=
  if h : bs.length = 32 then some ⟨bs, h⟩ else none

@[simp] theorem ofBytes?_bytes (h : Hash) : ofBytes? h.bytes = some h := by
  simp [ofBytes?, h.size]

theorem ofBytes?_eq_some {bs : List Byte} {h : Hash} (he : ofBytes? bs = some h) :
    h.bytes = bs := by
  unfold ofBytes? at he
  split at he
  · cases he
    rfl
  · cases he

end Hash

/-! ## Hex text -/

def fromDigit (n : Nat) : Char := Char.ofNat (if n < 10 then 48 + n else 87 + n)

def hexVal (c : Char) : Option Nat :=
  if '0' ≤ c ∧ c ≤ '9' then some (c.toNat - '0'.toNat)
  else if 'a' ≤ c ∧ c ≤ 'f' then some (c.toNat - 'a'.toNat + 10)
  else if 'A' ≤ c ∧ c ≤ 'F' then some (c.toNat - 'A'.toNat + 10)
  else none

def hexChars (bs : List Byte) : List Char :=
  bs.flatMap fun b => [fromDigit (b.val / 16), fromDigit (b.val % 16)]

def hexBytes : List Char → Option (List Byte)
  | [] => some []
  | [_] => none
  | hi :: lo :: rest => do
    let h ← hexVal hi
    let l ← hexVal lo
    let bs ← hexBytes rest
    return Fin.ofNat 256 (h * 16 + l) :: bs

/-- `hex::decode`: both letter cases, and an odd number of digits is an error. -/
def hexDecode (s : String) : Option (List Byte) := hexBytes s.toList

theorem fromDigit_lt_iff {i j : Nat} (hi : i < 16) (hj : j < 16) :
    fromDigit i < fromDigit j ↔ i < j := by
  have h : ∀ i j : Fin 16, fromDigit i < fromDigit j ↔ i.val < j.val := by decide
  exact h ⟨i, hi⟩ ⟨j, hj⟩

theorem fromDigit_inj {i j : Nat} (hi : i < 16) (hj : j < 16) :
    fromDigit i = fromDigit j ↔ i = j := by
  have h : ∀ i j : Fin 16, fromDigit i = fromDigit j ↔ i.val = j.val := by decide
  exact h ⟨i, hi⟩ ⟨j, hj⟩

theorem hexVal_fromDigit {i : Nat} (hi : i < 16) : hexVal (fromDigit i) = some i := by
  have h : ∀ i : Fin 16, hexVal (fromDigit i) = some i.val := by decide
  exact h ⟨i, hi⟩

theorem hexBytes_hexChars (bs : List Byte) : hexBytes (hexChars bs) = some bs := by
  induction bs with
  | nil => rfl
  | cons b bs ih =>
    have hlt := b.isLt
    have hb : b.val / 16 * 16 + b.val % 16 = b.val := Nat.div_add_mod' b.val 16
    have hhi : b.val / 16 < 16 := by omega
    have hlo : b.val % 16 < 16 := Nat.mod_lt _ (by decide)
    change hexBytes (fromDigit (b.val / 16) :: fromDigit (b.val % 16) :: hexChars bs) = _
    simp [hexBytes, hexVal_fromDigit hhi, hexVal_fromDigit hlo, ih, hb, Fin.ofNat,
      Nat.mod_eq_of_lt hlt]

theorem hexChars_lt_iff (as bs : List Byte) : hexChars as < hexChars bs ↔ as < bs := by
  induction as generalizing bs with
  | nil => cases bs <;> simp [hexChars]
  | cons a as ih =>
    cases bs with
    | nil => simp [hexChars]
    | cons b bs =>
      have ha := a.isLt
      have hb := b.isLt
      have hahi : a.val / 16 < 16 := by omega
      have hbhi : b.val / 16 < 16 := by omega
      have halo : a.val % 16 < 16 := Nat.mod_lt _ (by decide)
      have hblo : b.val % 16 < 16 := Nat.mod_lt _ (by decide)
      change fromDigit (a.val / 16) :: fromDigit (a.val % 16) :: hexChars as <
        fromDigit (b.val / 16) :: fromDigit (b.val % 16) :: hexChars bs ↔ _
      rw [List.cons_lt_cons_iff, List.cons_lt_cons_iff, List.cons_lt_cons_iff,
        fromDigit_lt_iff hahi hbhi, fromDigit_lt_iff halo hblo, fromDigit_inj hahi hbhi,
        fromDigit_inj halo hblo, ih, Fin.lt_def, Fin.ext_iff]
      constructor
      · rintro (h | ⟨h, h' | ⟨h', hr⟩⟩)
        · exact .inl (by omega)
        · exact .inl (by omega)
        · exact .inr ⟨by omega, hr⟩
      · rintro (h | ⟨h, hr⟩)
        · by_cases hhi : a.val / 16 < b.val / 16
          · exact .inl hhi
          · exact .inr ⟨by omega, .inl (by omega)⟩
        · exact .inr ⟨by omega, .inr ⟨by omega, hr⟩⟩

theorem hexChars_length (bs : List Byte) : (hexChars bs).length = 2 * bs.length := by
  induction bs with
  | nil => rfl
  | cons b bs ih =>
    change (hexChars bs).length + 1 + 1 = _
    rw [ih, List.length_cons]
    omega

namespace Hash

def toHex (h : Hash) : String := String.ofList (hexChars h.bytes)

/-- `Hash::from_str`: exactly 64 hex digits. -/
def parse (s : String) : Option Hash := (hexDecode s).bind ofBytes?

@[simp] theorem hexDecode_toHex (h : Hash) : hexDecode h.toHex = some h.bytes := by
  simp [hexDecode, toHex, hexBytes_hexChars]

@[simp] theorem parse_toHex (h : Hash) : parse h.toHex = some h := by
  simp [parse]

theorem toHex_inj {a b : Hash} : a.toHex = b.toHex ↔ a = b := by
  constructor
  · intro h
    have := congrArg parse h
    simpa using this
  · intro h
    rw [h]

theorem toHex_length (h : Hash) : h.toHex.toList.length = 64 := by
  simp [toHex, hexChars_length, h.size]

/-- The text order of hashes is their byte order. -/
theorem toHex_lt_iff {a b : Hash} : a.toHex < b.toHex ↔ a < b := by
  rw [String.lt_iff_toList_lt, toHex, toHex, String.toList_ofList, String.toList_ofList,
    hexChars_lt_iff, lt_def]

theorem toHex_le_iff {a b : Hash} : a.toHex ≤ b.toHex ↔ a ≤ b := by
  rw [← not_lt, toHex_lt_iff, not_lt]

/-- The sentinel `"g"` sorts after every hash. -/
theorem toHex_lt_sentinel (h : Hash) : h.toHex < "g" := by
  obtain ⟨bytes, hsize⟩ := h
  cases bytes with
  | nil => simp at hsize
  | cons b bs =>
    have hb := b.isLt
    have hlt : b.val / 16 < 16 := by omega
    have hall : ∀ i : Fin 16, fromDigit i < 'g' := by decide
    have hd : fromDigit (b.val / 16) < 'g' := hall ⟨_, hlt⟩
    rw [String.lt_iff_toList_lt, toHex, String.toList_ofList]
    exact List.cons_lt_cons_iff.2 (.inl hd)

end Hash

example : (Hash.fill 0xAB).toHex.toList.take 4 = ['a', 'b', 'a', 'b'] := by decide

end Naiad
