import Mathlib.Algebra.Ring.Nat
import Mathlib.Data.String.Basic

/-!
# Naiad.Core.Budget

What one mapping row costs against the byte budget of a bucket response.
-/

namespace Naiad

/-- `str::len`: the bytes of the UTF-8 text. -/
def byteLen (s : String) : Nat := (s.toList.map Char.utf8Size).sum

def bucketRowOverhead : Nat := 67

def responseEnvelopeOverhead : Nat := 64

def approxRowCost (keyLen tagLen : Nat) : Nat := keyLen + tagLen + bucketRowOverhead

/-- The bytes a character takes inside a JSON string, as serde_json escapes it. -/
def jsonEscapedByte (c : Char) : Nat :=
  if c.toNat = 0x22 ∨ c.toNat = 0x5C then 2
  else if c.toNat ∈ [0x08, 0x09, 0x0A, 0x0C, 0x0D] then 2
  else if c.toNat < 0x20 then 6
  else c.utf8Size

def jsonEscapedLen (s : String) : Nat := (s.toList.map jsonEscapedByte).sum

/-- The cost of an origin: twelve bytes of framing and the escaped text. -/
def originCost (origin : Option String) : Nat :=
  match origin with
  | none => 0
  | some o => jsonEscapedLen o + 12

end Naiad
