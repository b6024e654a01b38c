import Mathlib.Data.Nat.Log
import Naiad.Core.Budget
import Naiad.Core.Hash
import Naiad.Lib.Table

/-!
# Naiad.Netproto.Wire

The messages between clients and repositories. Hashes travel as their hex text, which `Hash.toHex`
makes from the hash one to one and in order; replies carry the hash here.

* `byteLen_toHex`, `jsonEscapedLen_toHex`: the text of a hash is 64 bytes, also inside JSON.
* `Snapshot.lookup_extend`: extending a snapshot appends the tag lists hash by hash.
-/

namespace Naiad
namespace Netproto

open Lib

def protocolVersion : Nat := 8

inductive HashDomain
  | blake3
  | sha256
deriving DecidableEq

def HashDomain.asStr : HashDomain → String
  | .blake3 => "blake3"
  | .sha256 => "sha256"

inductive Op
  | add
  | remove
deriving DecidableEq

inductive MappingStatus
  | current
  | deleted
deriving DecidableEq

def Op.status : Op → MappingStatus
  | .add => .current
  | .remove => .deleted

structure Submission where
  version : Nat
  op : Op
  hash : String
  tag : String
  author : String
  signature : String
  origin : Option String
deriving DecidableEq

structure OriginTag where
  tag : String
  origin : Option String
deriving DecidableEq

structure DeltaMapping where
  hash : Hash
  tag : String
  status : MappingStatus
  seq : Nat
  origin : Option String
deriving DecidableEq

abbrev U64 := Fin (2 ^ 64)

instance neZero_u64 : NeZero (2 ^ 64) := ⟨by decide⟩

/-- The tag lists of a set of hashes, and the repository's cursor. -/
structure Snapshot where
  cursor : U64
  tags : Table Hash (List OriginTag)

/-- What an accumulator starts from: the widest cursor and no tags. -/
def Snapshot.start : Snapshot := ⟨Fin.last _, ∅⟩

/-- `tags.entry(hash).or_default().extend(..)` for every hash of `part`. -/
def extendTags (tags part : Table Hash (List OriginTag)) : Table Hash (List OriginTag) :=
  part.entries.foldl (fun t e => t.insert e.1 ((t.lookup e.1).getD [] ++ e.2)) tags

/-- Fold a reply into an accumulator. -/
def Snapshot.extend (acc reply : Snapshot) : Snapshot :=
  ⟨min acc.cursor reply.cursor, extendTags acc.tags reply.tags⟩

theorem lookup_foldl_extend (l : List (Sigma fun _ : Hash => List OriginTag)) (hl : l.NodupKeys)
    (tags : Table Hash (List OriginTag)) (h : Hash) :
    (l.foldl (fun t e => t.insert e.1 ((t.lookup e.1).getD [] ++ e.2)) tags).lookup h =
      match l.dlookup h with
      | none => tags.lookup h
      | some os => some ((tags.lookup h).getD [] ++ os) := by
  induction l generalizing tags with
  | nil => rfl
  | cons e l ih =>
    obtain ⟨h', os⟩ := e
    rw [List.nodupKeys_cons] at hl
    rw [List.foldl_cons, ih hl.2]
    by_cases he : h' = h
    · subst he
      rw [AList.lookup_insert, List.dlookup_cons_eq, List.dlookup_eq_none.2 hl.1]
    · rw [AList.lookup_insert_ne (Ne.symm he), List.dlookup_cons_ne _ _ (Ne.symm he)]

/-- The list of a hash of `part` is appended to its list in `tags`. -/
theorem lookup_extendTags (tags part : Table Hash (List OriginTag)) (h : Hash) :
    (extendTags tags part).lookup h =
      match part.lookup h with
      | none => tags.lookup h
      | some os => some ((tags.lookup h).getD [] ++ os) :=
  lookup_foldl_extend part.entries part.nodupKeys tags h

theorem Snapshot.lookup_extend (acc reply : Snapshot) (h : Hash) :
    ((acc.extend reply).tags.lookup h).getD [] =
      (acc.tags.lookup h).getD [] ++ (reply.tags.lookup h).getD [] := by
  rw [Snapshot.extend, lookup_extendTags]
  cases reply.tags.lookup h with
  | none => simp
  | some os => rfl

/-! ## The size of a bucket request -/

structure BucketRequest where
  prefixBits : Nat
  buckets : List String
  since : Option (List U64)
  domain : Option String
  stream : Bool
  resumeAt : Option String

def decimalWidth (v : Nat) : Nat := if v = 0 then 1 else Nat.log 10 v + 1

/-- A JSON array of `n` items of this total width, in brackets and with its commas. -/
def jsonArrayLen (width n : Nat) : Nat := width + (n - 1) + 2

/-- The bytes of the serialized request: `version`, `prefix_bits` and `buckets` always, the other
fields only when they are set. -/
def BucketRequest.jsonLen (r : BucketRequest) : Nat :=
  11 + decimalWidth protocolVersion + 15 + decimalWidth r.prefixBits +
    11 + jsonArrayLen (r.buckets.map fun b => jsonEscapedLen b + 2).sum r.buckets.length +
    (r.since.elim 0 fun l => 9 + jsonArrayLen (l.map fun v => decimalWidth v.val).sum l.length) +
    (r.domain.elim 0 fun d => 12 + jsonEscapedLen d) +
    14 * r.stream.toNat +
    (r.resumeAt.elim 0 fun k => 15 + jsonEscapedLen k) + 1

theorem jsonEscapedByte_fromDigit {i : Nat} (hi : i < 16) : jsonEscapedByte (fromDigit i) = 1 := by
  have h : ∀ i : Fin 16, jsonEscapedByte (fromDigit i) = 1 := by decide
  exact h ⟨i, hi⟩

theorem utf8Size_fromDigit {i : Nat} (hi : i < 16) : (fromDigit i).utf8Size = 1 := by
  have h : ∀ i : Fin 16, (fromDigit i).utf8Size = 1 := by decide
  exact h ⟨i, hi⟩

theorem hexChars_sum {f : Char → Nat} (hf : ∀ i, i < 16 → f (fromDigit i) = 1)
    (bs : List Byte) : ((hexChars bs).map f).sum = 2 * bs.length := by
  induction bs with
  | nil => rfl
  | cons b bs ih =>
    have hb := b.isLt
    have hhi := hf (b.val / 16) (by omega)
    have hlo := hf (b.val % 16) (Nat.mod_lt _ (by decide))
    change f (fromDigit (b.val / 16)) + (f (fromDigit (b.val % 16)) +
      ((hexChars bs).map f).sum) = _
    rw [hhi, hlo, ih, List.length_cons]
    omega

theorem byteLen_toHex (h : Hash) : byteLen h.toHex = 64 := by
  rw [byteLen, Hash.toHex, String.toList_ofList,
    hexChars_sum fun i hi => utf8Size_fromDigit hi, h.size]

theorem jsonEscapedLen_toHex (h : Hash) : jsonEscapedLen h.toHex = 64 := by
  rw [jsonEscapedLen, Hash.toHex, String.toList_ofList,
    hexChars_sum fun i hi => jsonEscapedByte_fromDigit hi, h.size]

end Netproto
end Naiad
