import Mathlib.Algebra.Order.BigOperators.Group.List
import Naiad.Lib.Json
import Naiad.Server.Stream

/-!
# Naiad.Server.Body

The JSON body of a bucket reply and how long it is. Strings are escaped, a hash stands once before
the list of its tags, and an origin is left out when there is none.

* `textLen_snapshot`, `textLen_delta`: the bytes of a body, from the rows it carries.
* `snapshotLen_escaped`, `deltaLen_escaped`: what the escapes of the tags add to them.
-/

namespace Naiad
namespace Netproto

open Lib

def MappingStatus.asStr : MappingStatus → String
  | .current => "current"
  | .deleted => "deleted"

/-- `skip_serializing_if = "Option::is_none"` -/
def originFields : Option String → List (String × List Char)
  | none => []
  | some o => [("origin", Json.string o)]

def OriginTag.json (o : OriginTag) : List Char :=
  Json.object (("tag", Json.string o.tag) :: originFields o.origin)

def DeltaMapping.json (d : DeltaMapping) : List Char :=
  Json.object (("hash", Json.string d.hash.toHex) ::
    ("tag", Json.string d.tag) ::
    ("status", Json.string d.status.asStr) ::
    ("seq", Json.number d.seq) :: originFields d.origin)

theorem textLen_escape (c : Char) : textLen (Json.escape c) = jsonEscapedByte c := by
  have hslash : '\\'.utf8Size = 1 := by decide
  have hletter : ∀ n e, Json.shortEscape n = some e →
      e.utf8Size = 1 ∧ n ∈ [0x08, 0x09, 0x0A, 0x0C, 0x0D] := by
    intro n e h
    unfold Json.shortEscape at h
    split at h <;> cases h <;> decide
  have hplain : ∀ n, Json.shortEscape n = none → n ∉ [0x08, 0x09, 0x0A, 0x0C, 0x0D] := by
    intro n h hmem
    simp only [List.mem_cons, List.not_mem_nil, or_false] at hmem
    rcases hmem with rfl | rfl | rfl | rfl | rfl <;> cases h
  have hdigit : ∀ i, i < 16 → (Nat.digitChar i).utf8Size = 1 := by
    intro i hi
    have h : ∀ i : Fin 16, (Nat.digitChar i.val).utf8Size = 1 := by decide
    exact h ⟨i, hi⟩
  have hnat : ∀ d : Char, c = d ↔ c.toNat = d.toNat := fun d => Char.toNat_inj.symm
  have hsame : (c = '"' ∨ c = '\\') ↔ (c.toNat = 0x22 ∨ c.toNat = 0x5C) := by
    rw [hnat, hnat]
    exact Iff.rfl
  unfold Json.escape jsonEscapedByte
  by_cases hq : c = '"' ∨ c = '\\'
  · rw [if_pos hq, if_pos (hsame.1 hq), textLen_cons, textLen_cons, hslash]
    rcases hq with rfl | rfl <;> rfl
  · rw [if_neg hq, if_neg (fun h => hq (hsame.2 h))]
    cases hs : Json.shortEscape c.toNat with
    | some e =>
      obtain ⟨he, hmem⟩ := hletter _ _ hs
      rw [if_pos hmem]
      simp [hslash, he]
    | none =>
      rw [if_neg (hplain _ hs)]
      by_cases hctl : c.toNat < 0x20
      · have hhi := hdigit (c.toNat / 16) (by omega)
        have hlo := hdigit (c.toNat % 16) (by omega)
        have hu : 'u'.utf8Size = 1 := by decide
        have hzero : '0'.utf8Size = 1 := by decide
        simp [hctl, hhi, hlo, hslash, hu, hzero]
      · simp [hctl]

theorem textLen_string (s : String) : textLen (Json.string s) = jsonEscapedLen s + 2 := by
  rw [Json.textLen_string, jsonEscapedLen]
  simp only [textLen_escape]

@[simp] theorem textLen_number (n : Nat) : textLen (Json.number n) = decimalWidth n := by
  rw [Json.textLen_number, Json.length_number, decimalWidth]

theorem textLen_originTag (o : OriginTag) :
    textLen o.json = 10 + jsonEscapedLen o.tag + originCost o.origin := by
  have htag : jsonEscapedLen "tag" = 3 := by decide
  have horigin : jsonEscapedLen "origin" = 6 := by decide
  rw [OriginTag.json, Json.textLen_object]
  cases o.origin with
  | none =>
    simp [originFields, originCost, htag, textLen_string]
    omega
  | some origin =>
    simp [originFields, originCost, htag, horigin, textLen_string]
    omega

theorem textLen_deltaMapping (d : DeltaMapping) :
    textLen d.json =
      110 + decimalWidth d.seq + jsonEscapedLen d.tag + originCost d.origin := by
  have hhash : jsonEscapedLen "hash" = 4 := by decide
  have htag : jsonEscapedLen "tag" = 3 := by decide
  have hstatus : jsonEscapedLen "status" = 6 := by decide
  have hseq : jsonEscapedLen "seq" = 3 := by decide
  have horigin : jsonEscapedLen "origin" = 6 := by decide
  have hvalue : jsonEscapedLen d.status.asStr = 7 := by
    cases d.status <;> decide
  rw [DeltaMapping.json, Json.textLen_object]
  cases d.origin with
  | none =>
    simp [originFields, originCost, hhash, htag, hstatus, hseq, textLen_string, hvalue,
      jsonEscapedLen_toHex]
    omega
  | some origin =>
    simp [originFields, originCost, hhash, htag, hstatus, hseq, horigin, textLen_string, hvalue,
      jsonEscapedLen_toHex]
    omega

end Netproto

namespace Server

open Lib Netproto

def rowField (row : StreamRow) : String × List Char :=
  (row.h.toHex, Json.array (row.t.map OriginTag.json))

/-- The fields of a message, after the version and the cursor. -/
def envelope (cursor : Nat) (rest : List (String × List Char)) : List Char :=
  Json.object (("version", Json.number protocolVersion) ::
    ("cursor", Json.number cursor) :: rest)

def BucketsResponse.json : BucketsResponse → List Char
  | .snapshot cursor tags =>
    envelope cursor [("tags", Json.object ((streamRows tags).map rowField))]
  | .delta cursor changes =>
    envelope cursor [("changes", Json.array (changes.map DeltaMapping.json))]

/-! ## Lengths -/

/-- The bytes of a hash and its tags, when a tag takes `f` bytes. -/
def rowLen (f : String → Nat) (row : StreamRow) : Nat :=
  69 + (row.t.map fun o => 10 + f o.tag + originCost o.origin).sum + (row.t.length - 1)

def snapshotLen (f : String → Nat) (cursor : Nat) (rows : List StreamRow) : Nat :=
  33 + decimalWidth cursor + (rows.map (rowLen f)).sum + (rows.length - 1)

def changeLen (f : String → Nat) (d : DeltaMapping) : Nat :=
  110 + decimalWidth d.seq + f d.tag + originCost d.origin

def deltaLen (f : String → Nat) (cursor : Nat) (changes : List DeltaMapping) : Nat :=
  36 + decimalWidth cursor + (changes.map (changeLen f)).sum + (changes.length - 1)

theorem textLen_envelope (cursor : Nat) (name : String) (value : List Char) :
    textLen (envelope cursor [(name, value)]) =
      27 + decimalWidth cursor + jsonEscapedLen name + textLen value := by
  have hversion : jsonEscapedLen "version" = 7 := by decide
  have hcursor : jsonEscapedLen "cursor" = 6 := by decide
  have hwidth : decimalWidth protocolVersion = 1 := by
    simp [decimalWidth, protocolVersion]
  rw [envelope, Json.textLen_object]
  simp [hversion, hcursor, hwidth, textLen_string]
  omega

theorem textLen_rowField (row : StreamRow) :
    textLen (Json.string (rowField row).1) + 1 + textLen (rowField row).2 =
      rowLen jsonEscapedLen row := by
  rw [rowField, textLen_string, jsonEscapedLen_toHex, Json.textLen_array, rowLen]
  simp [textLen_originTag, Function.comp_def]
  omega

/-- The bytes of a body, from the rows it carries. -/
theorem textLen_snapshot (cursor : Nat) (tags : Table Hash (List OriginTag)) :
    textLen (BucketsResponse.snapshot cursor tags).json =
      snapshotLen jsonEscapedLen cursor (streamRows tags) := by
  have hname : jsonEscapedLen "tags" = 4 := by decide
  have hrows : (fun f => textLen (Json.string f.1) + 1 + textLen f.2) ∘ rowField =
      rowLen jsonEscapedLen := funext textLen_rowField
  rw [BucketsResponse.json, textLen_envelope, hname, Json.textLen_object, List.map_map, hrows]
  simp only [List.length_map, snapshotLen]
  omega

theorem textLen_delta (cursor : Nat) (changes : List DeltaMapping) :
    textLen (BucketsResponse.delta cursor changes).json =
      deltaLen jsonEscapedLen cursor changes := by
  have hname : jsonEscapedLen "changes" = 7 := by decide
  have hchanges : textLen ∘ DeltaMapping.json = changeLen jsonEscapedLen :=
    funext textLen_deltaMapping
  rw [BucketsResponse.json, textLen_envelope, hname, Json.textLen_array, List.map_map, hchanges]
  simp only [List.length_map, deltaLen]
  omega

/-! ## Escapes -/

/-- The bytes that JSON adds to a tag. -/
def escapes (tag : String) : Nat := jsonEscapedLen tag - byteLen tag

theorem utf8Size_le_jsonEscapedByte (c : Char) : c.utf8Size ≤ jsonEscapedByte c := by
  have hsmall : c.toNat < 128 → c.utf8Size = 1 := by
    intro h
    rw [Char.utf8Size_eq_one_iff]
    exact UInt32.le_iff_toNat_le.2 (by simpa using Nat.le_of_lt_succ h)
  unfold jsonEscapedByte
  split
  · rename_i h
    rw [hsmall (by omega)]
    omega
  · split
    · rename_i h
      simp only [List.mem_cons, List.not_mem_nil, or_false] at h
      rw [hsmall (by omega)]
      omega
    · split
      · rw [hsmall (by omega)]
        omega
      · exact le_refl _

theorem byteLen_le_jsonEscapedLen (s : String) : byteLen s ≤ jsonEscapedLen s := by
  rw [byteLen, jsonEscapedLen]
  exact List.sum_le_sum fun c _ => utf8Size_le_jsonEscapedByte c

theorem jsonEscapedLen_eq (s : String) : jsonEscapedLen s = byteLen s + escapes s := by
  have := byteLen_le_jsonEscapedLen s
  rw [escapes]
  omega

def rowEscapes (rows : List StreamRow) : Nat :=
  (rows.map fun row => (row.t.map fun o => escapes o.tag).sum).sum

theorem rowLen_escaped (row : StreamRow) :
    rowLen jsonEscapedLen row = rowLen byteLen row + (row.t.map fun o => escapes o.tag).sum := by
  have hsum : ∀ l : List OriginTag,
      (l.map fun o => 10 + jsonEscapedLen o.tag + originCost o.origin).sum =
        (l.map fun o => 10 + byteLen o.tag + originCost o.origin).sum +
          (l.map fun o => escapes o.tag).sum := by
    intro l
    induction l with
    | nil => rfl
    | cons o l ih =>
      simp only [List.map_cons, List.sum_cons, ih, jsonEscapedLen_eq o.tag]
      omega
  rw [rowLen, rowLen, hsum]
  omega

theorem snapshotLen_escaped (cursor : Nat) (rows : List StreamRow) :
    snapshotLen jsonEscapedLen cursor rows = snapshotLen byteLen cursor rows + rowEscapes rows := by
  have hsum : (rows.map (rowLen jsonEscapedLen)).sum =
      (rows.map (rowLen byteLen)).sum + rowEscapes rows := by
    induction rows with
    | nil => rfl
    | cons row rows ih =>
      simp only [rowEscapes, List.map_cons, List.sum_cons, rowLen_escaped row] at ih ⊢
      omega
  rw [snapshotLen, snapshotLen, hsum]
  omega

theorem deltaLen_escaped (cursor : Nat) (changes : List DeltaMapping) :
    deltaLen jsonEscapedLen cursor changes =
      deltaLen byteLen cursor changes + (changes.map fun d => escapes d.tag).sum := by
  have hsum : (changes.map (changeLen jsonEscapedLen)).sum =
      (changes.map (changeLen byteLen)).sum + (changes.map fun d => escapes d.tag).sum := by
    induction changes with
    | nil => rfl
    | cons d changes ih =>
      simp only [List.map_cons, List.sum_cons, ih, changeLen, jsonEscapedLen_eq d.tag]
      omega
  rw [deltaLen, deltaLen, hsum]
  omega

end Server
end Naiad
