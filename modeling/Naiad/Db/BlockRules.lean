import Naiad.Db.Display

/-!
# Naiad.Db.BlockRules

The block rules a user adds. A rule is stored as text, in the canonical form of its kind, and read
back from the text whenever mappings are shown.

* `addBlockRule_eq`: adding a rule returns the row that holds its text.
* `patternRule_round_trips`: **a stored pattern blocks what the pattern given blocks**.
-/

namespace Naiad
namespace Db

open Lib Core

inductive BlockRuleError
  | invalid (e : ParseError)
  | author (target : String)
deriving DecidableEq

def isAsciiHexDigit (c : Char) : Bool :=
  c.isDigit || ('a' ≤ c && c ≤ 'f') || ('A' ≤ c && c ≤ 'F')

/-- The text a rule is stored under. -/
def BlockKind.normalized (u : Unicode) (kind : BlockKind) (target : String) :
    Except BlockRuleError String :=
  match kind with
  | .tag => ((Tag.parse u target).mapError .invalid).map Tag.display
  | .tagPattern => ((TagPattern.parse u target).mapError .invalid).map TagPattern.display
  | .author =>
    let t := u.toLowercase (String.ofList (u.trim target.toList))
    if byteLen t ≠ 64 ∨ ¬ t.toList.all isAsciiHexDigit then .error (.author target) else .ok t

/-- `INSERT .. ON CONFLICT(kind, target) DO NOTHING`, and the id of the row. -/
def insertBlockRule (db : Db) (kind : BlockKind) (target : String) : Db × Nat :=
  match db.blockRules.find? fun r => r.kind = kind ∧ r.target = target with
  | some r => (db, r.id)
  | none =>
    let id := (db.blockRules.map BlockRule.id).foldr max 0 + 1
    ({ db with blockRules := db.blockRules ++ [⟨id, kind, target⟩] }, id)

def addBlockRule (db : Db) (u : Unicode) (kind : BlockKind) (target : String) :
    Except BlockRuleError (Db × Nat) :=
  (kind.normalized u target).map (db.insertBlockRule kind)

variable {u : Unicode} {db : Db}

theorem insertBlockRule_mem (db : Db) (kind : BlockKind) (target : String) :
    ⟨(db.insertBlockRule kind target).2, kind, target⟩ ∈ (db.insertBlockRule kind target).1.blockRules := by
  unfold insertBlockRule
  split
  · rename_i r hfind
    have hr := List.find?_some hfind
    simp only [decide_eq_true_eq] at hr
    obtain ⟨rfl, rfl⟩ := hr
    exact List.mem_of_find?_eq_some hfind
  · simp

/-- Adding a rule returns the row that holds its text. -/
theorem addBlockRule_eq {kind : BlockKind} {target text : String}
    (h : kind.normalized u target = .ok text) (db : Db) :
    ∃ db' id, db.addBlockRule u kind target = .ok (db', id) ∧ ⟨id, kind, text⟩ ∈ db'.blockRules := by
  refine ⟨_, _, ?_, db.insertBlockRule_mem kind text⟩
  rw [addBlockRule, h]
  rfl

/-- **Stored patterns block what was given.** The text of a parsed pattern parses to that pattern;
so the rule that is stored for it blocks, in whatever database reads it back, the tags the pattern
matches. -/
theorem patternRule_round_trips {lower : List Char → Char → List Char → List Char}
    (hu : u.Lowercases lower) (hstar : u.Keeps lower '*') {target : String} {p : TagPattern}
    (h : TagPattern.parse u target = .ok p) (db : Db) :
    TagPattern.parse u p.display = .ok p ∧
      ∃ db' id, db.addBlockRule u .tagPattern target = .ok (db', id) ∧
        ∃ rule ∈ db'.blockRules, rule.id = id ∧ rule.kind = .tagPattern ∧
          rule.target = p.display ∧
          ∀ later : Db, suppressedBy u later rule = later.tagIdsMatchingPattern p := by
  have hback := TagPattern.parse_display hu hstar h
  have htext : BlockKind.tagPattern.normalized u target = .ok p.display := by
    rw [BlockKind.normalized, h]
    rfl
  obtain ⟨db', id, hadd, hmem⟩ := addBlockRule_eq htext db
  refine ⟨hback, db', id, hadd, _, hmem, rfl, rfl, rfl, fun later => ?_⟩
  simp [suppressedBy, hback, Except.toOption]

/-- Capital letters and spaces round the parts of a pattern. -/
theorem patternRule_round_trips_asciiText :
    TagPattern.parse .asciiText " Meme : Bad* " = .ok (.namespaceGlob "meme" "bad*") ∧
      ∃ db' id, Db.empty.addBlockRule .asciiText .tagPattern " Meme : Bad* " = .ok (db', id) ∧
        ∃ rule ∈ db'.blockRules, rule.id = id ∧ rule.kind = .tagPattern ∧
          rule.target = "meme:bad*" ∧ ∀ later : Db, suppressedBy .asciiText later rule =
            later.tagIdsMatchingPattern (.namespaceGlob "meme" "bad*") := by
  have hparse : TagPattern.parse .asciiText " Meme : Bad* " =
      .ok (.namespaceGlob "meme" "bad*") := by decide +kernel
  exact ⟨hparse, (patternRule_round_trips Unicode.asciiText_lowercases
    Unicode.asciiText_keeps_star hparse Db.empty).2⟩

end Db
end Naiad
