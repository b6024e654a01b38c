import Naiad.Core.Tag
import Naiad.Lib.Like

/-!
# Naiad.Core.Query

Search query AST. A query is a flat list of predicates that are implicitly AND'd together.

* `TagPattern.parse_display`: **the text of a parsed pattern parses to that pattern**.
-/

namespace Naiad
namespace Core

open Lib

/-- A tag-search wildcard pattern. The namespace side is matched literally. -/
inductive TagPattern
  | namespaceAny (ns : String)
  | namespaceGlob (ns : String) (glob : String)
  | anyNamespaceGlob (glob : String)
deriving DecidableEq

namespace TagPattern

/-- At least one `*` must appear on the subtag side; none in the namespace. -/
def parse (u : Unicode) (s : String) : Except ParseError TagPattern :=
  match splitOnce ':' s.toList with
  | some (nsPart, subPart) =>
    if '*' ∈ nsPart ∨ '*' ∉ u.trim subPart then .error (.badPattern s)
    else if u.normalize nsPart = "" then .error (.badPattern s)
    else if (u.normalize (u.trim subPart)).toList.all (· = '*') then
      .ok (.namespaceAny (u.normalize nsPart))
    else .ok (.namespaceGlob (u.normalize nsPart) (u.normalize (u.trim subPart)))
  | none =>
    if '*' ∉ u.trim s.toList then .error (.badPattern s)
    -- bare, an all-`*` glob would match every tag
    else if (u.normalize (u.trim s.toList)).toList.all (· = '*') then .error (.badPattern s)
    else .ok (.anyNamespaceGlob (u.normalize (u.trim s.toList)))

def display : TagPattern → String
  | namespaceAny ns => ns ++ ":*"
  | namespaceGlob ns glob => ns ++ ":" ++ glob
  | anyNamespaceGlob glob => glob

section

variable {u : Unicode} {lower : List Char → Char → List Char → List Char}

theorem parse_bare (hu : u.Lowercases lower) {glob : String} (hglob : u.Normal lower glob.toList)
    (hstar : '*' ∈ glob.toList) (hcolon : ':' ∉ glob.toList) :
    parse u glob =
      if glob.toList.all (· = '*') then .error (.badPattern glob)
      else .ok (.anyNamespaceGlob glob) := by
  have hback := hglob.normalize_eq hu
  rw [String.ofList_toList] at hback
  rw [parse, splitOnce_eq_none hcolon]
  simp only [hglob.trim_eq, hback, hstar, not_true_eq_false, if_false]

theorem parse_namespaced (hu : u.Lowercases lower) {ns glob : String}
    (hns : u.Normal lower ns.toList) (hcolon : ':' ∉ ns.toList) (hnostar : '*' ∉ ns.toList)
    (hglob : u.Normal lower glob.toList) (hstar : '*' ∈ glob.toList) :
    parse u (ns ++ ":" ++ glob) =
      if glob.toList.all (· = '*') then .ok (.namespaceAny ns) else .ok (.namespaceGlob ns glob) := by
  have hback := hglob.normalize_eq hu
  have hnsback := hns.normalize_eq hu
  rw [String.ofList_toList] at hback hnsback
  have hne : ns ≠ "" := by
    rintro rfl
    exact hns.spaced.ne_nil rfl
  have htext : (ns ++ ":" ++ glob).toList = ns.toList ++ ':' :: glob.toList := by simp
  rw [parse, htext, splitOnce_append hcolon]
  simp only [hglob.trim_eq, hback, hnsback, hstar, hnostar, hne, not_true_eq_false, or_self,
    if_false]

theorem normal_glob (hu : u.Lowercases lower) (hstar : u.Keeps lower '*') {part : List Char}
    (h : '*' ∈ part) :
    '*' ∈ (u.normalize part).toList ∧ u.Normal lower (u.normalize part).toList := by
  have hmem := hstar.mem_normalize hu h
  refine ⟨hmem, Unicode.normal_normalize hu ?_⟩
  intro hempty
  rw [hempty] at hmem
  cases hmem

/-- **Patterns survive as text.** The text of a parsed pattern parses to that pattern. -/
theorem parse_display (hu : u.Lowercases lower) (hstar : u.Keeps lower '*') {s : String}
    {p : TagPattern} (h : parse u s = .ok p) : parse u p.display = .ok p := by
  unfold parse at h
  split at h
  · rename_i nsPart subPart hsplit
    split at h
    · cases h
    rename_i hstars
    obtain ⟨hnostar, hsub⟩ := not_or.1 hstars
    split at h
    · cases h
    rename_i hne
    have hns := Unicode.normal_normalize hu hne
    have hcolon := Unicode.colon_not_mem_normalize hu (not_mem_of_splitOnce hsplit)
    have hnsstar := Unicode.not_mem_normalize hu (by decide) hstar.of_mem hnostar
    split at h
    · cases h
      have hsingle : u.Normal lower "*".toList := by
        refine ⟨.single hstar.not_whitespace, ?_⟩
        intro d hd b a
        rw [List.mem_singleton.1 hd]
        exact hstar.lower_eq b a
      have hparse := parse_namespaced hu hns hcolon hnsstar hsingle (by simp)
      rw [if_pos (by decide), String.append_assoc] at hparse
      exact hparse
    · rename_i hall
      cases h
      obtain ⟨hmem, hglob⟩ := normal_glob hu hstar (not_not.1 hsub)
      have hparse := parse_namespaced hu hns hcolon hnsstar hglob hmem
      rwa [if_neg hall] at hparse
  · rename_i hsplit
    split at h
    · cases h
    rename_i hsub
    split at h
    · cases h
    rename_i hall
    cases h
    obtain ⟨hmem, hglob⟩ := normal_glob hu hstar (not_not.1 hsub)
    have hcolon : ':' ∉ (u.normalize (u.trim s.toList)).toList := by
      apply Unicode.colon_not_mem_normalize hu
      intro htrim
      obtain ⟨before, after, hs, hbefore⟩ :=
        List.eq_append_cons_of_mem (Unicode.mem_of_mem_trim htrim)
      rw [hs, splitOnce_append hbefore] at hsplit
      cases hsplit
    have hparse := parse_bare hu hglob hmem hcolon
    rwa [if_neg hall] at hparse

end

end TagPattern

/-- A filterable intrinsic-metadata field. -/
inductive SysField
  | size
  | width
  | height
  | duration
deriving DecidableEq

inductive CmpOp
  | gt
  | lt
  | ge
  | le
  | eq
deriving DecidableEq

/-- A filter on a file's metadata; `origin none` is the reserved `manual` value. -/
inductive SystemPredicate
  | compare (field : SysField) (op : CmpOp) (value : Int)
  | fileType (mime : String)
  | origin (name : Option String)
deriving DecidableEq

/-- Whether a predicate matches through relation expansion or literally. -/
inductive MatchMode
  | expanded
  | exact
deriving DecidableEq

inductive Predicate
  | tag (t : Tag) (mode : MatchMode)
  | not (t : Tag) (mode : MatchMode)
  | or (members : List (Tag × MatchMode))
  | wild (p : TagPattern) (mode : MatchMode)
  | notWild (p : TagPattern) (mode : MatchMode)
  | system (p : SystemPredicate)
  | notSystem (p : SystemPredicate)
deriving DecidableEq

structure Query where
  predicates : List Predicate
deriving DecidableEq

/-- The boolean reading of a predicate, given what its terms mean of a file. -/
def Predicate.Holds (tagTerm : Tag → MatchMode → Prop) (wildTerm : TagPattern → MatchMode → Prop)
    (systemTerm : SystemPredicate → Prop) : Predicate → Prop
  | tag t mode => tagTerm t mode
  | not t mode => ¬ tagTerm t mode
  | or members => ∃ m ∈ members, tagTerm m.1 m.2
  | wild p mode => wildTerm p mode
  | notWild p mode => ¬ wildTerm p mode
  | system p => systemTerm p
  | notSystem p => ¬ systemTerm p

end Core
end Naiad
