import Mathlib.Algebra.Order.Ring.Int
import Naiad.Core.Query
import Naiad.Lib.Fallible

/-!
# Naiad.Core.Tokens

From the text of a search to its query: the tokenizer, the parser of `system:` bodies and the parser
of the token stream. Texts are lists of characters.

* `tokenize`: quotes group whitespace and are removed.
* `parseStep`: one predicate, with the tokens it takes.
* `parseLoop_append`: a term after a query that parses is one more predicate.
* `parse_of_last`, `length_of_parseLoop`: what a parsed query says of its tokens.
-/

namespace Naiad
namespace Core

open Lib

inductive QueryError
  | term (e : ParseError)
  | badSystem (body : String)
  | badQuery (message : String)
deriving DecidableEq

/-- `str::strip_prefix` -/
def stripPrefix (lead s : List Char) : Option (List Char) :=
  if lead.isPrefixOf s then some (s.drop lead.length) else none

namespace SystemPredicate

/-- Nothing for a unit the field does not have. -/
def unitMultiplier (field : SysField) (unit : String) : Option Int :=
  match field with
  | .size =>
    if unit = "" ∨ unit = "b" then some 1
    else if unit = "kb" then some 1024
    else if unit = "mb" then some (1024 * 1024)
    else if unit = "gb" then some (1024 * 1024 * 1024)
    else none
  | .duration =>
    if unit = "" ∨ unit = "ms" then some 1
    else if unit = "s" then some 1000
    else if unit = "m" then some 60000
    else if unit = "h" then some 3600000
    else none
  | .width => if unit = "" then some 1 else none
  | .height => if unit = "" then some 1 else none

/-- The field keyword a body starts with. -/
def field (body : List Char) : Option (SysField × List Char) :=
  ((stripPrefix "size".toList body).map (SysField.size, ·)).or <|
    ((stripPrefix "width".toList body).map (SysField.width, ·)).or <|
      ((stripPrefix "height".toList body).map (SysField.height, ·)).or <|
        (stripPrefix "duration".toList body).map (SysField.duration, ·)

/-- The operators of two characters come first. -/
def operator (rest : List Char) : Option (CmpOp × List Char) :=
  ((stripPrefix ">=".toList rest).map (CmpOp.ge, ·)).or <|
    ((stripPrefix "<=".toList rest).map (CmpOp.le, ·)).or <|
      ((stripPrefix ">".toList rest).map (CmpOp.gt, ·)).or <|
        ((stripPrefix "<".toList rest).map (CmpOp.lt, ·)).or <|
          (stripPrefix "=".toList rest).map (CmpOp.eq, ·)

/-- `i64::MAX` -/
def maxValue : Int := 2 ^ 63 - 1

/-- `<field><op><number><unit?>`, in the base unit of the field. -/
def parseCompare (body : List Char) : Option SystemPredicate :=
  (field body).bind fun (field, rest) =>
    (operator rest).bind fun (op, rest) =>
      let digits := rest.takeWhile Char.isDigit
      let magnitude : Int := Nat.ofDigitChars 10 digits 0
      if digits = [] ∨ maxValue < magnitude then none
      else (unitMultiplier field (String.ofList (rest.dropWhile Char.isDigit))).bind fun multiplier =>
        if maxValue < magnitude * multiplier then none
        else some (.compare field op (magnitude * multiplier))

/-- Parse the body of a `system:` token. -/
def parse (u : Unicode) (original : List Char) : Except QueryError SystemPredicate :=
  let bad := QueryError.badSystem (String.ofList original)
  let body := (u.toLowercase (String.ofList (u.trim original))).toList
  match stripPrefix "type=".toList body with
  | some rest =>
    if u.trim rest = [] then .error bad else .ok (.fileType (String.ofList (u.trim rest)))
  | none =>
    match stripPrefix "origin".toList body with
    | some rest =>
      match stripPrefix "=".toList rest with
      | some value =>
        if u.trim value = [] then .error bad
        else if u.trim value = "manual".toList then .ok (.origin none)
        else .ok (.origin (some (String.ofList (u.trim value))))
      | none => .error bad
    | none =>
      match parseCompare body with
      | some p => .ok p
      | none => .error bad

end SystemPredicate

/-! ## The tokenizer -/

structure Scan where
  tokens : List (List Char)
  cur : List Char
  inQuote : Bool

namespace Scan

def start : Scan := ⟨[], [], false⟩

def next (u : Unicode) (s : Scan) (ch : Char) : Scan :=
  if ch = '"' then { s with inQuote := !s.inQuote }
  else if u.isWhitespace ch ∧ s.inQuote = false then
    if s.cur = [] then s else { s with tokens := s.tokens ++ [s.cur], cur := [] }
  else { s with cur := s.cur ++ [ch] }

def scan (u : Unicode) (s : Scan) (text : List Char) : Scan := text.foldl (next u) s

def finish (s : Scan) : List (List Char) := if s.cur = [] then s.tokens else s.tokens ++ [s.cur]

end Scan

/-- Split a raw query string into tokens; an unterminated quote runs to the end. -/
def tokenize (u : Unicode) (text : List Char) : List (List Char) := (Scan.start.scan u text).finish

/-! ## The parser -/

def eqIgnoreAsciiCase (s t : List Char) : Bool := s.map Char.toLower = t.map Char.toLower

def isOr (tok : List Char) : Bool := eqIgnoreAsciiCase tok "or".toList

def isWild (tok : List Char) : Bool := tok.contains '*'

def stripSystemPrefix (tok : List Char) : Option (List Char) :=
  if eqIgnoreAsciiCase (tok.take 7) "system:".toList then some (tok.drop 7) else none

/-- Strip a single leading `=`. -/
def stripExact : List Char → List Char × MatchMode
  | '=' :: rest => (rest, .exact)
  | tok => (tok, .expanded)

def danglingOr : QueryError := .badQuery "dangling 'or' in query"

def exactSystem : QueryError := .badQuery "system predicates cannot be marked exact"

def dashInside : QueryError := .badQuery "'-' must lead a term; '=-tag' is not valid"

def systemInGroup : QueryError := .badQuery "system predicates cannot appear in an 'or' group"

def wildInGroup : QueryError := .badQuery "wildcards cannot appear in an 'or' group"

def parseTag (u : Unicode) (body : List Char) : Except QueryError Tag :=
  (Tag.parse u (String.ofList body)).mapError .term

def parsePattern (u : Unicode) (body : List Char) : Except QueryError TagPattern :=
  (TagPattern.parse u (String.ofList body)).mapError .term

/-- A term behind a `-`. -/
def parseNegated (u : Unicode) (body : List Char) (mode : MatchMode) :
    Except QueryError Predicate :=
  match stripSystemPrefix body with
  | some sys =>
    if mode = .exact then .error exactSystem else (SystemPredicate.parse u sys).map .notSystem
  | none =>
    if isWild body then (parsePattern u body).map (.notWild · mode)
    else (parseTag u body).map (.not · mode)

/-- The members of a group after its first, with the tokens that are left. -/
def orGroup (u : Unicode) (group : List (Tag × MatchMode)) :
    List (List Char) → Except QueryError (List (Tag × MatchMode) × List (List Char))
  | [] => .ok (group, [])
  | [tok] => if isOr tok then .error danglingOr else .ok (group, [tok])
  | tok :: next :: rest =>
    if isOr tok then
      if isOr next ∨ next.head? = some '-' then .error danglingOr
      else if (stripExact next).1.head? = some '-' then .error dashInside
      else if (stripSystemPrefix (stripExact next).1).isSome then .error systemInGroup
      else if isWild (stripExact next).1 then .error wildInGroup
      else
        match parseTag u (stripExact next).1 with
        | .error e => .error e
        | .ok t => orGroup u (group ++ [(t, (stripExact next).2)]) rest
    else .ok (group, tok :: next :: rest)

def ofGroup : List (Tag × MatchMode) → Predicate
  | [(t, mode)] => .tag t mode
  | group => .or group

def nextIsOr (rest : List (List Char)) : Bool := (rest.head?.map isOr).getD false

/-- The predicate that starts at a token, with the tokens after it. -/
def parseStep (u : Unicode) (tok : List Char) (rest : List (List Char)) :
    Except QueryError (Predicate × List (List Char)) :=
  if isOr tok then .error danglingOr
  else
    match stripPrefix ['-'] tok with
    | some negated =>
      if nextIsOr rest then .error danglingOr
      else (parseNegated u (stripExact negated).1 (stripExact negated).2).map (·, rest)
    | none =>
      if (stripExact tok).1.head? = some '-' then .error dashInside
      else
        match stripSystemPrefix (stripExact tok).1 with
        | some sys =>
          if nextIsOr rest then .error systemInGroup
          else if (stripExact tok).2 = .exact then .error exactSystem
          else (SystemPredicate.parse u sys).map (.system ·, rest)
        | none =>
          if isWild (stripExact tok).1 then
            if nextIsOr rest then .error wildInGroup
            else (parsePattern u (stripExact tok).1).map (.wild · (stripExact tok).2, rest)
          else
            match parseTag u (stripExact tok).1 with
            | .error e => .error e
            | .ok t => (orGroup u [(t, (stripExact tok).2)] rest).map fun g => (ofGroup g.1, g.2)

/-! ## What a parsed query says of its tokens -/

section

variable {u : Unicode} {tok : List Char} {rest left : List (List Char)}

/-- A group takes pairs of an `or` and a member. -/
theorem orGroup_takes {group group' : List (Tag × MatchMode)}
    (h : orGroup u group rest = .ok (group', left)) :
    ∃ taken, rest = taken ++ left ∧ taken.length = 2 * taken.countP isOr ∧
      group'.length = group.length + taken.countP isOr ∧ (taken = [] → group' = group) := by
  fun_induction orGroup u group rest with
  | case1 group =>
    cases h
    exact ⟨[], rfl, rfl, rfl, fun _ => rfl⟩
  | case2 => cases h
  | case3 group tok hor =>
    cases h
    exact ⟨[], rfl, rfl, rfl, fun _ => rfl⟩
  | case4 => cases h
  | case5 => cases h
  | case6 => cases h
  | case7 => cases h
  | case8 => cases h
  | case9 group tok next rest hor hnext _ _ _ t _ ih =>
    obtain ⟨taken, hrest, hlength, hgroup, _⟩ := ih h
    have hnot : isOr next = false := by simpa using fun h => hnext (.inl h)
    refine ⟨tok :: next :: taken, by simp [hrest], ?_, ?_, by simp⟩
    · simp only [List.length_cons, List.countP_cons, hor, hnot, if_true]
      simp only [Bool.false_eq_true, if_false]
      omega
    · rw [List.length_append, List.length_singleton] at hgroup
      simp only [List.countP_cons, hor, hnot, if_true]
      simp only [Bool.false_eq_true, if_false]
      omega
  | case10 group tok next rest hor =>
    cases h
    exact ⟨[], rfl, rfl, rfl, fun _ => rfl⟩

/-- A group does not look past a token that is no `or`. -/
theorem orGroup_append {group group' : List (Tag × MatchMode)} {last : List Char}
    (h : orGroup u group rest = .ok (group', left)) (hlast : isOr last = false) :
    orGroup u group (rest ++ [last]) = .ok (group', left ++ [last]) := by
  fun_induction orGroup u group rest with
  | case1 group =>
    cases h
    simp [orGroup, hlast]
  | case2 => cases h
  | case3 group tok hor =>
    cases h
    simp [orGroup, hor]
  | case4 => cases h
  | case5 => cases h
  | case6 => cases h
  | case7 => cases h
  | case8 => cases h
  | case9 group tok next rest hor hnext hdash hsys hwild t ht ih =>
    rw [List.cons_append, List.cons_append, orGroup, if_pos hor, if_neg hnext, if_neg hdash,
      if_neg hsys, if_neg hwild, ht]
    exact ih h
  | case10 group tok next rest hor =>
    cases h
    simp [orGroup, hor]

theorem parseNegated_ne_tag {body : List Char} {mode : MatchMode} {p : Predicate}
    (h : parseNegated u body mode = .ok p) (t : Tag) (mode' : MatchMode) : p ≠ .tag t mode' := by
  rintro rfl
  unfold parseNegated at h
  split at h
  · obtain ⟨_, h⟩ := of_ite_error h
    obtain ⟨_, _, heq⟩ := map_eq_ok_iff.1 h
    cases heq
  · split at h
    · obtain ⟨_, _, heq⟩ := map_eq_ok_iff.1 h
      cases heq
    · obtain ⟨_, _, heq⟩ := map_eq_ok_iff.1 h
      cases heq

theorem stripExact_expanded (h : (stripExact tok).2 = .expanded) : (stripExact tok).1 = tok := by
  unfold stripExact at h ⊢
  split
  · cases h
  · rfl

/-- A step either takes one token, and looks at the next one only to see that it is no `or`, or it
takes a group of tags. -/
theorem parseStep_cases {p : Predicate} (h : parseStep u tok rest = .ok (p, left)) :
    isOr tok = false ∧
      ((left = rest ∧ (∀ t mode, p ≠ .tag t mode) ∧ nextIsOr rest = false ∧
          ∀ rest', nextIsOr rest' = false → parseStep u tok rest' = .ok (p, rest')) ∨
        ∃ t group, parseTag u (stripExact tok).1 = .ok t ∧ p = ofGroup group ∧
          orGroup u [(t, (stripExact tok).2)] rest = .ok (group, left) ∧
          ∀ rest', parseStep u tok rest' = (orGroup u [(t, (stripExact tok).2)] rest').map
            fun g => (ofGroup g.1, g.2)) := by
  unfold parseStep at h ⊢
  obtain ⟨hor, h⟩ := of_ite_error h
  refine ⟨by simpa using hor, ?_⟩
  simp only [if_neg hor]
  cases hneg : stripPrefix ['-'] tok with
  | some negated =>
    simp only [hneg] at h ⊢
    obtain ⟨hnext, h⟩ := of_ite_error h
    obtain ⟨q, hq, heq⟩ := map_eq_ok_iff.1 h
    cases heq
    refine .inl ⟨rfl, parseNegated_ne_tag hq, by simpa using hnext, ?_⟩
    intro rest' hrest'
    simp [hrest', hq, Except.map]
  | none =>
    simp only [hneg] at h ⊢
    obtain ⟨hdash, h⟩ := of_ite_error h
    simp only [if_neg hdash]
    cases hsys : stripSystemPrefix (stripExact tok).1 with
    | some sys =>
      simp only [hsys] at h ⊢
      obtain ⟨hnext, h⟩ := of_ite_error h
      obtain ⟨hexact, h⟩ := of_ite_error h
      obtain ⟨q, hq, heq⟩ := map_eq_ok_iff.1 h
      cases heq
      refine .inl ⟨rfl, by simp, by simpa using hnext, ?_⟩
      intro rest' hrest'
      simp [hrest', hq, hexact, Except.map]
    | none =>
      simp only [hsys] at h ⊢
      by_cases hwild : isWild (stripExact tok).1 = true
      · simp only [if_pos hwild] at h ⊢
        obtain ⟨hnext, h⟩ := of_ite_error h
        obtain ⟨q, hq, heq⟩ := map_eq_ok_iff.1 h
        cases heq
        refine .inl ⟨rfl, by simp, by simpa using hnext, ?_⟩
        intro rest' hrest'
        simp [hrest', hq, Except.map]
      · simp only [if_neg hwild] at h ⊢
        cases ht : parseTag u (stripExact tok).1 with
        | error _ =>
          simp only [ht] at h
          cases h
        | ok t =>
          simp only [ht] at h ⊢
          obtain ⟨group, hgroup, heq⟩ := map_eq_ok_iff.1 h
          cases heq
          exact .inr ⟨t, group.1, rfl, rfl, hgroup, fun _ => rfl⟩

/-- What a step takes; a plain tag is a single token. -/
theorem parseStep_takes {p : Predicate} (h : parseStep u tok rest = .ok (p, left)) :
    isOr tok = false ∧ ∃ taken, rest = taken ++ left ∧ taken.length = 2 * taken.countP isOr ∧
      ∀ t, p = .tag t .expanded → taken = [] ∧ Tag.parse u (String.ofList tok) = .ok t := by
  obtain ⟨hor, ⟨rfl, hnot, _⟩ | ⟨t, group, ht, rfl, hgroup, _⟩⟩ := parseStep_cases h
  · exact ⟨hor, [], rfl, rfl, fun t hp => absurd hp (hnot t _)⟩
  · obtain ⟨taken, hrest, hlength, hmembers, hnil⟩ := orGroup_takes hgroup
    refine ⟨hor, taken, hrest, hlength, ?_⟩
    intro t' hp
    have hsingle : group = [(t', .expanded)] := by
      unfold ofGroup at hp
      split at hp
      · cases hp
        rfl
      · cases hp
    have htaken : taken = [] := by
      rw [hsingle] at hmembers
      simp only [List.length_singleton] at hmembers
      exact List.eq_nil_of_length_eq_zero (by omega)
    refine ⟨htaken, ?_⟩
    rw [hnil htaken] at hsingle
    obtain ⟨rfl, hmode⟩ := Prod.mk.inj (List.cons.inj hsingle).1
    rw [stripExact_expanded hmode] at ht
    exact mapError_eq_ok.1 ht

/-- A step does not look past a token that is no `or`. -/
theorem parseStep_append {p : Predicate} {last : List Char}
    (h : parseStep u tok rest = .ok (p, left)) (hlast : isOr last = false) :
    parseStep u tok (rest ++ [last]) = .ok (p, left ++ [last]) := by
  obtain ⟨_, ⟨rfl, _, hnext, hsame⟩ | ⟨t, group, _, rfl, hgroup, hsame⟩⟩ := parseStep_cases h
  · refine hsame _ ?_
    cases left with
    | nil => simpa [nextIsOr] using hlast
    | cons tok' rest' => exact hnext
  · rw [hsame, orGroup_append hgroup hlast]
    rfl

end

/-- The loop over the tokens. -/
def parseLoop (u : Unicode) : List (List Char) → Except QueryError (List Predicate)
  | [] => .ok []
  | tok :: rest =>
    match _ : parseStep u tok rest with
    | .error e => .error e
    | .ok (p, left) => (parseLoop u left).map (p :: ·)
termination_by tokens => tokens.length
decreasing_by
  rename_i h
  obtain ⟨_, taken, hrest, _⟩ := parseStep_takes h
  simp only [hrest, List.length_append, List.length_cons]
  omega

/-- Parse a token stream into a query. -/
def parseQuery (u : Unicode) (tokens : List (List Char)) : Except QueryError Query :=
  if tokens = [] then .error (.badQuery "no search predicates")
  else (parseLoop u tokens).map Query.mk

/-- The loop as a derivation. -/
inductive Parses (u : Unicode) : List (List Char) → List Predicate → Prop
  | nil : Parses u [] []
  | cons {tok : List Char} {rest left : List (List Char)} {p : Predicate} {ps : List Predicate}
    (h : parseStep u tok rest = .ok (p, left)) (hs : Parses u left ps) :
    Parses u (tok :: rest) (p :: ps)

section

variable {u : Unicode} {tokens : List (List Char)} {ps : List Predicate} {last : List Char}

theorem parseLoop_of_ok {tok : List Char} {rest left : List (List Char)} {p : Predicate}
    (h : parseStep u tok rest = .ok (p, left)) :
    parseLoop u (tok :: rest) = (parseLoop u left).map (p :: ·) := by
  rw [parseLoop]
  split
  · rename_i he
    rw [h] at he
    cases he
  · rename_i he
    rw [h] at he
    cases he
    rfl

theorem parseLoop_of_error {tok : List Char} {rest : List (List Char)} {e : QueryError}
    (h : parseStep u tok rest = .error e) : parseLoop u (tok :: rest) = .error e := by
  rw [parseLoop]
  split
  · rename_i he
    rw [h] at he
    cases he
    rfl
  · rename_i he
    rw [h] at he
    cases he

theorem parses_of_parseLoop (h : parseLoop u tokens = .ok ps) : Parses u tokens ps := by
  induction tokens using parseLoop.induct u generalizing ps with
  | case1 =>
    rw [parseLoop] at h
    cases h
    exact .nil
  | case2 tok rest e he =>
    rw [parseLoop_of_error he] at h
    cases h
  | case3 tok rest p left hstep ih =>
    rw [parseLoop_of_ok hstep] at h
    obtain ⟨ps', hps, rfl⟩ := map_eq_ok_iff.1 h
    exact .cons hstep (ih hps)

theorem Parses.parseLoop_eq (h : Parses u tokens ps) : parseLoop u tokens = .ok ps := by
  induction h with
  | nil => rw [parseLoop]
  | cons hstep _ ih =>
    rw [parseLoop_of_ok hstep, ih]
    rfl

/-- A term after a query that parses is one more predicate. -/
theorem Parses.append {p : Predicate} (h : Parses u tokens ps)
    (hlast : parseStep u last [] = .ok (p, [])) : Parses u (tokens ++ [last]) (ps ++ [p]) := by
  have hor := (parseStep_takes hlast).1
  induction h with
  | nil => exact .cons hlast .nil
  | cons hstep _ ih => exact .cons (parseStep_append hstep hor) ih

/-- Each predicate takes one token, and two more for each `or`. -/
theorem Parses.length_eq (h : Parses u tokens ps) :
    ps.length + 2 * tokens.countP isOr = tokens.length := by
  induction h with
  | nil => rfl
  | @cons tok rest left p ps hstep _ ih =>
    obtain ⟨hor, taken, hrest, hlength, _⟩ := parseStep_takes hstep
    rw [hrest]
    simp only [List.length_cons, List.length_append, List.countP_cons, List.countP_append, hor]
    simp only [Bool.false_eq_true, if_false]
    omega

theorem stripPrefix_dash {tok : List Char} : stripPrefix ['-'] tok = none ↔ tok.head? ≠ some '-' := by
  cases tok with
  | nil => simp [stripPrefix]
  | cons c tok =>
    by_cases hc : c = '-'
    · simp [stripPrefix, hc]
    · simp [stripPrefix, hc, Ne.symm hc]

end

/-! ## What the tokenizer makes of a text -/

namespace Scan

section

variable {u : Unicode} {s : Scan} {w : List Char}

theorem scan_append (s : Scan) (a b : List Char) :
    s.scan u (a ++ b) = (s.scan u a).scan u b :=
  List.foldl_append

theorem scan_quoted (hquote : '"' ∉ w) (hs : s.inQuote = true) :
    s.scan u w = { s with cur := s.cur ++ w } := by
  induction w generalizing s with
  | nil => simp [scan]
  | cons c w ih =>
    have hc : c ≠ '"' := fun heq => hquote (by simp [heq])
    have hnext : s.next u c = { s with cur := s.cur ++ [c] } := by simp [next, hc, hs]
    change (s.next u c).scan u w = _
    rw [hnext, ih (s := ⟨s.tokens, s.cur ++ [c], s.inQuote⟩)
      (fun h => hquote (List.mem_cons_of_mem _ h)) hs]
    simp

theorem scan_phrase (hquote : '"' ∉ w) (hs : s.inQuote = false) :
    s.scan u ('"' :: w ++ ['"']) = { s with cur := s.cur ++ w } := by
  obtain ⟨tokens, cur, inQuote⟩ := s
  subst hs
  rw [scan_append]
  change (scan u (next u ⟨tokens, cur, false⟩ '"') w).scan u ['"'] = _
  rw [show next u ⟨tokens, cur, false⟩ '"' = ⟨tokens, cur, true⟩ by simp [next],
    scan_quoted hquote rfl]
  simp [scan, next]

/-- Whitespace outside quotes ends the token. -/
theorem next_space {c : Char} (hc : c ≠ '"') (hspace : u.isWhitespace c = true)
    (hs : s.inQuote = false) : s.next u c = ⟨s.finish, [], false⟩ := by
  obtain ⟨tokens, cur, inQuote⟩ := s
  subst hs
  by_cases hcur : cur = []
  · simp [next, hc, hspace, finish, hcur]
  · simp [next, hc, hspace, finish, hcur]

/-- Quotes are removed. -/
def Unquoted (s : Scan) : Prop := '"' ∉ s.cur ∧ ∀ tok ∈ s.tokens, '"' ∉ tok

theorem Unquoted.next (h : s.Unquoted) (u : Unicode) (ch : Char) : (s.next u ch).Unquoted := by
  unfold Scan.next
  by_cases hch : ch = '"'
  · rw [if_pos hch]
    exact h
  rw [if_neg hch]
  split
  · split
    · exact h
    · refine ⟨by simp, ?_⟩
      intro tok htok
      rcases List.mem_append.1 htok with htok | htok
      · exact h.2 tok htok
      · rw [List.mem_singleton.1 htok]
        exact h.1
  · exact ⟨by simpa [Ne.symm hch] using h.1, h.2⟩

theorem Unquoted.scan (h : s.Unquoted) (u : Unicode) (w : List Char) : (s.scan u w).Unquoted := by
  induction w generalizing s with
  | nil => exact h
  | cons c w ih => exact ih (h.next u c)

theorem Unquoted.finish (h : s.Unquoted) : ∀ tok ∈ s.finish, '"' ∉ tok := by
  unfold Scan.finish
  split
  · exact h.2
  · intro tok htok
    rcases List.mem_append.1 htok with htok | htok
    · exact h.2 tok htok
    · rw [List.mem_singleton.1 htok]
      exact h.1

end

end Scan

end Core
end Naiad
