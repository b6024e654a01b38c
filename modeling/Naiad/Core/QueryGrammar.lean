import Naiad.Core.Tokens

/-!
# Naiad.Core.QueryGrammar

The grammar of searches, apart from the functions that read them: which tokens spell a predicate,
and which pieces a text falls into.

* `tokenize_spec`: a text is pieces of whitespace, characters and quoted runs; its tokens are the
  words between the whitespace pieces.
* `parseStep_iff`, `parses_iff`: the parser accepts exactly the token lists that are terms in a row.
* `parseQuery_exact`: **queries are exactly the readings of their tokens**.
-/

namespace Naiad
namespace Core

open Lib

/-! ## Terms -/

/-- A token that is no `or` and that no `-` leads, also not behind a `=`. -/
structure Positive (tok : List Char) : Prop where
  not_or : isOr tok = false
  not_negated : tok.head? ≠ some '-'
  not_inside : (stripExact tok).1.head? ≠ some '-'

/-- A tag, expanded or exact: what a group is made of. -/
structure Member (u : Unicode) (tok : List Char) (m : Tag × MatchMode) : Prop extends
    Positive tok where
  not_system : stripSystemPrefix (stripExact tok).1 = none
  not_wild : isWild (stripExact tok).1 = false
  tag : Tag.parse u (String.ofList (stripExact tok).1) = .ok m.1
  mode : (stripExact tok).2 = m.2

/-- What stands behind a `-`. -/
inductive Negated (u : Unicode) (body : List Char) : Predicate → Prop
  | tag {t : Tag} (hsys : stripSystemPrefix (stripExact body).1 = none)
    (hwild : isWild (stripExact body).1 = false)
    (h : Tag.parse u (String.ofList (stripExact body).1) = .ok t) :
    Negated u body (.not t (stripExact body).2)
  | wild {p : TagPattern} (hsys : stripSystemPrefix (stripExact body).1 = none)
    (hwild : isWild (stripExact body).1 = true)
    (h : TagPattern.parse u (String.ofList (stripExact body).1) = .ok p) :
    Negated u body (.notWild p (stripExact body).2)
  | system {sys : List Char} {p : SystemPredicate}
    (hsys : stripSystemPrefix (stripExact body).1 = some sys)
    (hmode : (stripExact body).2 = .expanded) (h : SystemPredicate.parse u sys = .ok p) :
    Negated u body (.notSystem p)

/-- A positive token that cannot stand in a group. -/
inductive Alone (u : Unicode) (tok : List Char) : Predicate → Prop
  | wild {p : TagPattern} (hsys : stripSystemPrefix (stripExact tok).1 = none)
    (hwild : isWild (stripExact tok).1 = true)
    (h : TagPattern.parse u (String.ofList (stripExact tok).1) = .ok p) :
    Alone u tok (.wild p (stripExact tok).2)
  | system {sys : List Char} {p : SystemPredicate}
    (hsys : stripSystemPrefix (stripExact tok).1 = some sys)
    (hmode : (stripExact tok).2 = .expanded) (h : SystemPredicate.parse u sys = .ok p) :
    Alone u tok (.system p)

/-- The rest of a group: an `or` before each member. -/
inductive GroupTail (u : Unicode) : List (List Char) → List (Tag × MatchMode) → Prop
  | nil : GroupTail u [] []
  | cons {o tok : List Char} {rest : List (List Char)} {m : Tag × MatchMode}
    {ms : List (Tag × MatchMode)} (ho : isOr o = true) (hm : Member u tok m)
    (hs : GroupTail u rest ms) : GroupTail u (o :: tok :: rest) (m :: ms)

/-- The tokens of one predicate. -/
inductive Term (u : Unicode) : List (List Char) → Predicate → Prop
  | negated {body : List Char} {p : Predicate} (h : Negated u body p) : Term u ['-' :: body] p
  | alone {tok : List Char} {p : Predicate} (hpos : Positive tok) (h : Alone u tok p) :
    Term u [tok] p
  | tag {tok : List Char} {t : Tag} {mode : MatchMode} (h : Member u tok (t, mode)) :
    Term u [tok] (.tag t mode)
  | or {tok : List Char} {rest : List (List Char)} {m : Tag × MatchMode}
    {ms : List (Tag × MatchMode)} (hm : Member u tok m) (hs : GroupTail u rest ms)
    (hne : ms ≠ []) : Term u (tok :: rest) (.or (m :: ms))

section

variable {u : Unicode} {tok : List Char} {rest left : List (List Char)}

theorem orGroup_of_not_or {group : List (Tag × MatchMode)} (h : nextIsOr left = false) :
    orGroup u group left = .ok (group, left) := by
  cases left with
  | nil => rw [orGroup]
  | cons tok left =>
    have hor : isOr tok = false := h
    cases left with
    | nil => simp [orGroup, hor]
    | cons next rest => simp [orGroup, hor]

/-- The loop of a group reads the rest of the group, up to the first token that is no `or`. -/
theorem orGroup_iff {group group' : List (Tag × MatchMode)} :
    orGroup u group rest = .ok (group', left) ↔ ∃ taken ms, rest = taken ++ left ∧
      GroupTail u taken ms ∧ group' = group ++ ms ∧ nextIsOr left = false := by
  constructor
  · intro h
    fun_induction orGroup u group rest with
    | case1 group =>
      cases h
      exact ⟨[], [], rfl, .nil, by simp, rfl⟩
    | case2 => cases h
    | case3 group tok hor =>
      cases h
      exact ⟨[], [], rfl, .nil, by simp, by simpa [nextIsOr] using hor⟩
    | case4 => cases h
    | case5 => cases h
    | case6 => cases h
    | case7 => cases h
    | case8 => cases h
    | case9 group tok next rest hor hnext hdash hsys hwild t ht ih =>
      obtain ⟨taken, ms, rfl, htail, rfl, hleft⟩ := ih h
      obtain ⟨hnor, hnneg⟩ := not_or.1 hnext
      have hmember : Member u next (t, (stripExact next).2) :=
        ⟨⟨by simpa using hnor, hnneg, hdash⟩, by simpa using hsys, by simpa using hwild,
          mapError_eq_ok.1 ht, rfl⟩
      exact ⟨tok :: next :: taken, _, rfl, .cons hor hmember htail, by simp, hleft⟩
    | case10 group tok next rest hor =>
      cases h
      exact ⟨[], [], rfl, .nil, by simp, by simpa [nextIsOr] using hor⟩
  · rintro ⟨taken, ms, rfl, htail, rfl, hleft⟩
    induction htail generalizing group with
    | nil => simpa using orGroup_of_not_or hleft
    | @cons o tok rest m ms ho hm _ ih =>
      have hnext : ¬ (isOr tok = true ∨ tok.head? = some '-') := by
        simp [hm.not_or, hm.not_negated]
      have hparse : parseTag u (stripExact tok).1 = .ok m.1 := by
        rw [parseTag, hm.tag]
        rfl
      have hread : orGroup u group (o :: tok :: (rest ++ left)) =
          orGroup u (group ++ [(m.1, (stripExact tok).2)]) (rest ++ left) := by
        rw [orGroup, if_pos ho, if_neg hnext, if_neg hm.not_inside,
          if_neg (by simp [hm.not_system]), if_neg (by simp [hm.not_wild])]
        simp only [hparse]
      rw [List.cons_append, List.cons_append, hread, hm.mode, ih]
      simp

theorem stripPrefix_dash_eq {body : List Char} :
    stripPrefix ['-'] tok = some body ↔ tok = '-' :: body := by
  cases tok with
  | nil => simp [stripPrefix]
  | cons c tok =>
    by_cases hc : c = '-'
    · simp [stripPrefix, hc]
    · simp [stripPrefix, hc, Ne.symm hc]

theorem isOr_dash (body : List Char) : isOr ('-' :: body) = false := by
  simp [isOr, eqIgnoreAsciiCase]

theorem parseTag_iff {body : List Char} {t : Tag} :
    parseTag u body = .ok t ↔ Tag.parse u (String.ofList body) = .ok t := mapError_eq_ok

theorem parsePattern_iff {body : List Char} {p : TagPattern} :
    parsePattern u body = .ok p ↔ TagPattern.parse u (String.ofList body) = .ok p :=
  mapError_eq_ok

theorem parseNegated_iff {body : List Char} {p : Predicate} :
    parseNegated u (stripExact body).1 (stripExact body).2 = .ok p ↔ Negated u body p := by
  constructor
  · intro h
    unfold parseNegated at h
    split at h
    · rename_i sys hsys
      obtain ⟨hmode, h⟩ := of_ite_error h
      obtain ⟨q, hq, rfl⟩ := map_eq_ok_iff.1 h
      have hexpanded : (stripExact body).2 = .expanded := by
        cases hm : (stripExact body).2 with
        | exact => exact absurd hm hmode
        | expanded => rfl
      exact .system hsys hexpanded hq
    · rename_i hsys
      split at h
      · rename_i hwild
        obtain ⟨q, hq, rfl⟩ := map_eq_ok_iff.1 h
        exact .wild hsys hwild (parsePattern_iff.1 hq)
      · rename_i hwild
        obtain ⟨t, ht, rfl⟩ := map_eq_ok_iff.1 h
        exact .tag hsys (by simpa using hwild) (parseTag_iff.1 ht)
  · intro h
    cases h with
    | tag hsys hwild ht => simp [parseNegated, hsys, hwild, parseTag_iff.2 ht, Except.map]
    | wild hsys hwild hp => simp [parseNegated, hsys, hwild, parsePattern_iff.2 hp, Except.map]
    | system hsys hmode hp => simp [parseNegated, hsys, hmode, hp, Except.map]

theorem term_of_parseStep {p : Predicate} (h : parseStep u tok rest = .ok (p, left)) :
    ∃ taken, rest = taken ++ left ∧ Term u (tok :: taken) p ∧ nextIsOr left = false := by
  unfold parseStep at h
  obtain ⟨hor, h⟩ := of_ite_error h
  split at h
  · rename_i body hbody
    obtain ⟨hnext, h⟩ := of_ite_error h
    obtain ⟨q, hq, heq⟩ := map_eq_ok_iff.1 h
    cases heq
    rw [stripPrefix_dash_eq.1 hbody]
    exact ⟨[], rfl, .negated (parseNegated_iff.1 hq), by simpa using hnext⟩
  rename_i hneg
  obtain ⟨hinside, h⟩ := of_ite_error h
  have hpos : Positive tok := ⟨by simpa using hor, stripPrefix_dash.1 hneg, hinside⟩
  split at h
  · rename_i sys hsys
    obtain ⟨hnext, h⟩ := of_ite_error h
    obtain ⟨hmode, h⟩ := of_ite_error h
    obtain ⟨q, hq, heq⟩ := map_eq_ok_iff.1 h
    cases heq
    have hexpanded : (stripExact tok).2 = .expanded := by
      cases hm : (stripExact tok).2 with
      | exact => exact absurd hm hmode
      | expanded => rfl
    exact ⟨[], rfl, .alone hpos (.system hsys hexpanded hq), by simpa using hnext⟩
  rename_i hsys
  split at h
  · rename_i hwild
    obtain ⟨hnext, h⟩ := of_ite_error h
    obtain ⟨q, hq, heq⟩ := map_eq_ok_iff.1 h
    cases heq
    exact ⟨[], rfl, .alone hpos (.wild hsys hwild (parsePattern_iff.1 hq)), by simpa using hnext⟩
  rename_i hwild
  split at h
  · cases h
  rename_i t ht
  obtain ⟨g, hg, heq⟩ := map_eq_ok_iff.1 h
  have hmember : Member u tok (t, (stripExact tok).2) :=
    ⟨hpos, hsys, by simpa using hwild, parseTag_iff.1 ht, rfl⟩
  obtain ⟨taken, ms, htaken, htail, hms, hnext⟩ := orGroup_iff.1 hg
  obtain ⟨rfl, rfl⟩ := Prod.mk.inj heq
  refine ⟨taken, htaken, ?_, hnext⟩
  rw [hms]
  cases htail with
  | nil => exact .tag hmember
  | cons ho hm hs => exact .or hmember (.cons ho hm hs) (by simp)

theorem parseStep_of_term {p : Predicate} {taken : List (List Char)}
    (hterm : Term u (tok :: taken) p) (hnext : nextIsOr left = false) :
    parseStep u tok (taken ++ left) = .ok (p, left) := by
  cases hterm with
  | @negated body _ hq =>
    simp [parseStep, isOr_dash, stripPrefix_dash_eq.2, hnext, parseNegated_iff.2 hq, Except.map]
  | alone hpos hq =>
    cases hq with
    | wild hsys hwild hp =>
      simp [parseStep, hpos.not_or, stripPrefix_dash.2 hpos.not_negated, hpos.not_inside, hsys,
        hwild, hnext, parsePattern_iff.2 hp, Except.map]
    | system hsys hmode hp =>
      simp [parseStep, hpos.not_or, stripPrefix_dash.2 hpos.not_negated, hpos.not_inside, hsys,
        hmode, hnext, hp, Except.map]
  | tag hm =>
    simp [parseStep, hm.not_or, stripPrefix_dash.2 hm.not_negated, hm.not_inside, hm.not_system,
      hm.not_wild, parseTag_iff.2 hm.tag, hm.mode, orGroup_of_not_or hnext, Except.map, ofGroup]
  | @or _ _ m ms hm hs hne =>
    obtain ⟨t, mode⟩ := m
    have hmode : (stripExact tok).2 = mode := hm.mode
    have hgroup : orGroup u [(t, mode)] (taken ++ left) = .ok ([(t, mode)] ++ ms, left) :=
      orGroup_iff.2 ⟨taken, ms, rfl, hs, rfl, hnext⟩
    have hor : ofGroup ((t, mode) :: ms) = .or ((t, mode) :: ms) := by
      cases ms with
      | nil => exact absurd rfl hne
      | cons m ms => rfl
    simp [parseStep, hm.not_or, stripPrefix_dash.2 hm.not_negated, hm.not_inside, hm.not_system,
      hm.not_wild, parseTag_iff.2 hm.tag, hmode, hgroup, Except.map, hor]

/-- A step of the parser reads one term, up to the first token that is no `or`. -/
theorem parseStep_iff {p : Predicate} : parseStep u tok rest = .ok (p, left) ↔
    ∃ taken, rest = taken ++ left ∧ Term u (tok :: taken) p ∧ nextIsOr left = false := by
  constructor
  · exact term_of_parseStep
  · rintro ⟨taken, rfl, hterm, hnext⟩
    exact parseStep_of_term hterm hnext

theorem Term.head {part : List (List Char)} {p : Predicate} (h : Term u part p) :
    ∃ tok taken, part = tok :: taken ∧ isOr tok = false := by
  cases h with
  | @negated body _ _ => exact ⟨_, _, rfl, isOr_dash body⟩
  | alone hpos _ => exact ⟨_, _, rfl, hpos.not_or⟩
  | tag hm => exact ⟨_, _, rfl, hm.not_or⟩
  | or hm _ _ => exact ⟨_, _, rfl, hm.not_or⟩

theorem nextIsOr_flatten {parts : List (List (List Char))} {ps : List Predicate}
    (h : List.Forall₂ (Term u) parts ps) : nextIsOr parts.flatten = false := by
  cases h with
  | nil => rfl
  | cons hterm _ =>
    obtain ⟨tok, taken, rfl, htok⟩ := hterm.head
    simpa [nextIsOr] using htok

/-- The parser accepts the tokens of terms in a row, and reads each term. -/
theorem parses_iff {tokens : List (List Char)} {ps : List Predicate} : Parses u tokens ps ↔
    ∃ parts : List (List (List Char)), parts.flatten = tokens ∧ List.Forall₂ (Term u) parts ps := by
  constructor
  · intro h
    induction h with
    | nil => exact ⟨[], rfl, .nil⟩
    | @cons tok rest left p ps hstep _ ih =>
      obtain ⟨taken, hrest, hterm, _⟩ := parseStep_iff.1 hstep
      obtain ⟨parts, hparts, hterms⟩ := ih
      exact ⟨(tok :: taken) :: parts, by simp [hrest, hparts], .cons hterm hterms⟩
  · rintro ⟨parts, rfl, hterms⟩
    induction hterms with
    | nil => exact .nil
    | @cons part p parts ps hterm hterms ih =>
      obtain ⟨tok, taken, rfl, _⟩ := hterm.head
      exact .cons (parseStep_iff.2 ⟨taken, rfl, hterm, nextIsOr_flatten hterms⟩) ih

/-! ## Where an `or` stands -/

/-- What stands around an `or`: members right before it and right after it. -/
def Between (u : Unicode) (before after : List (List Char)) : Prop :=
  ∃ init x m y m' rest, before = init ++ [x] ∧ after = y :: rest ∧ Member u x m ∧ Member u y m'

theorem Between.wrap {before after : List (List Char)} (h : Between u before after)
    (front back : List (List Char)) : Between u (front ++ before) (after ++ back) := by
  obtain ⟨init, x, m, y, m', rest, rfl, rfl, hx, hy⟩ := h
  exact ⟨front ++ init, x, m, y, m', rest ++ back, by simp, by simp, hx, hy⟩

theorem Member.before_or {m : Tag × MatchMode} {o : List Char} {before after : List (List Char)}
    (hm : Member u tok m) (h : tok :: rest = before ++ o :: after) (ho : isOr o = true) :
    ∃ before', before = tok :: before' ∧ rest = before' ++ o :: after := by
  cases before with
  | nil =>
    have htok : tok = o := (List.cons.inj h).1
    rw [← htok, hm.not_or] at ho
    cases ho
  | cons b before =>
    obtain ⟨rfl, hrest⟩ := List.cons.inj h
    exact ⟨before, rfl, hrest⟩

theorem between_of_tail {m : Tag × MatchMode} {ms : List (Tag × MatchMode)} {o : List Char}
    {before after : List (List Char)} (hm : Member u tok m) (hs : GroupTail u rest ms)
    (h : tok :: rest = before ++ o :: after) (ho : isOr o = true) : Between u before after := by
  induction hs generalizing tok m before with
  | nil =>
    obtain ⟨before', _, hrest⟩ := hm.before_or h ho
    simp at hrest
  | @cons o' tok' rest m' ms _ hm' _ ih =>
    obtain ⟨before', rfl, hrest⟩ := hm.before_or h ho
    cases before' with
    | nil =>
      have hafter : after = tok' :: rest := (List.cons.inj hrest).2.symm
      exact ⟨[], tok, m, tok', m', rest, rfl, hafter, hm, hm'⟩
    | cons b before =>
      obtain ⟨rfl, htail⟩ := List.cons.inj hrest
      simpa using (ih hm' htail).wrap [tok, o'] []

theorem Term.between {part : List (List Char)} {p : Predicate} {o : List Char}
    {before after : List (List Char)} (hterm : Term u part p) (h : part = before ++ o :: after)
    (ho : isOr o = true) : Between u before after := by
  have hsingle : ∀ tok : List Char, [tok] = before ++ o :: after → isOr tok = true := by
    intro tok hs
    cases before with
    | nil => exact (List.cons.inj hs).1 ▸ ho
    | cons b before => simp at hs
  cases hterm with
  | @negated body _ _ =>
    have hor := hsingle _ h
    rw [isOr_dash] at hor
    cases hor
  | alone hpos _ =>
    have hor := hsingle _ h
    rw [hpos.not_or] at hor
    cases hor
  | tag hm =>
    have hor := hsingle _ h
    rw [hm.not_or] at hor
    cases hor
  | or hm hs _ => exact between_of_tail hm hs h ho

theorem terms_between {parts : List (List (List Char))} {ps : List Predicate} {o : List Char}
    {before after : List (List Char)} (hterms : List.Forall₂ (Term u) parts ps)
    (h : parts.flatten = before ++ o :: after) (ho : isOr o = true) : Between u before after := by
  induction hterms generalizing before with
  | nil => simp at h
  | @cons part p parts ps hterm _ ih =>
    rw [List.flatten_cons] at h
    obtain ⟨front, rfl, hrest⟩ | ⟨back, hpart, hback⟩ := List.append_eq_append_iff.1 h
    · simpa using (ih hrest).wrap part []
    · cases back with
      | nil =>
        have hrest : parts.flatten = [] ++ o :: after := by simpa using hback.symm
        have hpart : part = before := by simpa using hpart
        simpa [hpart] using (ih hrest).wrap part []
      | cons o' back =>
        obtain ⟨rfl, rfl⟩ := List.cons.inj hback
        simpa using (hterm.between hpart ho).wrap [] parts.flatten

theorem GroupTail.spelled {ms : List (Tag × MatchMode)} (h : GroupTail u rest ms) :
    ∀ m ∈ ms, ∃ tok ∈ rest, Member u tok m := by
  induction h with
  | nil => simp
  | @cons o tok rest m ms _ hm _ ih =>
    intro m' hm'
    rcases List.mem_cons.1 hm' with rfl | hm'
    · exact ⟨tok, by simp, hm⟩
    · obtain ⟨tok', htok', hmember⟩ := ih m' hm'
      exact ⟨tok', by simp [htok'], hmember⟩

/-- A group has two members at least, and a token spells each. -/
theorem group_of_terms {parts : List (List (List Char))} {ps : List Predicate}
    {group : List (Tag × MatchMode)} (h : List.Forall₂ (Term u) parts ps)
    (hgroup : Predicate.or group ∈ ps) :
    2 ≤ group.length ∧ ∀ m ∈ group, ∃ tok ∈ parts.flatten, Member u tok m := by
  induction h with
  | nil => simp at hgroup
  | @cons part p parts ps hterm _ ih =>
    rcases List.mem_cons.1 hgroup with rfl | hgroup
    · cases hterm with
      | negated hneg => cases hneg
      | alone _ halone => cases halone
      | @or tok rest m ms hm hs hne =>
        have hpos := List.length_pos_iff.2 hne
        refine ⟨by simp only [List.length_cons]; omega, ?_⟩
        intro m' hm'
        rcases List.mem_cons.1 hm' with rfl | hm'
        · exact ⟨tok, by simp, hm⟩
        · obtain ⟨tok', htok', hmember⟩ := hs.spelled m' hm'
          exact ⟨tok', by simp [htok'], hmember⟩
    · obtain ⟨hlength, hmembers⟩ := ih hgroup
      refine ⟨hlength, fun m hm => ?_⟩
      obtain ⟨tok, htok, hmember⟩ := hmembers m hm
      exact ⟨tok, by simp [htok], hmember⟩

end

/-! ## What a text is made of -/

/-- A text is whitespace outside quotes, other characters outside quotes and quoted runs. -/
inductive Piece
  | space (c : Char)
  | plain (c : Char)
  | quoted (run : List Char)

namespace Piece

def text : Piece → List Char
  | space c => [c]
  | plain c => [c]
  | quoted run => '"' :: run ++ ['"']

/-- What a piece gives to its token. -/
def content : Piece → List Char
  | space _ => []
  | plain c => [c]
  | quoted run => run

def isSpace : Piece → Bool
  | space _ => true
  | _ => false

def Formed (u : Unicode) : Piece → Prop
  | space c => c ≠ '"' ∧ u.isWhitespace c = true
  | plain c => c ≠ '"' ∧ u.isWhitespace c = false
  | quoted run => '"' ∉ run

end Piece

/-- The words between whitespace, without the empty ones. -/
def wordsOf (pieces : List Piece) : List (List Char) :=
  ((pieces.splitOnP Piece.isSpace).map (·.flatMap Piece.content)).filter (· ≠ [])

/-- The words where the first one goes on a word that was begun. -/
def wordsFrom (cur : List Char) (pieces : List Piece) : List (List Char) :=
  (((pieces.splitOnP Piece.isSpace).map (·.flatMap Piece.content)).modifyHead (cur ++ ·)).filter
    (· ≠ [])

section

variable {u : Unicode} {pieces : List Piece}

theorem wordsFrom_nil (cur : List Char) : wordsFrom cur [] = if cur = [] then [] else [cur] := by
  by_cases hcur : cur = []
  · simp [wordsFrom, hcur]
  · simp [wordsFrom, hcur]

theorem wordsFrom_empty (pieces : List Piece) : wordsFrom [] pieces = wordsOf pieces := by
  rw [wordsFrom, wordsOf, show (([] : List Char) ++ ·) = id from rfl, List.modifyHead_id, id]

theorem wordsFrom_space (cur : List Char) (c : Char) (pieces : List Piece) :
    wordsFrom cur (.space c :: pieces) = wordsFrom cur [] ++ wordsFrom [] pieces := by
  rw [wordsFrom_nil, wordsFrom_empty, wordsFrom, List.splitOnP_cons_eq_if_modifyHead,
    if_pos (by rfl)]
  by_cases hcur : cur = []
  · simp [wordsOf, hcur]
  · simp [wordsOf, hcur]

theorem wordsFrom_word (cur : List Char) {p : Piece} (hp : p.isSpace = false)
    (pieces : List Piece) : wordsFrom cur (p :: pieces) = wordsFrom (cur ++ p.content) pieces := by
  rw [wordsFrom, wordsFrom, List.splitOnP_cons_eq_if_modifyHead, if_neg (by simp [hp])]
  cases hs : pieces.splitOnP Piece.isSpace with
  | nil => exact absurd hs (List.splitOnP_ne_nil _ _)
  | cons word words => simp

theorem scan_word_piece {s : Scan} {p : Piece} (hp : p.Formed u) (hword : p.isSpace = false)
    (hs : s.inQuote = false) : s.scan u p.text = { s with cur := s.cur ++ p.content } := by
  cases p with
  | space c => cases hword
  | plain c => simp [Scan.scan, Scan.next, Piece.text, Piece.content, hp.1, hp.2]
  | quoted run => exact Scan.scan_phrase hp hs

/-- The tokenizer goes through the pieces of a text. -/
theorem finish_scan {s : Scan} (hp : ∀ p ∈ pieces, p.Formed u) (hs : s.inQuote = false) :
    (s.scan u (pieces.flatMap Piece.text)).finish = s.tokens ++ wordsFrom s.cur pieces := by
  induction pieces generalizing s with
  | nil =>
    rw [wordsFrom_nil]
    change s.finish = _
    unfold Scan.finish
    split <;> simp
  | cons p pieces ih =>
    obtain ⟨hfirst, hrest⟩ := List.forall_mem_cons.1 hp
    rw [List.flatMap_cons, Scan.scan_append]
    cases hword : p.isSpace with
    | false =>
      have hnext := ih (s := { s with cur := s.cur ++ p.content }) hrest hs
      rw [scan_word_piece hfirst hword hs, hnext, wordsFrom_word _ hword]
    | true =>
      cases p with
      | plain _ => cases hword
      | quoted _ => cases hword
      | space c =>
        have hstep : s.scan u (Piece.space c).text = ⟨s.finish, [], false⟩ :=
          Scan.next_space hfirst.1 hfirst.2 hs
        have hfinish : s.finish = s.tokens ++ wordsFrom s.cur [] := by
          rw [wordsFrom_nil]
          unfold Scan.finish
          split <;> simp
        rw [hstep, ih hrest rfl, wordsFrom_space, hfinish, List.append_assoc]

/-- The tokens of a text are the words of its pieces. -/
theorem tokenize_pieces (hp : ∀ p ∈ pieces, p.Formed u) :
    tokenize u (pieces.flatMap Piece.text) = wordsOf pieces := by
  have h := finish_scan (s := Scan.start) hp rfl
  rwa [show Scan.start.tokens = [] from rfl, show Scan.start.cur = [] from rfl, wordsFrom_empty,
    List.nil_append] at h

/-- A quote that is missing at the end changes nothing. -/
theorem tokenize_closed (u : Unicode) (text : List Char) :
    tokenize u (text ++ ['"']) = tokenize u text := by
  rw [tokenize, Scan.scan_append]
  rfl

/-- Every text falls into pieces, from outside quotes and from inside. -/
theorem exists_pieces (u : Unicode) (text : List Char) :
    (∃ pieces : List Piece, (∀ p ∈ pieces, p.Formed u) ∧
      (pieces.flatMap Piece.text = text ∨ pieces.flatMap Piece.text = text ++ ['"'])) ∧
    ∃ (run : List Char) (pieces : List Piece), '"' ∉ run ∧ (∀ p ∈ pieces, p.Formed u) ∧
      (run ++ '"' :: pieces.flatMap Piece.text = text ∨
        run ++ '"' :: pieces.flatMap Piece.text = text ++ ['"']) := by
  induction text with
  | nil => exact ⟨⟨[], by simp, .inl rfl⟩, [], [], by simp, by simp, .inr rfl⟩
  | cons c text ih =>
    obtain ⟨⟨pieces, hp, htext⟩, run, pieces', hrun, hp', htext'⟩ := ih
    by_cases hc : c = '"'
    · subst hc
      refine ⟨⟨.quoted run :: pieces', ?_, ?_⟩, [], pieces, by simp, hp, by simpa using htext⟩
      · exact List.forall_mem_cons.2 ⟨hrun, hp'⟩
      · simpa [Piece.text] using htext'
    · constructor
      · cases hspace : u.isWhitespace c with
        | true =>
          refine ⟨.space c :: pieces, List.forall_mem_cons.2 ⟨⟨hc, hspace⟩, hp⟩, ?_⟩
          simpa [Piece.text] using htext
        | false =>
          refine ⟨.plain c :: pieces, List.forall_mem_cons.2 ⟨⟨hc, hspace⟩, hp⟩, ?_⟩
          simpa [Piece.text] using htext
      · exact ⟨c :: run, pieces', by simp [hrun, Ne.symm hc], hp', by simpa using htext'⟩

theorem tokenize_spec (u : Unicode) (text : List Char) : ∃ pieces : List Piece,
    (∀ p ∈ pieces, p.Formed u) ∧
    (pieces.flatMap Piece.text = text ∨ pieces.flatMap Piece.text = text ++ ['"']) ∧
    tokenize u text = wordsOf pieces := by
  obtain ⟨⟨pieces, hp, htext⟩, _⟩ := exists_pieces u text
  refine ⟨pieces, hp, htext, ?_⟩
  rw [← tokenize_pieces hp]
  rcases htext with htext | htext
  · rw [htext]
  · rw [htext, tokenize_closed]

end

/-- **A query is the reading of its tokens.** Quotes group what they hold into one word. The parser
takes a list of tokens just when it is the tokens of terms in a row, each token in one term, and
its predicates are theirs in order; groups have two members or more; an `or` has a member on
either side. -/
theorem parseQuery_exact (u : Unicode) (text : List Char) (tokens : List (List Char)) :
    (∃ pieces : List Piece, (∀ p ∈ pieces, p.Formed u) ∧
      (pieces.flatMap Piece.text = text ∨ pieces.flatMap Piece.text = text ++ ['"']) ∧
      tokenize u text = wordsOf pieces) ∧
    (∀ q, parseQuery u tokens = .ok q ↔ tokens ≠ [] ∧ ∃ parts : List (List (List Char)),
      parts.flatten = tokens ∧ List.Forall₂ (Term u) parts q.predicates) ∧
    ∀ q, parseQuery u tokens = .ok q →
      (∀ group, Predicate.or group ∈ q.predicates →
        2 ≤ group.length ∧ ∀ m ∈ group, ∃ tok ∈ tokens, Member u tok m) ∧
      ∀ before o after, tokens = before ++ o :: after → isOr o = true → Between u before after := by
  have hparse : ∀ q, parseQuery u tokens = .ok q ↔ tokens ≠ [] ∧
      ∃ parts : List (List (List Char)), parts.flatten = tokens ∧
        List.Forall₂ (Term u) parts q.predicates := by
    intro q
    unfold parseQuery
    constructor
    · intro h
      obtain ⟨hne, h⟩ := of_ite_error h
      obtain ⟨ps, hps, rfl⟩ := map_eq_ok_iff.1 h
      exact ⟨hne, parses_iff.1 (parses_of_parseLoop hps)⟩
    · rintro ⟨hne, hterms⟩
      rw [if_neg hne, (parses_iff.2 hterms).parseLoop_eq]
      rfl
  refine ⟨tokenize_spec u text, hparse, fun q hq => ?_⟩
  obtain ⟨_, parts, rfl, hterms⟩ := (hparse q).1 hq
  exact ⟨fun group hgroup => group_of_terms hterms hgroup,
    fun _ _ _ h ho => terms_between hterms h ho⟩

end Core
end Naiad
