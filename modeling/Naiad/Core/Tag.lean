import Naiad.Lib.Text

/-!
# Naiad.Core.Tag

A namespaced tag, its canonical text and its parser. An empty namespace means the tag is
unnamespaced. The character tables of the standard library are a parameter.

* `newline_not_mem_display`: the canonical text of a parsed tag is a single line.
* `display_round_trips`: **the canonical text of a parsed tag parses to that tag**.
-/

namespace Naiad

open Lib

/-- `char::is_whitespace` and `str::to_lowercase`. -/
structure Unicode where
  isWhitespace : Char → Bool
  toLowercase : String → String

namespace Unicode

variable (u : Unicode)

def trim (s : List Char) : List Char :=
  ((s.dropWhile u.isWhitespace).reverse.dropWhile u.isWhitespace).reverse

theorem mem_of_mem_trim {u : Unicode} {s : List Char} {c : Char} (h : c ∈ u.trim s) : c ∈ s := by
  unfold trim at h
  rw [List.mem_reverse] at h
  have hback := (List.dropWhile_sublist _).subset h
  rw [List.mem_reverse] at hback
  exact (List.dropWhile_sublist _).subset hback

def splitWhitespace (s : List Char) : List (List Char) :=
  (s.splitOnP u.isWhitespace).filter (· ≠ [])

/-- Trim, collapse internal whitespace to single spaces, and lowercase. -/
def normalize (part : List Char) : String :=
  u.toLowercase (String.ofList ([' '].intercalate (u.splitWhitespace part)))

/-- A line feed is whitespace, and lowercasing makes none. -/
structure LineSafe : Prop where
  newline_isWhitespace : u.isWhitespace '\n' = true
  newline_not_mem_toLowercase : ∀ s : String, '\n' ∉ s.toList → '\n' ∉ (u.toLowercase s).toList

variable {u}

theorem LineSafe.newline_not_mem_normalize (h : u.LineSafe) (part : List Char) :
    '\n' ∉ (u.normalize part).toList := by
  refine h.newline_not_mem_toLowercase _ ?_
  rw [String.toList_ofList]
  intro hmem
  rcases mem_intercalate hmem with heq | ⟨piece, hpiece, hmem⟩
  · exact absurd heq (by decide)
  · have hsplit := (List.mem_filter.1 hpiece).1
    have hnot := not_sep_of_mem_splitOnP hsplit '\n' hmem
    rw [h.newline_isWhitespace] at hnot
    cases hnot

/-- What lowercasing does, with the lowercase of a character in its context: it works character by
character, a lowercase text is its own lowercase, it makes no whitespace and no colon, and keeps
colons. -/
structure Lowercases (lower : List Char → Char → List Char → List Char) : Prop where
  space_isWhitespace : u.isWhitespace ' ' = true
  colon_isWhitespace : u.isWhitespace ':' = false
  toLowercase_eq : ∀ s : String, (u.toLowercase s).toList = mapContext lower [] s.toList
  ne_nil : ∀ b c a, lower b c a ≠ []
  idempotent : ∀ b c a, ∀ d ∈ lower b c a, ∀ b' a', lower b' d a' = [d]
  no_whitespace : ∀ b c a, ∀ d ∈ lower b c a, u.isWhitespace d = true → d = c
  no_colon : ∀ b c a, ':' ∈ lower b c a → c = ':'
  colon : ∀ b a, lower b ':' a = [':']

/-- A text that normalization leaves as it is. -/
structure Normal (lower : List Char → Char → List Char → List Char) (s : List Char) : Prop where
  spaced : Spaced u.isWhitespace ' ' s
  fixed : ∀ d ∈ s, ∀ b a, lower b d a = [d]

section

variable {lower : List Char → Char → List Char → List Char}

theorem spaced_mapContext (h : u.Lowercases lower) {s : List Char}
    (hs : Spaced u.isWhitespace ' ' s) (before : List Char) :
    Spaced u.isWhitespace ' ' (mapContext lower before s) := by
  have hword : ∀ b c a, u.isWhitespace c = false →
      ∀ d ∈ lower b c a, u.isWhitespace d = false := by
    intro b c a hc d hd
    cases hw : u.isWhitespace d with
    | false => rfl
    | true =>
      rw [← h.no_whitespace b c a d hd hw, hw] at hc
      cases hc
  induction hs generalizing before with
  | single hc =>
    rw [mapContext, mapContext, List.append_nil]
    exact .word (h.ne_nil _ _ _) (hword _ _ _ hc)
  | cons hc _ ih =>
    rw [mapContext]
    exact .word_append (hword _ _ _ hc) (ih _)
  | @sep c rest hc _ ih =>
    rw [mapContext, mapContext]
    -- A space stays a space, or leaves no whitespace behind.
    by_cases hkeep : ' ' ∈ lower (before ++ [c]) ' ' rest
    · rw [h.idempotent _ _ _ _ hkeep]
      exact .word_sep (h.ne_nil _ _ _) (hword _ _ _ hc) (ih _)
    · refine .word_append (hword _ _ _ hc) (.word_append ?_ (ih _))
      intro d hd
      cases hw : u.isWhitespace d with
      | false => rfl
      | true =>
        rw [h.no_whitespace _ _ _ d hd hw] at hd
        exact absurd hd hkeep

theorem mem_splitWhitespace {part w : List Char} (hw : w ∈ u.splitWhitespace part) :
    w ≠ [] ∧ ∀ c ∈ w, u.isWhitespace c = false := by
  obtain ⟨hsplit, hne⟩ := List.mem_filter.1 hw
  exact ⟨by simpa using hne, not_sep_of_mem_splitOnP hsplit⟩

/-- Normalization makes normal texts. -/
theorem normal_normalize (h : u.Lowercases lower) {part : List Char}
    (hne : u.normalize part ≠ "") : u.Normal lower (u.normalize part).toList := by
  have hlower := h.toLowercase_eq (String.ofList ([' '].intercalate (u.splitWhitespace part)))
  rw [String.toList_ofList] at hlower
  have hwords : u.splitWhitespace part ≠ [] := by
    intro hnil
    rw [normalize, hnil] at hne
    rw [hnil] at hlower
    exact hne (String.toList_eq_nil_iff.1 hlower)
  have hspaced : Spaced u.isWhitespace ' ' ([' '].intercalate (u.splitWhitespace part)) :=
    .intercalate hwords fun w hw => mem_splitWhitespace hw
  rw [normalize, hlower]
  refine ⟨spaced_mapContext h hspaced [], ?_⟩
  intro d hd b' a'
  obtain ⟨c, _, b, a, hd⟩ := mem_mapContext hd
  exact h.idempotent b c a d hd b' a'

theorem Normal.normalize_eq (h : u.Lowercases lower) {s : List Char} (hs : u.Normal lower s) :
    u.normalize s = String.ofList s := by
  obtain ⟨hne, hjoin⟩ := hs.spaced.splitOnP h.space_isWhitespace
  have hwords : u.splitWhitespace s = s.splitOnP u.isWhitespace := by
    rw [splitWhitespace, List.filter_eq_self]
    intro w hw
    simpa using hne w hw
  apply String.toList_inj.1
  rw [normalize, hwords, hjoin, h.toLowercase_eq, String.toList_ofList,
    mapContext_fixed hs.fixed]

theorem Normal.trim_eq {s : List Char} (hs : u.Normal lower s) : u.trim s = s := by
  obtain ⟨c, rest, hhead, hc⟩ := hs.spaced.head
  obtain ⟨init, d, hlast, hd⟩ := hs.spaced.last
  have hfront : s.dropWhile u.isWhitespace = s := by
    rw [hhead, List.dropWhile_cons, hc]
    rfl
  have hback : s.reverse.dropWhile u.isWhitespace = s.reverse := by
    rw [hlast, List.reverse_append, List.reverse_singleton, List.singleton_append,
      List.dropWhile_cons, hd]
    rfl
  rw [trim, hfront, hback, List.reverse_reverse]

/-- Normal texts on both sides of a colon. -/
theorem Normal.glue (h : u.Lowercases lower) {s t : List Char} (hs : u.Normal lower s)
    (ht : u.Normal lower t) : u.Normal lower (s ++ ':' :: t) := by
  refine ⟨hs.spaced.glue h.colon_isWhitespace ht.spaced, ?_⟩
  intro d hd b a
  rcases List.mem_append.1 hd with hd | hd
  · exact hs.fixed d hd b a
  · rcases List.mem_cons.1 hd with rfl | hd
    · exact h.colon b a
    · exact ht.fixed d hd b a

theorem Normal.colon_cons (h : u.Lowercases lower) {t : List Char} (ht : u.Normal lower t) :
    u.Normal lower (':' :: t) := by
  refine ⟨.cons h.colon_isWhitespace ht.spaced, ?_⟩
  intro d hd b a
  rcases List.mem_cons.1 hd with rfl | hd
  · exact h.colon b a
  · exact ht.fixed d hd b a

/-- Normalization makes none of a character that lowercasing does not make. -/
theorem not_mem_normalize (h : u.Lowercases lower) {d : Char} (hd : d ≠ ' ')
    (hlower : ∀ b c a, d ∈ lower b c a → c = d) {part : List Char} (hpart : d ∉ part) :
    d ∉ (u.normalize part).toList := by
  rw [normalize, h.toLowercase_eq, String.toList_ofList]
  intro hmem
  obtain ⟨c, hc, b, a, hc'⟩ := mem_mapContext hmem
  rw [hlower b c a hc'] at hc
  rcases mem_intercalate hc with heq | ⟨w, hw, hc⟩
  · exact hd heq
  · obtain ⟨hsplit, _⟩ := List.mem_filter.1 hw
    exact hpart (mem_of_mem_splitOnP hsplit hc)

theorem colon_not_mem_normalize (h : u.Lowercases lower) {part : List Char} (hpart : ':' ∉ part) :
    ':' ∉ (u.normalize part).toList :=
  not_mem_normalize h (by decide) h.no_colon hpart

/-- A character that is no whitespace, and that lowercasing keeps and makes of no other. -/
structure Keeps (u : Unicode) (lower : List Char → Char → List Char → List Char) (d : Char) :
    Prop where
  not_whitespace : u.isWhitespace d = false
  lower_eq : ∀ b a, lower b d a = [d]
  of_mem : ∀ b c a, d ∈ lower b c a → c = d

/-- Normalization keeps such a character. -/
theorem Keeps.mem_normalize (h : u.Lowercases lower) {d : Char} (hd : u.Keeps lower d)
    {part : List Char} (hpart : d ∈ part) : d ∈ (u.normalize part).toList := by
  obtain ⟨w, hw, hmem⟩ := exists_mem_splitOnP hpart hd.not_whitespace
  have hword : w ∈ u.splitWhitespace part :=
    List.mem_filter.2 ⟨hw, by simpa using List.ne_nil_of_mem hmem⟩
  rw [normalize, h.toLowercase_eq, String.toList_ofList]
  refine mem_mapContext_of_mem (mem_intercalate_of_mem hword hmem) ?_ []
  intro b a
  simp [hd.lower_eq]

end

/-- The tables on plain lowercase text. -/
def plainText : Unicode := ⟨Char.isWhitespace, id⟩

theorem plainText_lineSafe : plainText.LineSafe := ⟨by decide, fun _ h => h⟩

/-- The tables on ASCII text. -/
def asciiText : Unicode := ⟨Char.isWhitespace, fun s => String.ofList (s.toList.map Char.toLower)⟩

theorem toLower_eq_self {c : Char} (h : 90 < c.toNat) : c.toLower = c := by
  unfold Char.toLower
  rw [dif_neg]
  intro hupper
  have hle : c.toNat ≤ 90 := UInt32.le_iff_toNat_le.1 hupper.2
  omega

/-- A capital letter becomes a small one; every other character stays. -/
theorem toLower_cases (c : Char) :
    c.toLower = c ∨ 97 ≤ c.toLower.toNat ∧ c.toLower.toNat ≤ 122 := by
  by_cases h : 65 ≤ c.toNat ∧ c.toNat ≤ 90
  · right
    obtain ⟨n, hn⟩ : ∃ n : Fin 26, c = Char.ofNat (65 + n.val) := by
      refine ⟨⟨c.toNat - 65, by omega⟩, ?_⟩
      have hsum : 65 + (c.toNat - 65) = c.toNat := by omega
      simp [hsum]
    have hall : ∀ n : Fin 26, 97 ≤ (Char.ofNat (65 + n.val)).toLower.toNat ∧
        (Char.ofNat (65 + n.val)).toLower.toNat ≤ 122 := by decide
    rw [hn]
    exact hall n
  · left
    unfold Char.toLower
    rw [dif_neg]
    intro hupper
    exact h ⟨UInt32.le_iff_toNat_le.1 hupper.1, UInt32.le_iff_toNat_le.1 hupper.2⟩

theorem asciiText_lowercases : asciiText.Lowercases fun _ c _ => [c.toLower] where
  space_isWhitespace := by decide
  colon_isWhitespace := by decide
  toLowercase_eq s := by
    have hmap : ∀ (t before : List Char),
        mapContext (fun _ c _ => [c.toLower]) before t = t.map Char.toLower := by
      intro t
      induction t with
      | nil => exact fun _ => rfl
      | cons c t ih =>
        intro before
        rw [mapContext, ih]
        rfl
    rw [asciiText, String.toList_ofList, hmap]
  ne_nil _ _ _ := by simp
  idempotent _ c _ d hd _ _ := by
    rw [List.mem_singleton.1 hd]
    rcases toLower_cases c with heq | hrange
    · rw [heq, heq]
    · rw [toLower_eq_self (by omega)]
  no_whitespace _ c _ d hd hw := by
    rw [List.mem_singleton.1 hd] at hw ⊢
    rcases toLower_cases c with heq | hrange
    · exact heq
    · have hsmall : c.toLower.toNat ≤ 32 := by
        simp only [asciiText, Char.isWhitespace, Bool.or_eq_true, decide_eq_true_eq] at hw
        rcases hw with ((hw | hw) | hw) | hw <;> rw [hw] <;> decide
      omega
  no_colon _ c _ h := by
    have hcolon := List.mem_singleton.1 h
    rcases toLower_cases c with heq | hrange
    · rw [← heq, ← hcolon]
    · rw [← hcolon] at hrange
      exact absurd hrange.1 (by decide)
  colon _ _ := by decide

theorem asciiText_keeps_star : asciiText.Keeps (fun _ c _ => [c.toLower]) '*' where
  not_whitespace := by decide
  lower_eq _ _ := by decide
  of_mem _ c _ h := by
    have hstar := List.mem_singleton.1 h
    rcases toLower_cases c with heq | hrange
    · rw [← heq, ← hstar]
    · rw [← hstar] at hrange
      exact absurd hrange.1 (by decide)

end Unicode

/-- `split_once`: what stands before and after the first `c`. -/
def splitOnce (c : Char) : List Char → Option (List Char × List Char)
  | [] => none
  | d :: s => if d = c then some ([], s) else (splitOnce c s).map fun p => (d :: p.1, p.2)

theorem splitOnce_append {c : Char} {s t : List Char} (h : c ∉ s) :
    splitOnce c (s ++ c :: t) = some (s, t) := by
  induction s with
  | nil => simp [splitOnce]
  | cons d s ih =>
    have hd : d ≠ c := fun heq => h (by simp [heq])
    simp [splitOnce, hd, ih fun hmem => h (List.mem_cons_of_mem _ hmem)]

theorem splitOnce_eq_none {c : Char} {s : List Char} (h : c ∉ s) : splitOnce c s = none := by
  induction s with
  | nil => rfl
  | cons d s ih =>
    have hd : d ≠ c := fun heq => h (by simp [heq])
    simp [splitOnce, hd, ih fun hmem => h (List.mem_cons_of_mem _ hmem)]

theorem not_mem_of_splitOnce {c : Char} {s a b : List Char} (h : splitOnce c s = some (a, b)) :
    c ∉ a := by
  induction s generalizing a with
  | nil => cases h
  | cons d s ih =>
    rw [splitOnce] at h
    split at h
    · cases h
      simp
    · rename_i hd
      obtain ⟨⟨a', b'⟩, hrest, heq⟩ := Option.map_eq_some_iff.1 h
      cases heq
      simp [Ne.symm hd, ih hrest]

inductive ParseError
  | emptyTag (s : String)
  | badPattern (s : String)
deriving DecidableEq

structure Tag where
  ns : String
  subtag : String
deriving DecidableEq

namespace Tag

/-- `Display`: an unnamespaced subtag with a colon in it is printed behind a colon. -/
def display (t : Tag) : String :=
  if t.ns = "" then
    if ':' ∈ t.subtag.toList then ":" ++ t.subtag else t.subtag
  else t.ns ++ ":" ++ t.subtag

def split (u : Unicode) (t : List Char) : Tag :=
  match t with
  | ':' :: rest => ⟨"", if ':' ∈ rest then u.normalize rest else u.normalize t⟩
  | _ =>
    match splitOnce ':' t with
    | some (ns, sub) => ⟨u.normalize ns, u.normalize sub⟩
    | none => ⟨"", u.normalize t⟩

/-- Parse and normalize a tag string. -/
def parse (u : Unicode) (s : String) : Except ParseError Tag :=
  if (split u (u.trim s.toList)).subtag = "" then .error (.emptyTag s)
  else .ok (split u (u.trim s.toList))

section

variable {u : Unicode}

theorem split_eq_normalize (u : Unicode) (t : List Char) :
    ((split u t).ns = "" ∨ ∃ part, (split u t).ns = u.normalize part) ∧
      ∃ part, (split u t).subtag = u.normalize part := by
  unfold split
  split
  · split
    · exact ⟨.inl rfl, _, rfl⟩
    · exact ⟨.inl rfl, _, rfl⟩
  · split
    · exact ⟨.inr ⟨_, rfl⟩, _, rfl⟩
    · exact ⟨.inl rfl, _, rfl⟩

theorem parse_eq_ok {s : String} {tag : Tag} (h : parse u s = .ok tag) :
    (split u (u.trim s.toList)).subtag ≠ "" ∧ tag = split u (u.trim s.toList) := by
  unfold parse at h
  split at h
  · cases h
  · rename_i hne
    cases h
    exact ⟨hne, rfl⟩

theorem newline_not_mem_display (hu : u.LineSafe) {s : String} {tag : Tag}
    (h : parse u s = .ok tag) : '\n' ∉ tag.display.toList := by
  obtain ⟨_, rfl⟩ := parse_eq_ok h
  obtain ⟨hns, part, hsubtag⟩ := split_eq_normalize u (u.trim s.toList)
  have hsub : '\n' ∉ (split u (u.trim s.toList)).subtag.toList := by
    rw [hsubtag]
    exact hu.newline_not_mem_normalize part
  have hname : '\n' ∉ (split u (u.trim s.toList)).ns.toList := by
    rcases hns with hempty | ⟨part', hns⟩
    · simp [hempty]
    · rw [hns]
      exact hu.newline_not_mem_normalize part'
  unfold display
  split
  · split
    · simp [hsub]
    · exact hsub
  · simp [hname, hsub]

/-- What a parsed tag is made of: a normal subtag, and a namespace that is empty, or normal and
without a colon. -/
structure Canonical (u : Unicode) (lower : List Char → Char → List Char → List Char) (tag : Tag) :
    Prop where
  subtag : u.Normal lower tag.subtag.toList
  ns : tag.ns = "" ∨ u.Normal lower tag.ns.toList ∧ ':' ∉ tag.ns.toList

variable {lower : List Char → Char → List Char → List Char}

theorem split_of_not_colon {t : List Char} (h : ∀ rest, t ≠ ':' :: rest) :
    split u t =
      match splitOnce ':' t with
      | some (ns, sub) => ⟨u.normalize ns, u.normalize sub⟩
      | none => ⟨"", u.normalize t⟩ := by
  unfold split
  split
  · exact absurd rfl (h _)
  · rfl

theorem split_canonical (hu : u.Lowercases lower) {t : List Char}
    (hne : (split u t).subtag ≠ "") : (split u t).Canonical u lower := by
  by_cases hhead : ∃ rest, t = ':' :: rest
  · obtain ⟨rest, rfl⟩ := hhead
    by_cases hcolon : ':' ∈ rest
    · simp only [split, if_pos hcolon] at hne ⊢
      exact ⟨Unicode.normal_normalize hu hne, .inl rfl⟩
    · simp only [split, if_neg hcolon] at hne ⊢
      exact ⟨Unicode.normal_normalize hu hne, .inl rfl⟩
  · rw [split_of_not_colon fun rest heq => hhead ⟨rest, heq⟩] at hne ⊢
    cases hsplit : splitOnce ':' t with
    | none =>
      rw [hsplit] at hne
      exact ⟨Unicode.normal_normalize hu hne, .inl rfl⟩
    | some parts =>
      obtain ⟨part, sub⟩ := parts
      rw [hsplit] at hne
      refine ⟨Unicode.normal_normalize hu hne, ?_⟩
      by_cases hns : u.normalize part = ""
      · exact .inl hns
      · exact .inr ⟨Unicode.normal_normalize hu hns,
          Unicode.colon_not_mem_normalize hu (not_mem_of_splitOnce hsplit)⟩

theorem canonical_of_parse (hu : u.Lowercases lower) {s : String} {tag : Tag}
    (h : parse u s = .ok tag) : tag.Canonical u lower := by
  obtain ⟨hne, rfl⟩ := parse_eq_ok h
  exact split_canonical hu hne

theorem display_toList (tag : Tag) :
    tag.display.toList =
      if tag.ns = "" then
        if ':' ∈ tag.subtag.toList then ':' :: tag.subtag.toList else tag.subtag.toList
      else tag.ns.toList ++ ':' :: tag.subtag.toList := by
  unfold display
  split
  · split
    · rw [String.toList_append]
      rfl
    · rfl
  · rw [String.toList_append, String.toList_append, List.append_assoc]
    rfl

theorem Canonical.normal_display (hu : u.Lowercases lower) {tag : Tag}
    (h : tag.Canonical u lower) : u.Normal lower tag.display.toList := by
  rw [display_toList]
  split
  · split
    · exact h.subtag.colon_cons hu
    · exact h.subtag
  · rename_i hns
    exact (h.ns.resolve_left hns).1.glue hu h.subtag

theorem Canonical.split_display (hu : u.Lowercases lower) {tag : Tag}
    (h : tag.Canonical u lower) : split u tag.display.toList = tag := by
  have hsub := h.subtag.normalize_eq hu
  rw [String.ofList_toList] at hsub
  obtain ⟨ns, subtag⟩ := tag
  rw [display_toList]
  split
  · rename_i hns
    subst hns
    split
    · rename_i hcolon
      simp only [split, if_pos hcolon, hsub]
    · rename_i hcolon
      have hhead : ∀ rest, subtag.toList ≠ ':' :: rest := fun rest heq => hcolon (by simp [heq])
      rw [split_of_not_colon hhead, splitOnce_eq_none hcolon]
      simp only [hsub]
  · rename_i hns
    obtain ⟨hnormal, hcolon⟩ := h.ns.resolve_left hns
    have hnseq := hnormal.normalize_eq hu
    rw [String.ofList_toList] at hnseq
    have hhead : ∀ rest, ns.toList ++ ':' :: subtag.toList ≠ ':' :: rest := by
      intro rest heq
      obtain ⟨c, tail, hc, _⟩ := hnormal.spaced.head
      rw [hc] at heq hcolon
      rw [(List.cons.inj heq).1] at hcolon
      exact hcolon (by simp)
    rw [split_of_not_colon hhead, splitOnce_append hcolon]
    simp only [hsub, hnseq]

theorem Canonical.parse_display (hu : u.Lowercases lower) {tag : Tag}
    (h : tag.Canonical u lower) : parse u tag.display = .ok tag := by
  have hne : tag.subtag ≠ "" := by
    intro heq
    exact h.subtag.spaced.ne_nil (by simp [heq])
  rw [parse, (h.normal_display hu).trim_eq, h.split_display hu, if_neg hne]

/-- **The tag grammar round trips.** The text of a parsed tag parses to that tag, so that tags with
equal texts are equal; and normalization leaves the text as it is. -/
theorem display_round_trips (u : Unicode) (lower : List Char → Char → List Char → List Char)
    (hu : u.Lowercases lower) (s : String) (tag : Tag) (h : parse u s = .ok tag) :
    parse u tag.display = .ok tag ∧
      (∀ s' tag', parse u s' = .ok tag' → tag'.display = tag.display → tag' = tag) ∧
      u.normalize tag.display.toList = tag.display := by
  have hcanon := canonical_of_parse hu h
  have hback := hcanon.parse_display hu
  refine ⟨hback, ?_, ?_⟩
  · intro s' tag' h' heq
    have hback' := (canonical_of_parse hu h').parse_display hu
    rw [heq, hback] at hback'
    exact (Except.ok.inj hback').symm
  · rw [(hcanon.normal_display hu).normalize_eq hu, String.ofList_toList]

/-- Capital letters, a space after the colon, another colon in the subtag. -/
theorem display_round_trips_asciiText :
    parse .asciiText " Series:  Metal Gear: Solid " = .ok ⟨"series", "metal gear: solid"⟩ ∧
      parse .asciiText (display ⟨"series", "metal gear: solid"⟩) =
        .ok ⟨"series", "metal gear: solid"⟩ := by
  have hparse : parse .asciiText " Series:  Metal Gear: Solid " =
      .ok ⟨"series", "metal gear: solid"⟩ := by decide +kernel
  exact ⟨hparse, (display_round_trips .asciiText (fun _ c _ => [c.toLower])
    Unicode.asciiText_lowercases _ _ hparse).1⟩

end

end Tag

end Naiad
