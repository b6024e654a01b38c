import Naiad.Db.Staging

/-!
# Naiad.Db.Rejections

Rejected mappings with their notes, and the list a client shows of them. The text of a rejected tag is
joined by the query itself: namespace, colon, subtag.

* `Tag.parse_joined_iff`: the joined text parses to its tag unless the tag is a bare word.
* `mem_listRejections`: what the list holds.
* `listRejections_parses_iff`: **which rejections read back**.
-/

namespace Naiad

open Lib

namespace Tag

/-- `namespace || ':' || subtag` -/
def joined (t : Tag) : String := t.ns ++ ":" ++ t.subtag

section

variable {u : Unicode} {lower : List Char → Char → List Char → List Char} {tag : Tag}

theorem joined_toList (tag : Tag) :
    tag.joined.toList = tag.ns.toList ++ ':' :: tag.subtag.toList := by
  rw [joined, String.toList_append, String.toList_append, List.append_assoc]
  rfl

theorem joined_eq_display (h : tag.ns ≠ "" ∨ ':' ∈ tag.subtag.toList) :
    tag.joined = tag.display := by
  rw [← String.toList_inj, joined_toList, display_toList]
  by_cases hns : tag.ns = ""
  · rw [if_pos hns, if_pos (h.resolve_left (absurd hns)), hns]
    rfl
  · rw [if_neg hns]

/-- The joined text of a bare word is another tag: the colon is read as part of the word. -/
theorem Canonical.parse_joined_word (hu : u.Lowercases lower) (h : tag.Canonical u lower)
    (hns : tag.ns = "") (hcolon : ':' ∉ tag.subtag.toList) :
    parse u tag.joined = .ok ⟨"", tag.joined⟩ := by
  have htext : tag.joined.toList = ':' :: tag.subtag.toList := by
    rw [joined_toList, hns]
    rfl
  have hnormal : u.Normal lower tag.joined.toList := by
    rw [htext]
    exact h.subtag.colon_cons hu
  have hsplit : split u tag.joined.toList = ⟨"", tag.joined⟩ := by
    have hnormalize := hnormal.normalize_eq hu
    rw [String.ofList_toList, htext] at hnormalize
    rw [htext, split, if_neg hcolon, hnormalize]
  have hne : tag.joined ≠ "" := by
    intro heq
    rw [heq] at htext
    cases htext
  rw [parse, hnormal.trim_eq, hsplit, if_neg hne]

/-- The joined text of a tag parses to it just when the tag is a parsed one that has a namespace, or
a colon in its subtag. -/
theorem parse_joined_iff (hu : u.Lowercases lower) : parse u tag.joined = .ok tag ↔
    (∃ s, parse u s = .ok tag) ∧ (tag.ns ≠ "" ∨ ':' ∈ tag.subtag.toList) := by
  constructor
  · intro h
    refine ⟨⟨_, h⟩, ?_⟩
    by_contra hword
    obtain ⟨hns, hcolon⟩ := not_or.1 hword
    rw [(canonical_of_parse hu h).parse_joined_word hu (not_not.1 hns) hcolon] at h
    have hsub : tag.joined = tag.subtag := congrArg subtag (Except.ok.inj h)
    refine hcolon ?_
    rw [← hsub, joined_toList]
    simp
  · rintro ⟨⟨s, hs⟩, hshape⟩
    rw [joined_eq_display hshape]
    exact (canonical_of_parse hu hs).parse_display hu

end

end Tag

namespace Db

/-- `mapping_rejections`, keyed by service, file and tag. -/
structure RejectionRow where
  note : Option String
  createdAt : Int
deriving DecidableEq

/-- One stored rejection, as a client lists it. -/
structure Rejection where
  serviceId : Nat
  service : String
  fileId : Nat
  tagId : Nat
  tag : String
  note : Option String
  createdAt : Int
  hash : Hash
deriving DecidableEq

/-- A client database with the rows of its rejections, which reference what they reject. -/
structure RejectedDb where
  db : Db
  rows : Table (Nat × Nat × Nat) RejectionRow
  same : ∀ k, k ∈ rows ↔ k ∈ db.rejections
  refs : ∀ k ∈ rows, (db.services.lookup k.1).isSome ∧ (db.files.lookup k.2.1).isSome ∧
    k.2.2 ∈ db.tags.ids

namespace RejectedDb

/-- `INSERT OR IGNORE` keeps the row of a rejection there is. -/
def addRejection (c : RejectedDb) (service file tag : Nat) (note : Option String) (now : Int) :
    Except ServiceError RejectedDb :=
  if h : (c.db.services.lookup service).isSome ∧ (c.db.files.lookup file).isSome ∧
      tag ∈ c.db.tags.ids then
    if hrow : (service, file, tag) ∈ c.rows then .ok c
    else
      .ok {
        db := { c.db with rejections := insert (service, file, tag) c.db.rejections }
        rows := c.rows.insert (service, file, tag) ⟨note, now⟩
        same := by
          intro k
          rw [AList.mem_insert, Finset.mem_insert, c.same k]
        refs := by
          intro k hk
          rcases AList.mem_insert _ |>.1 hk with rfl | hk
          · exact h
          · exact c.refs k hk }
  else .error .constraint

/-- A row of the query, with the names and the hash it joins. -/
def listed (c : RejectedDb) (k : Nat × Nat × Nat) (row : RejectionRow) : Option Rejection :=
  (c.db.services.lookup k.1).bind fun service =>
    (c.db.tags.valueOf k.2.2).bind fun tag =>
      (c.db.files.lookup k.2.1).map fun file =>
        ⟨k.1, service.name, k.2.1, k.2.2, tag.joined, row.note, row.createdAt, file.blake3⟩

/-- All rejections or those of one file, the latest first. -/
def listRejections (c : RejectedDb) (file : Option Nat) : List Rejection :=
  ((c.rows.entries.filter fun e => file = none ∨ file = some e.1.2.1).filterMap fun e =>
    c.listed e.1 e.2).mergeSort fun a b => b.createdAt ≤ a.createdAt

section

variable {c : RejectedDb} {file : Option Nat}

/-- Each rejection is listed with the names it refers to. -/
theorem mem_listRejections {r : Rejection} : r ∈ c.listRejections file ↔
    ∃ k row, c.rows.lookup k = some row ∧ (∀ f, file = some f → f = k.2.1) ∧
      c.listed k row = some r := by
  rw [listRejections, List.mem_mergeSort, List.mem_filterMap]
  constructor
  · rintro ⟨⟨k, row⟩, he, hr⟩
    obtain ⟨he, hfile⟩ := List.mem_filter.1 he
    refine ⟨k, row, AList.mem_lookup_iff.2 he, ?_, hr⟩
    rintro f rfl
    simpa using hfile
  · rintro ⟨k, row, hrow, hfile, hr⟩
    refine ⟨⟨k, row⟩, List.mem_filter.2 ⟨AList.mem_lookup_iff.1 hrow, ?_⟩, hr⟩
    cases file with
    | none => simp
    | some f => simp [hfile f rfl]

theorem exists_listed {k : Nat × Nat × Nat} {row : RejectionRow} (h : c.rows.lookup k = some row) :
    ∃ tag r, c.db.tags.valueOf k.2.2 = some tag ∧ c.listed k row = some r ∧ r.tagId = k.2.2 ∧
      r.tag = tag.joined := by
  have hmem : k ∈ c.rows := AList.lookup_isSome.1 (by rw [h]; rfl)
  obtain ⟨hservice, hfile, htag⟩ := c.refs k hmem
  obtain ⟨service, hservice⟩ := Option.isSome_iff_exists.1 hservice
  obtain ⟨frow, hfile⟩ := Option.isSome_iff_exists.1 hfile
  obtain ⟨⟨id, tag⟩, hrow, hid⟩ := List.mem_map.1 htag
  have hid : id = k.2.2 := hid
  subst hid
  have htag := IdTable.valueOf_eq_some.2 hrow
  have hlisted : c.listed k row = some ⟨k.1, service.name, k.2.1, k.2.2, tag.joined, row.note,
      row.createdAt, frow.blake3⟩ := by
    simp [listed, hservice, hfile, htag]
  exact ⟨tag, _, htag, hlisted, rfl, rfl⟩

/-- **Rejections that read back.** The listed texts parse to the rejected tags just when each
rejection that is listed is of a parsed tag with a namespace, or with a colon in its subtag. -/
theorem listRejections_parses_iff {u : Unicode} {lower : List Char → Char → List Char → List Char}
    (hu : u.Lowercases lower) (c : RejectedDb) (file : Option Nat) :
    (∀ r ∈ c.listRejections file, ∃ tag, c.db.tags.valueOf r.tagId = some tag ∧
        Tag.parse u r.tag = .ok tag) ↔
      ∀ k ∈ c.db.rejections, (∀ f, file = some f → f = k.2.1) →
        ∀ tag, c.db.tags.valueOf k.2.2 = some tag →
          (∃ s, Tag.parse u s = .ok tag) ∧ (tag.ns ≠ "" ∨ ':' ∈ tag.subtag.toList) := by
  constructor
  · intro h k hk hfile tag htag
    obtain ⟨row, hrow⟩ := Option.isSome_iff_exists.1 (AList.lookup_isSome.2 ((c.same k).2 hk))
    obtain ⟨tag', r, htag', hr, hid, htext⟩ := exists_listed hrow
    obtain ⟨parsed, hparsed, hparse⟩ := h r (mem_listRejections.2 ⟨k, row, hrow, hfile, hr⟩)
    rw [hid, htag'] at hparsed
    rw [htag'] at htag
    cases hparsed
    cases htag
    rw [htext] at hparse
    exact (Tag.parse_joined_iff hu).1 hparse
  · intro h r hr
    obtain ⟨k, row, hrow, hfile, hlisted⟩ := mem_listRejections.1 hr
    obtain ⟨tag, r', htag, hr', hid, htext⟩ := exists_listed hrow
    rw [hlisted] at hr'
    cases hr'
    have hmem : k ∈ c.rows := AList.lookup_isSome.1 (by rw [hrow]; rfl)
    refine ⟨tag, by rw [hid, htag], ?_⟩
    rw [htext]
    exact (Tag.parse_joined_iff hu).2 (h k ((c.same k).1 hmem) hfile tag htag)

end

/-- One file and one tag, nothing rejected. -/
def oneTag (tag : Tag) : RejectedDb where
  db := { Db.empty with
    files := AList.singleton 1
      { blake3 := Hash.fill 1, size := 0, mime := none, width := none, height := none,
        durationMs := none, sha256 := none, sha256Seq := none, importedAt := 0 }
    tags := Db.empty.tags.append tag }
  rows := ∅
  same := by simp [Db.empty]
  refs := by simp

/-- A rejected tag without a namespace comes back as another tag. -/
theorem listRejections_bareWord :
    Tag.parse .asciiText "foo" = .ok ⟨"", "foo"⟩ ∧
      ∃ c, (oneTag ⟨"", "foo"⟩).addRejection 1 1 1 none 7 = .ok c ∧
        (c.listRejections none).map (fun r => (r.tagId, r.tag)) = [(1, ":foo")] ∧
        c.db.tags.valueOf 1 = some ⟨"", "foo"⟩ ∧
        Tag.parse .asciiText ":foo" = .ok ⟨"", ":foo"⟩ := by
  refine ⟨by decide +kernel, _, rfl, ?_, by decide, by decide +kernel⟩
  decide +kernel

theorem listRejections_namespaced :
    ∃ c, (oneTag ⟨"series", "foo"⟩).addRejection 1 1 1 none 7 = .ok c ∧
      ∀ r ∈ c.listRejections none, ∃ tag, c.db.tags.valueOf r.tagId = some tag ∧
        Tag.parse .asciiText r.tag = .ok tag := by
  refine ⟨_, rfl, ?_⟩
  refine (listRejections_parses_iff Unicode.asciiText_lowercases _ none).2 ?_
  intro k hk _ tag htag
  have hkey : k = (1, 1, 1) := by simpa [oneTag, Db.empty] using hk
  subst hkey
  obtain rfl : (⟨"series", "foo"⟩ : Tag) = tag := Option.some.inj htag
  exact ⟨⟨"Series: foo", by decide +kernel⟩, .inl (by decide)⟩

end RejectedDb

end Db
end Naiad
