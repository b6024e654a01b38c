import Naiad.Db.Masks

/-!
# Naiad.Db.Recanonicalize

The hook of the migration that rewrites every tag whose stored text is not what its display parses
to. A text no other tag has is written in place; otherwise every row of the tag moves to the tag
that has it, the rows that cannot move are deleted, and so is the tag.

* `recanonicalizeTags`: the hook, and whether any tag was changed.
* `MappingTags.recanonicalizeTags`: it leaves unique tags and no dangling mapping.
-/

namespace Naiad
namespace Db

open Lib

/-- `parse` after `to_string`; a pair that does not parse is left alone. -/
def canonicalOf (u : Unicode) (tag : Tag) : Option Tag :=
  match Tag.parse u tag.display with
  | .ok canon => some canon
  | .error _ => none

def repoint (old new t : Nat) : Nat := if t = old then new else t

/-- Merge a tag into another and delete it; a rejection that still refers to it forbids that. -/
def mergeTag (db : Db) (old new : Nat) : Option Db :=
  if ∃ r ∈ db.rejections, r.2.2 = old then none
  else
    some { db with
      mappings := (db.mappings.rekey fun k => (k.1, repoint old new k.2.1, k.2.2)).select
        fun k _ => k.2.1 ≠ old
      siblings := ((db.siblings.rekey fun k => (repoint old new k.1, k.2)).modify
          fun _ row => { row with ideal := repoint old new row.ideal }).select
        fun k row => k.1 ≠ old && row.ideal ≠ old
      parents := ((db.parents.rekey fun k => (repoint old new k.1, k.2)).rekey
          fun k => (k.1, repoint old new k.2.1, k.2.2)).select
        fun k _ => k.1 ≠ old && k.2.1 ≠ old
      tags := db.tags.erase old }

/-- One stored tag; the flag says that some tag was changed. -/
def recanonicalizeTag (u : Unicode) (s : Db × Bool) (row : Nat × Tag) : Option (Db × Bool) :=
  match canonicalOf u row.2 with
  | none => some s
  | some canon =>
    if canon = row.2 then some s
    else
      match s.1.tags.idOf canon with
      | none => some ({ s.1 with tags := s.1.tags.setValue row.1 canon }, true)
      | some new => (s.1.mergeTag row.1 new).map fun db => (db, true)

def recanonicalizeRows (u : Unicode) : List (Nat × Tag) → Db × Bool → Option (Db × Bool)
  | [], s => some s
  | row :: rows, s => (recanonicalizeTag u s row).bind (recanonicalizeRows u rows)

/-- All tags as they were at the start, oldest first. -/
def recanonicalizeTags (u : Unicode) (db : Db) : Option (Db × Bool) :=
  recanonicalizeRows u db.tags.rows.reverse (db, false)

section

variable {db : Db} {u : Unicode}

theorem MappingTags.setTag (h : db.MappingTags) (id : Nat) {tag : Tag}
    (hfree : db.tags.idOf tag = none) :
    { db with tags := db.tags.setValue id tag : Db }.MappingTags := by
  refine ⟨h.tags_unique.setValue id (IdTable.idOf_eq_none.1 hfree), ?_⟩
  intro f t s row hl
  rw [IdTable.ids_setValue]
  exact h.mapping_tag f t s row hl

theorem MappingTags.mergeTag (h : db.MappingTags) {old new : Nat} {tag : Tag}
    (hnew : db.tags.idOf tag = some new) {db' : Db} (hmerge : db.mergeTag old new = some db') :
    db'.MappingTags := by
  unfold Db.mergeTag at hmerge
  split at hmerge
  · cases hmerge
  cases hmerge
  refine ⟨h.tags_unique.erase old, ?_⟩
  intro f t s row hl
  have hrow := (Table.lookup_select _ _ _).symm.trans hl
  obtain ⟨hmoved, hkept⟩ := Option.filter_eq_some_iff.1 hrow
  refine IdTable.mem_ids_erase.2 ⟨?_, of_decide_eq_true hkept⟩
  obtain ⟨⟨f', t', s'⟩, hold, hkey⟩ := Table.of_lookup_rekey hmoved
  have hmem := h.mapping_tag f' t' s' row hold
  rcases hkey with hkey | hkey
  · cases hkey
    exact hmem
  · obtain ⟨rfl, rfl, rfl⟩ : f = f' ∧ t = repoint old new t' ∧ s = s' := by simpa using hkey
    unfold repoint
    split
    · exact IdTable.mem_ids_of_idOf hnew
    · exact hmem

/-- What holds along the hook: a database that no step changed is the one it started from. -/
structure Recanonicalized (start : Db) (s : Db × Bool) : Prop where
  tags : s.1.MappingTags
  unchanged : s.2 = false → s.1 = start

theorem Recanonicalized.tag {start : Db} {s s' : Db × Bool} (h : Recanonicalized start s)
    {row : Nat × Tag} (hstep : recanonicalizeTag u s row = some s') : Recanonicalized start s' := by
  unfold recanonicalizeTag at hstep
  cases hcanon : canonicalOf u row.2 with
  | none =>
    rw [hcanon] at hstep
    cases hstep
    exact h
  | some canon =>
    simp only [hcanon] at hstep
    split at hstep
    · cases hstep
      exact h
    · cases hid : s.1.tags.idOf canon with
      | none =>
        simp only [hid] at hstep
        cases hstep
        exact ⟨h.tags.setTag row.1 hid, by simp⟩
      | some new =>
        simp only [hid] at hstep
        obtain ⟨db', hmerge, rfl⟩ := Option.map_eq_some_iff.1 hstep
        exact ⟨h.tags.mergeTag hid hmerge, by simp⟩

theorem Recanonicalized.rows {start : Db} (rows : List (Nat × Tag)) {s s' : Db × Bool}
    (h : Recanonicalized start s) (hrun : recanonicalizeRows u rows s = some s') :
    Recanonicalized start s' := by
  induction rows generalizing s with
  | nil =>
    cases hrun
    exact h
  | cons row rows ih =>
    obtain ⟨s1, hstep, hrest⟩ := Option.bind_eq_some_iff.1 hrun
    exact ih (h.tag hstep) hrest

theorem MappingTags.recanonicalizeTags (h : db.MappingTags) {s' : Db × Bool}
    (hrun : db.recanonicalizeTags u = some s') : Recanonicalized db s' :=
  Recanonicalized.rows db.tags.rows.reverse ⟨h, fun _ => rfl⟩ hrun

end

end Db
end Naiad
