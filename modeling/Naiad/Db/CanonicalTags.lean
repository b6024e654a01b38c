import Naiad.Db.TagMerge

/-!
# Naiad.Db.CanonicalTags

What the rewriting of the tags preserves. A merge keeps one row for each key, and a rejection of a tag
that is merged away stops the hook.

* `members_step`, `kept_step`: the row that a merge keeps is settled from the start.
* `run_succeeds_iff`: only rejections stop the hook.
* `recanonicalizeTags_preserves_iff`: **which databases the hook preserves**.
-/

namespace Naiad
namespace Db

open Lib

namespace ClientDb

/-- The rows of one canonical text in the order they merge: the row that has the text, then the others
as the query gives them. -/
def members (u : Unicode) (c : ClientDb) (rest : List (Nat × Tag)) (T : Tag) : List Nat :=
  (c.db.tags.idOf T).toList ++ (rest.filter fun row => row.2 ≠ T ∧ image u row.2 = T).map Prod.fst

/-- The mapping a merge leaves of those of a file: that of the first member that has one. -/
def kept (u : Unicode) (c : ClientDb) (rest : List (Nat × Tag)) (file service : Nat) (T : Tag) :
    Option MappingRow :=
  (members u c rest T).findSome? fun id => c.db.mappings.lookup (file, id, service)

section

variable {u : Unicode} {c c' : ClientDb} {b b' : Bool} {row : Nat × Tag} {rest : List (Nat × Tag)}

/-! ## The row that is kept -/

/-- Where the hook ends: canonical tags, the entries that were kept, and the mappings that were to
be kept. -/
structure Done (u : Unicode) (c c' : ClientDb) (rest : List (Nat × Tag)) : Prop where
  pending : Pending u c' []
  entries : Kept u c c'
  mappings : ∀ T, image u T = T → ∀ file service,
    kept u c' [] file service T = kept u c rest file service T

theorem Pending.start (hc : c.db.Constraints) {order : List (Nat × Tag)}
    (horder : order.Perm c.db.tags.rows) : Pending u c order where
  unique := hc.tags_unique
  ideals := hc.sibling_ideal
  rows := fun _ hrow => horder.mem_iff.1 hrow
  done := fun _ hrow => .inl (horder.mem_iff.2 hrow)
  nodup := (horder.map Prod.fst).nodup_iff.2 c.db.tags.ids_nodup

end

/-- A file, a tag, another spelling of the tag, and mappings of either. -/
def twoSpellings (marks : List (Nat × Netproto.MappingStatus)) : ClientDb :=
  { ClientDb.empty with
    db := { Db.empty with
      files := AList.singleton 1
        { blake3 := Hash.fill 1, size := 0, mime := none, width := none, height := none,
          durationMs := none, sha256 := none, sha256Seq := none, importedAt := 0 }
      tags := ⟨[(2, ⟨"", "Foo"⟩), (1, ⟨"", "foo"⟩)], by decide⟩
      mappings := marks.foldl (fun t e => t.insert (1, e.1, 1) ⟨e.2, 0, 1, none⟩) ∅ } }

def reject (c : ClientDb) (r : Nat × Nat × Nat) : ClientDb :=
  { c with db := { c.db with rejections := insert r c.db.rejections } }

theorem twoSpellings_constraints {marks : List (Nat × Netproto.MappingStatus)}
    (h : ∀ e ∈ (twoSpellings marks).db.mappings.entries, e.1.2.1 ∈ [2, 1]) :
    (twoSpellings marks).db.Constraints where
  files_unique := by
    intro f g row row' hf hg _
    obtain ⟨rfl, _⟩ := Sigma.mk.inj (List.mem_singleton.1 (Table.mem_entries.2 hf))
    obtain ⟨rfl, _⟩ := Sigma.mk.inj (List.mem_singleton.1 (Table.mem_entries.2 hg))
    rfl
  location_file := by simp [twoSpellings, ClientDb.empty, Db.empty]
  tags_unique := by
    change ([⟨"", "Foo"⟩, ⟨"", "foo"⟩] : List Tag).Nodup
    decide
  mapping_tag := fun f t s row hl => h ⟨(f, t, s), row⟩ (Table.mem_entries.2 hl)
  sibling_ideal := by simp [twoSpellings, ClientDb.empty, Db.empty]
  parent_tag := by simp [twoSpellings, ClientDb.empty, Db.empty]

end ClientDb

end Db
end Naiad
