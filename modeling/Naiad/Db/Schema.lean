import Mathlib.Data.Finset.Basic
import Naiad.Core.Query
import Naiad.Lib.IdTable
import Naiad.Netproto.Wire

/-!
# Naiad.Db.Schema

The tables of a client database and the constraints its schema enforces on them. Ids are row ids;
paths are raw OS bytes.

* `Db.Constraints`: unique hashes and tag texts, and the references from mappings and relations to
  tags.
-/

namespace Naiad
namespace Db

open Lib Netproto

abbrev Path := List Byte

/-- `files`: one row per distinct content. -/
structure FileRow where
  blake3 : Hash
  size : Nat
  mime : Option String
  width : Option Int
  height : Option Int
  durationMs : Option Int
  sha256 : Option Hash
  sha256Seq : Option Nat
  importedAt : Int
deriving DecidableEq

/-- `file_locations`, keyed by content and path. -/
structure LocationRow where
  mtime : Option Int
  createdAt : Option Int
  present : Bool
  lastSeen : Nat
deriving DecidableEq

inductive ServiceScope
  | «local»
  | shared
deriving DecidableEq

/-- `services`; a shared service without a URL is detached. -/
structure ServiceRow where
  name : String
  scope : ServiceScope
  priority : Int := 0
  url : Option String := none
  origin : Option String := none
  relationCursor : Option Nat := none
  lastRelationPullAt : Option Int := none
  storeGeneration : Option String := none
  repoAnchor : Option String := none
deriving DecidableEq

/-- `mappings`, keyed by file, tag and service; `domains` has one bit for each identity domain. -/
structure MappingRow where
  status : MappingStatus
  createdAt : Int
  domains : BitVec 64
  originId : Option Nat
deriving DecidableEq

structure SiblingRow where
  ideal : Nat
  status : MappingStatus
deriving DecidableEq

inductive BlockKind
  | tag
  | tagPattern
  | author
deriving DecidableEq

structure BlockRule where
  id : Nat
  kind : BlockKind
  target : String
deriving DecidableEq

/-- `service_domain_pull_state`, keyed by service and domain. -/
structure PullState where
  mappingCursor : Option Nat
  lastPullFileMarker : Option Nat
deriving DecidableEq

end Db

open Lib Netproto Db in
/-- Siblings are keyed by bad tag and service, parents by child, parent and service, rejections by
service, file and tag. -/
structure Db where
  files : Table Nat FileRow
  locations : Table (Nat × Path) LocationRow
  roots : Finset Path
  tags : IdTable Tag
  origins : IdTable String
  services : Table Nat ServiceRow
  mappings : Table (Nat × Nat × Nat) MappingRow
  siblings : Table (Nat × Nat) SiblingRow
  parents : Table (Nat × Nat × Nat) MappingStatus
  blockRules : List BlockRule
  rejections : Finset (Nat × Nat × Nat)
  pullState : Table (Nat × String) PullState
  sha256SeqCounter : Nat

namespace Db

open Lib Netproto

/-- A database as the migrations leave it: the service "my tags" and nothing else. -/
def empty : Db where
  files := ∅
  locations := ∅
  roots := ∅
  tags := .empty
  origins := .empty
  services := AList.singleton 1 { name := "my tags", scope := .local, priority := 1000 }
  mappings := ∅
  siblings := ∅
  parents := ∅
  blockRules := []
  rejections := ∅
  pullState := ∅
  sha256SeqCounter := 0

def tagId (db : Db) (tag : Tag) : Option Nat := db.tags.idOf tag

def fileIdByHash (db : Db) (hash : Hash) : Option Nat :=
  (db.files.entries.find? fun e => e.2.blake3 = hash).map Sigma.fst

/-- `UNIQUE(blake3)` and the reference from locations to files. -/
structure FileConstraints (db : Db) : Prop where
  files_unique : ∀ f g row row', db.files.lookup f = some row → db.files.lookup g = some row' →
    row.blake3 = row'.blake3 → f = g
  location_file : ∀ f p loc, db.locations.lookup (f, p) = some loc →
    ∃ row, db.files.lookup f = some row

/-- `UNIQUE(namespace, subtag)` and the `REFERENCES tags(id)` columns. -/
structure Constraints (db : Db) : Prop extends FileConstraints db where
  tags_unique : db.tags.Unique
  mapping_tag : ∀ f t s row, db.mappings.lookup (f, t, s) = some row → t ∈ db.tags.ids
  sibling_ideal : ∀ bad s row, db.siblings.lookup (bad, s) = some row → row.ideal ∈ db.tags.ids
  parent_tag : ∀ child p s st, db.parents.lookup (child, p, s) = some st → p ∈ db.tags.ids

theorem fileIdByHash_some {db : Db} {hash : Hash} {f : Nat} (h : db.fileIdByHash hash = some f) :
    ∃ row, db.files.lookup f = some row ∧ row.blake3 = hash := by
  obtain ⟨⟨id, row⟩, hfind, rfl⟩ := Option.map_eq_some_iff.1 h
  refine ⟨row, Table.mem_entries.1 (List.mem_of_find?_eq_some hfind), ?_⟩
  simpa using List.find?_some hfind

/-- `UNIQUE(blake3)` -/
def FilesUnique (db : Db) : Prop :=
  ∀ f g row row', db.files.lookup f = some row → db.files.lookup g = some row' →
    row.blake3 = row'.blake3 → f = g

theorem FilesUnique.of_files {db db' : Db} (hu : db.FilesUnique) (h : db'.files = db.files) :
    db'.FilesUnique := by
  unfold FilesUnique
  rw [h]
  exact hu

theorem FilesUnique.fileIdByHash_eq_some {db : Db} (hu : db.FilesUnique) {hash : Hash} {f : Nat} :
    db.fileIdByHash hash = some f ↔ ∃ row, db.files.lookup f = some row ∧ row.blake3 = hash := by
  refine ⟨fileIdByHash_some, ?_⟩
  rintro ⟨row, hl, rfl⟩
  cases hf : db.fileIdByHash row.blake3 with
  | some g =>
    obtain ⟨row', hl', heq⟩ := fileIdByHash_some hf
    rw [hu g f row' row hl' hl heq]
  | none =>
    have hnone := List.find?_eq_none.1 (Option.map_eq_none_iff.1 hf) _ (Table.mem_entries.2 hl)
    simp at hnone

theorem FileConstraints.fileIdByHash_eq_some {db : Db} (hc : db.FileConstraints) {hash : Hash}
    {f : Nat} : db.fileIdByHash hash = some f ↔
      ∃ row, db.files.lookup f = some row ∧ row.blake3 = hash :=
  FilesUnique.fileIdByHash_eq_some hc.files_unique

/-- The constraints, row by row. -/
theorem Constraints.of_entries {db : Db}
    (hfiles : ∀ e ∈ db.files.entries, ∀ e' ∈ db.files.entries, e.2.blake3 = e'.2.blake3 → e.1 = e'.1)
    (hlocations : ∀ e ∈ db.locations.entries, (db.files.lookup e.1.1).isSome = true)
    (htags : db.tags.Unique) (hmappings : ∀ e ∈ db.mappings.entries, e.1.2.1 ∈ db.tags.ids)
    (hsiblings : ∀ e ∈ db.siblings.entries, e.2.ideal ∈ db.tags.ids)
    (hparents : ∀ e ∈ db.parents.entries, e.1.2.1 ∈ db.tags.ids) : db.Constraints := by
  refine ⟨⟨?_, ?_⟩, htags, ?_, ?_, ?_⟩
  · intro f g row row' hf hg heq
    exact hfiles _ (Table.mem_entries.2 hf) _ (Table.mem_entries.2 hg) heq
  · intro f p loc h
    exact Option.isSome_iff_exists.1 (hlocations _ (Table.mem_entries.2 h))
  · intro f t s row h
    exact hmappings _ (Table.mem_entries.2 h)
  · intro bad s row h
    exact hsiblings _ (Table.mem_entries.2 h)
  · intro child p s st h
    exact hparents _ (Table.mem_entries.2 h)

theorem tagId_eq_some {db : Db} (h : db.Constraints) {tag : Tag} {id : Nat} :
    db.tagId tag = some id ↔ db.tags.valueOf id = some tag := by
  rw [tagId, IdTable.valueOf_eq_some]
  exact (IdTable.mem_rows_iff_idOf h.tags_unique).symm

end Db
end Naiad
