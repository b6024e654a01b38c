import Naiad.Db.Files

/-!
# Naiad.Db.Locations

Statements on location rows alone: re-stamping, marking missing, the fingerprints a scan starts
from, and the scan marker.

* `place_updateLocations`: an update seen through the content at a path.
* `presentFingerprints_some`: where a fingerprint comes from.
-/

namespace Naiad
namespace Db

open Lib

/-- `UPDATE file_locations SET ..`, a function of path and row. -/
def updateLocations (db : Db) (g : Path → LocationRow → LocationRow) : Db :=
  { db with locations := db.locations.modify fun key row => g key.2 row }

/-- Re-stamp an unchanged location: every row at `path` older than the marker. -/
def touchLocation (db : Db) (path : Path) (marker : Nat) (createdAt : Option Int) : Db :=
  db.updateLocations fun p row =>
    if p = path ∧ row.lastSeen < marker then
      { row with present := true, lastSeen := marker, createdAt := row.createdAt.or createdAt }
    else row

/-- `'/'` -/
def separator : Byte := 47

/-- `path = root OR substr(path, 1, len) = root || '/'`. -/
def subtreePredicate (root path : Path) : Bool :=
  path = root || path.take (root.length + 1) = root ++ [separator]

def markMissingUnderBefore (db : Db) (root : Path) (scanMarker : Nat) : Db :=
  db.updateLocations fun p row =>
    if row.present ∧ row.lastSeen < scanMarker ∧ subtreePredicate root p then
      { row with present := false }
    else row

def markMissingPath (db : Db) (path : Path) : Db :=
  db.updateLocations fun p row =>
    if row.present ∧ subtreePredicate path p then { row with present := false } else row

/-- The number of rows `markMissingUnderBefore` flips. -/
def countMissingUnderBefore (db : Db) (root : Path) (scanMarker : Nat) : Nat :=
  db.locations.entries.countP fun e =>
    e.2.present && e.2.lastSeen < scanMarker && subtreePredicate root e.1.2

/-- Present locations joined to the sizes of their contents. -/
def presentRows (db : Db) : List (Path × Nat × Option Int) :=
  db.locations.entries.filterMap fun e =>
    if e.2.present then
      (db.files.lookup e.1.1).map fun row => (e.1.2, row.size, e.2.mtime)
    else none

/-- Every present location's size and mtime by path; a later row replaces an earlier one. -/
def presentFingerprints (db : Db) : Table Path (Nat × Option Int) := Table.collect db.presentRows

/-- Above every `last_seen`, and not below the clock. -/
def nextScanMarker (db : Db) (now : Nat) : Nat :=
  max now (db.locations.maxOf LocationRow.lastSeen + 1)

def addRoot (db : Db) (path : Path) : Db := { db with roots := insert path db.roots }

section

variable {db : Db}

theorem fileIdByHash_updateLocations (g : Path → LocationRow → LocationRow) (hash : Hash) :
    (db.updateLocations g).fileIdByHash hash = db.fileIdByHash hash := rfl

theorem place_updateLocations (g : Path → LocationRow → LocationRow) (hash : Hash) (p : Path) :
    (db.updateLocations g).place hash p = (db.place hash p).map (g p) := by
  rw [place, fileIdByHash_updateLocations, place]
  cases db.fileIdByHash hash with
  | none => rfl
  | some f => exact Table.lookup_modify _ _ _

theorem fileConstraints_updateLocations (hc : db.FileConstraints)
    (g : Path → LocationRow → LocationRow) : (db.updateLocations g).FileConstraints := by
  refine ⟨hc.files_unique, ?_⟩
  intro f p loc h
  have hl : (db.locations.lookup (f, p)).map (g p) = some loc :=
    (Table.lookup_modify db.locations (fun key row => g key.2 row) (f, p)).symm.trans h
  obtain ⟨old, hold, _⟩ := Option.map_eq_some_iff.1 hl
  exact hc.location_file f p old hold

theorem mem_presentRows {p : Path} {size : Nat} {mtime : Option Int} :
    (p, size, mtime) ∈ db.presentRows ↔ ∃ f hash loc, db.contentOf f = some (hash, size) ∧
      db.locations.lookup (f, p) = some loc ∧ loc.present = true ∧ loc.mtime = mtime := by
  rw [presentRows, List.mem_filterMap]
  constructor
  · intro h
    obtain ⟨⟨⟨f, q⟩, loc⟩, hmem, hrow⟩ := h
    simp only at hrow
    split at hrow
    · rename_i hpresent
      obtain ⟨row, hl, heq⟩ := Option.map_eq_some_iff.1 hrow
      cases heq
      exact ⟨f, row.blake3, loc, by rw [contentOf, hl]; rfl, Table.mem_entries.1 hmem, hpresent, rfl⟩
    · cases hrow
  · intro h
    obtain ⟨f, hash, loc, hcontent, hl, hpresent, rfl⟩ := h
    obtain ⟨row, hrow, heq⟩ := Option.map_eq_some_iff.1 hcontent
    cases heq
    refine ⟨⟨(f, p), loc⟩, Table.mem_entries.2 hl, ?_⟩
    simp only
    rw [if_pos hpresent, hrow]
    rfl

/-- A fingerprint is that of some content present at the path. -/
theorem presentFingerprints_some (hc : db.FileConstraints) {p : Path} {size : Nat}
    {mtime : Option Int} (h : db.presentFingerprints.lookup p = some (size, mtime)) :
    ∃ f hash loc, db.contentOf f = some (hash, size) ∧ db.place hash p = some loc ∧
      loc.present = true ∧ loc.mtime = mtime := by
  obtain ⟨f, hash, loc, hcontent, hl, hpresent, hmtime⟩ :=
    mem_presentRows.1 (Table.collect_some h)
  exact ⟨f, hash, loc, hcontent, (place_eq_some hc).2 ⟨f, size, hcontent, hl⟩, hpresent, hmtime⟩

theorem lastSeen_lt_marker (hc : db.FileConstraints) {now : Nat} {hash : Hash} {p : Path}
    {loc : LocationRow} (h : db.place hash p = some loc) :
    loc.lastSeen < db.nextScanMarker now := by
  obtain ⟨f, _, _, hl⟩ := (place_eq_some hc).1 h
  have hle : loc.lastSeen ≤ db.locations.maxOf LocationRow.lastSeen := Table.le_maxOf hl
  rw [nextScanMarker]
  omega

theorem subtreePredicate_iff {root path : Path} :
    subtreePredicate root path = true ↔ path = root ∨ (root ++ [separator]).IsPrefix path := by
  rw [subtreePredicate, Bool.or_eq_true, decide_eq_true_iff, decide_eq_true_iff]
  refine or_congr_right ?_
  rw [List.prefix_iff_eq_take, List.length_append, List.length_singleton, eq_comm]

end

end Db
end Naiad
