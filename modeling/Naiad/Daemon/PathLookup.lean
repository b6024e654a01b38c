import Naiad.Daemon.OneContent

/-!
# Naiad.Daemon.PathLookup

A file named by its path is looked up among the location rows of that path, missing ones included,
and the first row wins: the one with the least row id, which is that of the content stored there
first.

* `Located`: a database with the row ids of its locations.
* `Located.step`: the scans and watch events, which number the rows they insert.
* `path_lookup_iff`: **a run keeps every path with a present row resolved to a present row exactly
  when none of its steps stores another content over the missing row that the path was first
  stored with**.
-/

namespace Naiad
namespace Daemon

open Lib Db

/-- A database with the keys of its location rows by row id. -/
structure Located where
  db : Db
  rows : List (Nat × Path)

/-- An inserted row takes the next id; an updated one keeps its own. -/
def addRow (rows : List (Nat × Path)) (key : Nat × Path) : List (Nat × Path) :=
  if key ∈ rows then rows else rows ++ [key]

namespace Located

/-- `SELECT file_id FROM file_locations WHERE path = ?1`, of which the first row is taken; the index
on the path lists the rows of one path by id. -/
def fileIdByPath (l : Located) (path : Path) : Option Nat :=
  (l.rows.find? (·.2 = path)).map Prod.fst

def empty : Located := ⟨Db.empty, []⟩

def lift (f : Db → Db) (l : Located) : Located := { l with db := f l.db }

def insertFile (l : Located) (rec : FileRecord) (scanMarker : Nat) (now : Int) : Located :=
  match (l.db.upsertContent rec now).fileIdByHash rec.hash with
  | none => l.lift fun db => db.insertFile rec scanMarker now
  | some f => ⟨l.db.insertFile rec scanMarker now, addRow l.rows (f, rec.path)⟩

def storeRecord (l : Located) (record : FileRecord) (metadata : FileMetadata) (marker now : Nat) :
    Located :=
  if metadata = default then l.insertFile record marker now
  else (l.insertFile record marker now).lift fun db => db.updateMetadata record.hash metadata

def persist (l : Located) (item : Pending) (marker now : Nat) : Located :=
  match item with
  | .touch path createdAt => l.lift fun db => db.touchLocation path marker createdAt
  | .store record metadata => l.storeRecord record metadata marker now

def onResult (marker now : Nat) (l : Located) (res : Except ScanError Pending) : Located :=
  match res with
  | .ok item => l.persist item marker now
  | .error _ => l

variable {w : World}

def importPath (l : Located) (scan : Scan w) : Located :=
  let rooted := l.lift fun db => db.addRoot scan.root
  let marker := rooted.db.nextScanMarker scan.now
  ((results rooted.db scan).foldl (onResult marker scan.now) rooted).lift fun db =>
    db.markMissingUnderBefore scan.root marker

def reindexUpsert (disk : Disk w) (l : Located) (path : Path) (now : Nat) : Located :=
  match disk.hashFile path with
  | .ok record =>
    l.storeRecord record (disk.extractMetadata record.path) (l.db.nextScanMarker now) now
  | .error e => if e.source = .notFound then l.lift fun db => db.markMissingPath path else l

/-- One completed operation; the batches of a streaming scan write the rows of a plain one. -/
def step (l : Located) : Event w → Located
  | .importPath scan => l.importPath scan
  | .scanStreaming scan => l.importPath scan
  | .upsert path disk now => reindexUpsert disk l path now
  | .remove path => l.lift fun db => reindexRemove db path

/-! ## The database of a located one -/

section

variable (l : Located)

theorem insertFile_db (rec : FileRecord) (scanMarker : Nat) (now : Int) :
    (l.insertFile rec scanMarker now).db = l.db.insertFile rec scanMarker now := by
  unfold insertFile
  split
  · rfl
  · rfl

theorem storeRecord_db (record : FileRecord) (metadata : FileMetadata) (marker now : Nat) :
    (l.storeRecord record metadata marker now).db =
      Daemon.storeRecord l.db record metadata marker now := by
  unfold storeRecord Daemon.storeRecord
  split
  · exact l.insertFile_db record marker now
  · rw [lift, insertFile_db]

theorem persist_db (item : Pending) (marker now : Nat) :
    (l.persist item marker now).db = Daemon.persist l.db item marker now := by
  cases item with
  | touch path createdAt => rfl
  | store record metadata => exact l.storeRecord_db record metadata marker now

theorem foldl_onResult_db (marker now : Nat) (results : List (Except ScanError Pending))
    (s : ImportSummary) :
    (results.foldl (onResult marker now) l).db =
      (results.foldl (Daemon.onResult marker now) (l.db, s)).1 := by
  induction results generalizing l s with
  | nil => rfl
  | cons res results ih =>
    cases res with
    | error e => exact ih l _
    | ok item =>
      have h := ih (l.persist item marker now) { s with imported := s.imported + 1 }
      rw [persist_db] at h
      exact h

theorem importPath_db (scan : Scan w) : (l.importPath scan).db = (Daemon.importPath l.db scan).1 := by
  have h := (l.lift fun db => db.addRoot scan.root).foldl_onResult_db (scanMarker l.db scan) scan.now
    (results (l.db.addRoot scan.root) scan) default
  show ((results (l.db.addRoot scan.root) scan).foldl (onResult (scanMarker l.db scan) scan.now)
    (l.lift fun db => db.addRoot scan.root)).db.markMissingUnderBefore scan.root
      (scanMarker l.db scan) = _
  rw [h]
  rfl

/-- The located steps are the steps of the database. -/
theorem step_db (event : Event w) : (l.step event).db = Daemon.step l.db event := by
  cases event with
  | importPath scan => exact l.importPath_db scan
  | scanStreaming scan =>
    show (l.importPath scan).db = (Daemon.scanStreaming l.db scan).1
    rw [scanStreaming_eq]
    exact l.importPath_db scan
  | remove path => rfl
  | upsert path disk now =>
    show (reindexUpsert disk l path now).db = (Daemon.reindexUpsert disk l.db path now).toOption.getD l.db
    unfold reindexUpsert Daemon.reindexUpsert
    cases hfile : disk.hashFile path with
    | ok record => exact l.storeRecord_db record _ _ now
    | error e =>
      simp only
      split
      · rfl
      · rfl

end

/-! ## Rows and their ids -/

/-- The rows that have an id are the location rows. -/
structure Tidy (l : Located) : Prop where
  constraints : l.db.FileConstraints
  numbered : ∀ k, k ∈ l.rows ↔ (l.db.locations.lookup k).isSome = true

/-- Rows keep their order and contents their ids. -/
structure Extends (l l' : Located) : Prop where
  rows : l.rows <+: l'.rows
  contents : ∀ f c, l.db.contentOf f = some c → l'.db.contentOf f = some c

theorem Extends.refl (l : Located) : Extends l l := ⟨List.prefix_rfl, fun _ _ h => h⟩

theorem Extends.trans {l l' l'' : Located} (h : Extends l l') (h' : Extends l' l'') :
    Extends l l'' :=
  ⟨h.rows.trans h'.rows, fun f c hf => h'.contents f c (h.contents f c hf)⟩

theorem mem_addRow {rows : List (Nat × Path)} {key k : Nat × Path} :
    k ∈ addRow rows key ↔ k ∈ rows ∨ k = key := by
  unfold addRow
  split
  · rename_i hmem
    constructor
    · exact .inl
    · rintro (h | rfl)
      · exact h
      · exact hmem
  · simp

theorem prefix_addRow (rows : List (Nat × Path)) (key : Nat × Path) : rows <+: addRow rows key := by
  unfold addRow
  split
  · exact List.prefix_rfl
  · exact List.prefix_append _ _

section

variable {l : Located}

theorem Tidy.lift (h : Tidy l) {f : Db → Db} (hc : (f l.db).FileConstraints)
    (hrows : ∀ k, ((f l.db).locations.lookup k).isSome = (l.db.locations.lookup k).isSome)
    (hcontents : ∀ g, (f l.db).contentOf g = l.db.contentOf g) :
    Tidy (l.lift f) ∧ Extends l (l.lift f) := by
  refine ⟨⟨hc, ?_⟩, List.prefix_rfl, ?_⟩
  · intro k
    exact (h.numbered k).trans (by rw [← hrows k]; rfl)
  · intro g c hg
    exact (hcontents g).trans hg

theorem Tidy.updateLocations (h : Tidy l) (g : Path → LocationRow → LocationRow) :
    Tidy (l.lift fun db => db.updateLocations g) ∧
      Extends l (l.lift fun db => db.updateLocations g) := by
  refine h.lift (fileConstraints_updateLocations h.constraints g) ?_ fun _ => rfl
  intro k
  have hlookup := Table.lookup_modify l.db.locations (fun key row => g key.2 row) k
  show ((l.db.locations.modify fun key row => g key.2 row).lookup k).isSome = _
  rw [hlookup, Option.isSome_map]

theorem Tidy.markMissingPath (h : Tidy l) (path : Path) :
    Tidy (l.lift fun db => db.markMissingPath path) ∧
      Extends l (l.lift fun db => db.markMissingPath path) :=
  h.updateLocations _

theorem Tidy.insertFile (h : Tidy l) (rec : FileRecord) (scanMarker : Nat) (now : Int) :
    Tidy (l.insertFile rec scanMarker now) ∧ Extends l (l.insertFile rec scanMarker now) := by
  have hrows : (l.insertFile rec scanMarker now).rows =
      addRow l.rows (l.db.importId rec.hash, rec.path) := by
    unfold Located.insertFile
    rw [fileIdByHash_upsertContent rec now h.constraints]
  have hdb := l.insertFile_db rec scanMarker now
  refine ⟨⟨?_, ?_⟩, ?_, ?_⟩
  · rw [hdb]
    exact fileConstraints_insertFile rec now h.constraints scanMarker
  · intro k
    rw [hrows, hdb, insertFile_locations h.constraints, mem_addRow, h.numbered]
    by_cases hk : k = (l.db.importId rec.hash, rec.path)
    · rw [hk, AList.lookup_insert]
      simp
    · rw [AList.lookup_insert_ne hk]
      simp [hk]
  · rw [hrows]
    exact prefix_addRow _ _
  · intro f c hf
    rw [hdb, contentOf_insertFile h.constraints, if_neg ?_]
    · exact hf
    · rintro ⟨_, rfl⟩
      rw [contentOf, lookup_fresh] at hf
      cases hf

theorem Tidy.storeRecord (h : Tidy l) (record : FileRecord) (metadata : FileMetadata)
    (marker now : Nat) :
    Tidy (l.storeRecord record metadata marker now) ∧
      Extends l (l.storeRecord record metadata marker now) := by
  obtain ⟨htidy, hext⟩ := h.insertFile record marker now
  unfold Located.storeRecord
  split
  · exact ⟨htidy, hext⟩
  · obtain ⟨htidy', hext'⟩ := htidy.lift (f := fun db => db.updateMetadata record.hash metadata)
      (fileConstraints_updateMetadata htidy.constraints _ _) (fun _ => rfl)
      (contentOf_updateMetadata _ _)
    exact ⟨htidy', hext.trans hext'⟩

theorem Tidy.persist (h : Tidy l) (item : Pending) (marker now : Nat) :
    Tidy (l.persist item marker now) ∧ Extends l (l.persist item marker now) := by
  cases item with
  | touch path createdAt => exact h.updateLocations _
  | store record metadata => exact h.storeRecord record metadata marker now

theorem Tidy.onResults (h : Tidy l) (marker now : Nat) (results : List (Except ScanError Pending)) :
    Tidy (results.foldl (onResult marker now) l) ∧
      Extends l (results.foldl (onResult marker now) l) := by
  induction results generalizing l with
  | nil => exact ⟨h, .refl l⟩
  | cons res results ih =>
    cases res with
    | error e => exact ih h
    | ok item =>
      obtain ⟨hitem, hext⟩ := h.persist item marker now
      obtain ⟨htidy, hrest⟩ := ih hitem
      exact ⟨htidy, hext.trans hrest⟩

theorem Tidy.importPath {w : World} (h : Tidy l) (scan : Scan w) :
    Tidy (l.importPath scan) ∧ Extends l (l.importPath scan) := by
  obtain ⟨hrooted, hext⟩ := h.lift (f := fun db => db.addRoot scan.root)
    ⟨h.constraints.files_unique, h.constraints.location_file⟩ (fun _ => rfl) fun _ => rfl
  obtain ⟨hresults, hext'⟩ := hrooted.onResults
    ((l.db.addRoot scan.root).nextScanMarker scan.now) scan.now (results (l.db.addRoot scan.root) scan)
  obtain ⟨htidy, hext''⟩ := hresults.updateLocations fun p row =>
    if row.present ∧ row.lastSeen < (l.db.addRoot scan.root).nextScanMarker scan.now ∧
        subtreePredicate scan.root p then { row with present := false } else row
  exact ⟨htidy, (hext.trans hext').trans hext''⟩

theorem Tidy.step {w : World} (h : Tidy l) (event : Event w) :
    Tidy (l.step event) ∧ Extends l (l.step event) := by
  cases event with
  | importPath scan => exact h.importPath scan
  | scanStreaming scan => exact h.importPath scan
  | remove path => exact h.markMissingPath path
  | upsert path disk now =>
    show Tidy (reindexUpsert disk l path now) ∧ Extends l (reindexUpsert disk l path now)
    unfold reindexUpsert
    cases disk.hashFile path with
    | ok record => exact h.storeRecord record _ _ now
    | error e =>
      simp only
      split
      · exact h.markMissingPath path
      · exact ⟨h, .refl l⟩

end

/-! ## The row a path resolves to -/

def PresentAt (db : Db) (f : Nat) (p : Path) : Prop :=
  ∃ loc, db.locations.lookup (f, p) = some loc ∧ loc.present = true

/-- The row with the least id at a path. -/
def Oldest (l : Located) (f : Nat) (p : Path) : Prop :=
  ∃ before after, l.rows = before ++ (f, p) :: after ∧ ∀ k ∈ before, k.2 ≠ p

/-- Every path that has a present row resolves to a present row. -/
def Resolves (l : Located) : Prop :=
  ∀ p f, PresentAt l.db f p → ∃ g, l.fileIdByPath p = some g ∧ PresentAt l.db g p

section

variable {l l' : Located}

theorem fileIdByPath_eq_some {p : Path} {f : Nat} : l.fileIdByPath p = some f ↔ l.Oldest f p := by
  rw [fileIdByPath, Option.map_eq_some_iff]
  constructor
  · rintro ⟨⟨g, q⟩, hfind, rfl⟩
    obtain ⟨hq, before, after, heq, hbefore⟩ := List.find?_eq_some_iff_append.1 hfind
    obtain rfl : q = p := by simpa using hq
    exact ⟨before, after, heq, fun k hk => by simpa using hbefore k hk⟩
  · rintro ⟨before, after, heq, hbefore⟩
    refine ⟨(f, p), List.find?_eq_some_iff_append.2 ⟨by simp, before, after, heq, ?_⟩, rfl⟩
    intro k hk
    simpa using hbefore k hk

theorem Oldest.unique {p : Path} {f g : Nat} (hf : l.Oldest f p) (hg : l.Oldest g p) : f = g :=
  Option.some.inj ((fileIdByPath_eq_some.2 hf).symm.trans (fileIdByPath_eq_some.2 hg))

/-- The oldest row of a path stays the oldest. -/
theorem Oldest.mono {p : Path} {f : Nat} (hf : l.Oldest f p) (h : Extends l l') : l'.Oldest f p := by
  obtain ⟨before, after, heq, hbefore⟩ := hf
  obtain ⟨added, hadded⟩ := h.rows
  refine ⟨before, after ++ added, ?_, hbefore⟩
  rw [← hadded, heq, List.append_assoc, List.cons_append]

theorem exists_oldest {p : Path} {f : Nat} (hf : (f, p) ∈ l.rows) : ∃ g, l.Oldest g p := by
  have hsome : (l.rows.find? (·.2 = p)).isSome = true :=
    List.find?_isSome.2 ⟨(f, p), hf, by simp⟩
  obtain ⟨k, hk⟩ := Option.isSome_iff_exists.1 hsome
  exact ⟨k.1, fileIdByPath_eq_some.1 (by rw [fileIdByPath, hk]; rfl)⟩

theorem Oldest.content (h : Tidy l) {p : Path} {f : Nat} (hf : l.Oldest f p) :
    ∃ hash n loc, l.db.contentOf f = some (hash, n) ∧ l.db.locations.lookup (f, p) = some loc := by
  obtain ⟨before, after, heq, _⟩ := hf
  have hmem : (f, p) ∈ l.rows := by rw [heq]; simp
  obtain ⟨loc, hloc⟩ := Option.isSome_iff_exists.1 ((h.numbered _).1 hmem)
  obtain ⟨row, hrow⟩ := h.constraints.location_file f p loc hloc
  exact ⟨row.blake3, row.size, loc, by rw [contentOf, hrow]; rfl, hloc⟩

theorem presentAt_iff (h : Tidy l) {f n : Nat} {hash : Hash} {p : Path}
    (hf : l.db.contentOf f = some (hash, n)) : PresentAt l.db f p ↔ Present l.db hash p := by
  constructor
  · rintro ⟨loc, hloc, hpresent⟩
    exact ⟨loc, (place_eq_some h.constraints).2 ⟨f, n, hf, hloc⟩, hpresent⟩
  · rintro ⟨loc, hplace, hpresent⟩
    obtain ⟨g, m, hg, hloc⟩ := (place_eq_some h.constraints).1 hplace
    obtain rfl : g = f := (fileConstraints_iff.1 h.constraints).1 g f hash m n hg hf
    exact ⟨loc, hloc, hpresent⟩

theorem PresentAt.content (h : Tidy l) {f : Nat} {p : Path} (hf : PresentAt l.db f p) :
    ∃ hash n, l.db.contentOf f = some (hash, n) ∧ Present l.db hash p := by
  obtain ⟨loc, hloc, hpresent⟩ := hf
  obtain ⟨row, hrow⟩ := h.constraints.location_file f p loc hloc
  have hcontent : l.db.contentOf f = some (row.blake3, row.size) := by rw [contentOf, hrow]; rfl
  exact ⟨row.blake3, row.size, hcontent, (presentAt_iff h hcontent).1 ⟨loc, hloc, hpresent⟩⟩

/-- A step that stamps some rows, keeps others and adds only present rows at a path without rows
keeps paths resolved exactly when the oldest row is present after it wherever it stamps one. -/
theorem resolves_iff (h : Tidy l) (h' : Tidy l') (hext : Extends l l') (hres : l.Resolves)
    {stamped : Hash → Path → Prop} {kept : Path → Prop}
    (hpresent : ∀ hash p, Present l'.db hash p ↔ stamped hash p ∨ (Present l.db hash p ∧ kept p))
    (hfresh : ∀ p, (∀ f, ¬l.Oldest f p) → ∀ hash loc, l'.db.place hash p = some loc →
      loc.present = true) :
    l'.Resolves ↔ ∀ p hash f h n, stamped hash p → l.Oldest f p → l.db.contentOf f = some (h, n) →
      stamped h p ∨ (Present l.db h p ∧ kept p) := by
  constructor
  · intro hafter p hash f h₀ n hstamped hold hcontent
    obtain ⟨loc, hplace, hloc⟩ := (hpresent hash p).2 (.inl hstamped)
    obtain ⟨g, m, hg, hrow⟩ := (place_eq_some h'.constraints).1 hplace
    obtain ⟨f', hf', hthere⟩ := hafter p g ⟨loc, hrow, hloc⟩
    obtain rfl : f' = f := (fileIdByPath_eq_some.1 hf').unique (hold.mono hext)
    exact (hpresent h₀ p).1 ((presentAt_iff h' (hext.contents f' _ hcontent)).1 hthere)
  · intro hclean p g hg
    by_cases hnone : ∀ f, ¬l.Oldest f p
    · obtain ⟨loc, hloc, _⟩ := hg
      have hmem : (g, p) ∈ l'.rows := (h'.numbered _).2 (by rw [hloc]; rfl)
      obtain ⟨f, hf⟩ := exists_oldest hmem
      obtain ⟨hash, n, loc', hcontent, hloc'⟩ := hf.content h'
      have hplace : l'.db.place hash p = some loc' :=
        (place_eq_some h'.constraints).2 ⟨f, n, hcontent, hloc'⟩
      exact ⟨f, fileIdByPath_eq_some.2 hf, loc', hloc', hfresh p hnone hash loc' hplace⟩
    · obtain ⟨f, hf⟩ := not_forall_not.1 hnone
      obtain ⟨h₀, n, _, hcontent, _⟩ := hf.content h
      refine ⟨f, fileIdByPath_eq_some.2 (hf.mono hext), ?_⟩
      rw [presentAt_iff h' (hext.contents f _ hcontent), hpresent]
      obtain ⟨hash, m, hg', hthere⟩ := PresentAt.content h' hg
      rcases (hpresent hash p).1 hthere with hstamped | ⟨hbefore, hkept⟩
      · exact hclean p hash f h₀ n hstamped hf hcontent
      · obtain ⟨loc, hplace, hloc⟩ := hbefore
        obtain ⟨g', _, _, hrow⟩ := (place_eq_some h.constraints).1 hplace
        obtain ⟨f', hf', hpres⟩ := hres p g' ⟨loc, hrow, hloc⟩
        obtain rfl : f' = f := (fileIdByPath_eq_some.1 hf').unique hf
        exact .inr ⟨(presentAt_iff h hcontent).1 hpres, hkept⟩

end

/-! ## Steps -/

section

variable {w : World}

/-- Where a scan stores a content, the oldest row of the path is that of the content, or it is
present and the missing pass does not reach it. -/
def ClearScan (l : Located) (scan : Scan w) : Prop :=
  ∀ p ∈ scan.disk.walk scan.root, ∀ record metadata,
    classify scan.disk l.db.presentFingerprints p = .ok (.store record metadata) →
      ∀ f, l.Oldest f p → (∃ n, l.db.contentOf f = some (record.hash, n)) ∨
        (PresentAt l.db f p ∧ subtreePredicate scan.root p = false)

/-- The oldest row of the path is that of the content on disk, or it is present. -/
def ClearUpsert (l : Located) (path : Path) (disk : Disk w) : Prop :=
  ∀ record, disk.hashFile path = .ok record → ∀ f, l.Oldest f path →
    (∃ n, l.db.contentOf f = some (record.hash, n)) ∨ PresentAt l.db f path

def Clear (l : Located) : Event w → Prop
  | .importPath scan => l.ClearScan scan
  | .scanStreaming scan => l.ClearScan scan
  | .upsert path disk _ => l.ClearUpsert path disk
  | .remove _ => True

/-- What every run keeps. -/
structure Sound (w : World) (l : Located) : Prop extends Tidy l where
  recorded : Recorded w l.db

variable {l : Located}

/-- A path without rows has no content placed at it. -/
theorem place_eq_none (h : Tidy l) {p : Path} (hnone : ∀ f, ¬l.Oldest f p) (hash : Hash) :
    l.db.place hash p = none := by
  cases hplace : l.db.place hash p with
  | none => rfl
  | some loc =>
    obtain ⟨f, _, _, hrow⟩ := (place_eq_some h.constraints).1 hplace
    obtain ⟨g, hg⟩ := exists_oldest ((h.numbered (f, p)).2 (by rw [hrow]; rfl))
    exact absurd hg (hnone g)

theorem resolves_importPath (h : Sound w l) (hres : l.Resolves) (scan : Scan w) :
    (l.importPath scan).Resolves ↔ l.ClearScan scan := by
  obtain ⟨htidy, hext⟩ := h.toTidy.importPath scan
  have hdb := l.importPath_db scan
  have hpresent : ∀ hash p, Present (l.importPath scan).db hash p ↔ Stamped l.db scan hash p ∨
      (Present l.db hash p ∧ subtreePredicate scan.root p = false) := by
    intro hash p
    rw [hdb]
    exact present_importPath h.recorded hash p
  have hfresh : ∀ p, (∀ f, ¬l.Oldest f p) → ∀ hash loc,
      (l.importPath scan).db.place hash p = some loc → loc.present = true := by
    intro p hnone hash loc hplace
    rw [hdb, place_importPath h.recorded, place_eq_none h.toTidy hnone] at hplace
    by_cases hp : p ∈ scan.disk.walk scan.root
    · rw [if_pos hp] at hplace
      cases hitem : classify scan.disk l.db.presentFingerprints p with
      | error e => simp [hitem, settle] at hplace
      | ok item =>
        cases item with
        | touch path createdAt => simp [hitem, settle] at hplace
        | store record metadata =>
          by_cases hhash : hash = record.hash
          · simp only [hitem, settle, if_pos hhash, Option.map_some, Nat.lt_irrefl, false_and,
              and_false, if_false, Option.some.injEq] at hplace
            rw [← hplace]
          · simp [hitem, settle, hhash] at hplace
    · simp [hp] at hplace
  rw [resolves_iff h.toTidy htidy hext hres hpresent hfresh]
  constructor
  · intro hafter p hp record metadata hitem f hf
    obtain ⟨h₀, n, _, hcontent, _⟩ := hf.content h.toTidy
    rcases hafter p record.hash f h₀ n ⟨hp, .inr ⟨record, metadata, hitem, rfl⟩⟩ hf hcontent with
      hstamped | ⟨hthere, hsub⟩
    · rcases hstamped.2 with ⟨_, htouch, _⟩ | ⟨_, _, hstore, rfl⟩
      · rw [hitem] at htouch
        cases htouch
      · rw [hitem] at hstore
        cases hstore
        exact .inl ⟨n, hcontent⟩
    · exact .inr ⟨(presentAt_iff h.toTidy hcontent).2 hthere, hsub⟩
  · intro hclear p hash f h₀ n hstamped hf hcontent
    obtain ⟨hp, ⟨createdAt, htouch, _⟩ | ⟨record, metadata, hstore, rfl⟩⟩ := hstamped
    · obtain ⟨h₁, m, loc, hcontent', hrow⟩ := hf.content h.toTidy
      have hplace : l.db.place h₀ p = some loc :=
        (place_eq_some h.constraints).2 ⟨f, n, hcontent, hrow⟩
      exact .inl ⟨hp, .inl ⟨createdAt, htouch, by rw [hplace]; rfl⟩⟩
    · rcases hclear p hp record metadata hstore f hf with ⟨m, hsame⟩ | ⟨hthere, hsub⟩
      · rw [hcontent] at hsame
        cases hsame
        exact .inl ⟨hp, .inr ⟨record, metadata, hstore, rfl⟩⟩
      · exact .inr ⟨(presentAt_iff h.toTidy hcontent).1 hthere, hsub⟩

theorem resolves_storeRecord (h : Sound w l) (hres : l.Resolves) (record : FileRecord)
    (metadata : FileMetadata) (marker now : Nat) :
    (l.storeRecord record metadata marker now).Resolves ↔ ∀ f, l.Oldest f record.path →
      (∃ n, l.db.contentOf f = some (record.hash, n)) ∨ PresentAt l.db f record.path := by
  obtain ⟨htidy, hext⟩ := h.toTidy.storeRecord record metadata marker now
  have hplace : ∀ hash p, (l.storeRecord record metadata marker now).db.place hash p =
      if hash = record.hash ∧ p = record.path then
        some ⟨record.mtime, record.createdAt, true, marker⟩
      else l.db.place hash p := by
    intro hash p
    rw [storeRecord_db]
    exact place_storeRecord h.constraints hash p
  have hpresent : ∀ hash p, Present (l.storeRecord record metadata marker now).db hash p ↔
      (hash = record.hash ∧ p = record.path) ∨ (Present l.db hash p ∧ True) := by
    intro hash p
    rw [Present, hplace]
    by_cases hhere : hash = record.hash ∧ p = record.path
    · simp [hhere]
    · simp [hhere, Present]
  have hfresh : ∀ p, (∀ f, ¬l.Oldest f p) → ∀ hash loc,
      (l.storeRecord record metadata marker now).db.place hash p = some loc → loc.present = true := by
    intro p hnone hash loc hloc
    rw [hplace, place_eq_none h.toTidy hnone] at hloc
    split at hloc
    · cases hloc
      rfl
    · cases hloc
  rw [resolves_iff h.toTidy htidy hext hres hpresent hfresh]
  constructor
  · intro hafter f hf
    obtain ⟨h₀, n, _, hcontent, _⟩ := hf.content h.toTidy
    rcases hafter record.path record.hash f h₀ n ⟨rfl, rfl⟩ hf hcontent with ⟨rfl, _⟩ | ⟨hthere, _⟩
    · exact .inl ⟨n, hcontent⟩
    · exact .inr ((presentAt_iff h.toTidy hcontent).2 hthere)
  · rintro hclear p hash f h₀ n ⟨rfl, rfl⟩ hf hcontent
    rcases hclear f hf with ⟨m, hsame⟩ | hthere
    · rw [hcontent] at hsame
      cases hsame
      exact .inl ⟨rfl, rfl⟩
    · exact .inr ⟨(presentAt_iff h.toTidy hcontent).1 hthere, trivial⟩

/-- Marking a subtree missing takes all rows of a path or none. -/
theorem resolves_markMissingPath (h : Sound w l) (hres : l.Resolves) (path : Path) :
    (l.lift fun db => db.markMissingPath path).Resolves := by
  obtain ⟨htidy, hext⟩ := h.toTidy.markMissingPath path
  have hplace : ∀ hash p, (l.lift fun db => db.markMissingPath path).db.place hash p =
      (l.db.place hash p).map fun row =>
        if row.present ∧ subtreePredicate path p then { row with present := false } else row :=
    fun hash p => place_updateLocations _ hash p
  have hpresent : ∀ hash p, Present (l.lift fun db => db.markMissingPath path).db hash p ↔
      False ∨ (Present l.db hash p ∧ subtreePredicate path p = false) := by
    intro hash p
    rw [Present, hplace, Present]
    cases l.db.place hash p with
    | none => simp
    | some row =>
      cases hrow : row.present with
      | false => simp [hrow]
      | true =>
        cases subtreePredicate path p with
        | false => simp [hrow]
        | true => simp [hrow]
  refine (resolves_iff h.toTidy htidy hext hres hpresent ?_).2 ?_
  · intro p hnone hash loc hloc
    rw [hplace, place_eq_none h.toTidy hnone] at hloc
    cases hloc
  · intro p hash f h₀ n hstamped
    exact absurd hstamped id

theorem resolves_step (h : Sound w l) (hres : l.Resolves) (event : Event w) :
    (l.step event).Resolves ↔ l.Clear event := by
  cases event with
  | importPath scan => exact resolves_importPath h hres scan
  | scanStreaming scan => exact resolves_importPath h hres scan
  | remove path => exact iff_of_true (resolves_markMissingPath h hres path) trivial
  | upsert path disk now =>
    show (reindexUpsert disk l path now).Resolves ↔ l.ClearUpsert path disk
    unfold reindexUpsert ClearUpsert
    cases hfile : disk.hashFile path with
    | ok record =>
      obtain ⟨file, _, _, rfl⟩ := Disk.hashFile_ok hfile
      rw [resolves_storeRecord h hres]
      simp only [Except.ok.injEq, forall_eq']
    | error e =>
      refine iff_of_true ?_ fun record hrecord => ?_
      · simp only
        split
        · exact resolves_markMissingPath h hres path
        · exact hres
      · cases hrecord

theorem Sound.step (h : Sound w l) (event : Event w) : Sound w (l.step event) := by
  refine ⟨(h.toTidy.step event).1, ?_⟩
  rw [step_db]
  cases event with
  | importPath scan => exact h.recorded.importPath scan
  | scanStreaming scan =>
    show Recorded w (Daemon.scanStreaming l.db scan).1
    rw [scanStreaming_eq]
    exact h.recorded.importPath scan
  | remove path => exact h.recorded.markMissingPath path
  | upsert path disk now =>
    show Recorded w ((Daemon.reindexUpsert disk l.db path now).toOption.getD l.db)
    unfold Daemon.reindexUpsert
    cases hfile : disk.hashFile path with
    | ok record => exact h.recorded.storeRecord (Disk.hashFile_faithful hfile)
    | error e =>
      simp only
      split
      · exact h.recorded.markMissingPath path
      · exact h.recorded

end

theorem sound_empty (w : World) : Sound w empty := by
  have hgood : Good w Db.empty := good_empty
  refine ⟨⟨hgood.constraints, ?_⟩, hgood.toRecorded⟩
  intro k
  have hnone : empty.db.locations.lookup k = none := rfl
  rw [hnone]
  simp [empty]

/-- **In every state of a run of scans and watch events a path with a present row resolves to a
present row, if and only if no step stores a content at a path whose oldest row is of another
content and missing, or marked missing by that step.** -/
theorem path_lookup_iff {w : World} (events : List (Event w)) :
    (∀ before, before <+: events → (run step empty before).Resolves) ↔
      AllSteps step Clear empty events := by
  have hempty : empty.Resolves := by
    rintro p f ⟨loc, hloc, _⟩
    cases hloc
  exact allSteps_iff (sound_empty w) hempty (fun _ event h => Sound.step h event)
    fun _ event h hres => resolves_step h hres event

/-- A file edited between two scans. -/
def editedBetween : Located :=
  run step empty [.importPath (scanOriginal 1000), .importPath (scanEdited 2000)]

/-- Its path has a present row and resolves to the content it no longer holds. -/
theorem path_lookup_edited :
    editedBetween.fileIdByPath photo = some 1 ∧ PresentAt editedBetween.db 2 photo ∧
      ¬editedBetween.Resolves := by
  have hlookup : editedBetween.fileIdByPath photo = some 1 := by decide
  have hedited : PresentAt editedBetween.db 2 photo :=
    ⟨⟨some 200, none, true, 2000⟩, by decide, rfl⟩
  have horiginal : editedBetween.db.locations.lookup (1, photo) =
      some ⟨some 100, none, false, 1000⟩ := by decide
  refine ⟨hlookup, hedited, ?_⟩
  intro hres
  obtain ⟨f, hf, loc, hloc, hpresent⟩ := hres photo 2 hedited
  obtain rfl : f = 1 := Option.some.inj (hf.symm.trans hlookup)
  rw [horiginal] at hloc
  cases hloc
  cases hpresent

end Located

end Daemon
end Naiad
