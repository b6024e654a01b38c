import Naiad.Daemon.Scan

/-!
# Naiad.Daemon.ScanRows

The location rows after the writes of a scan, in whatever order its results arrive: each result
settles the rows at its own path, and the missing pass takes what no result stamped.

* `place_onResults`: the rows after all results of a scan.
* `present_importPath`: the rows a scan leaves present.
-/

namespace Naiad
namespace Daemon

open Lib Db

variable {w : World}

/-! ## Files and rows -/

/-- The content is listed at the path. -/
def Present (db : Db) (hash : Hash) (p : Path) : Prop :=
  ∃ loc, db.place hash p = some loc ∧ loc.present = true

/-- The content of a readable file. -/
def Disk.contentOf (disk : Disk w) (p : Path) : Option Hash :=
  (disk.hashFile p).toOption.map FileRecord.hash

/-- The size and mtime of a file are the known ones. -/
def Unchanged (disk : Disk w) (known : Known) (p : Path) : Prop :=
  ∃ fp, (disk.fingerprint p).toOption = some fp ∧ known.lookup p = some (fp.size, fp.mtime)

instance (disk : Disk w) (known : Known) (p : Path) : Decidable (Unchanged disk known p) :=
  decidable_of_iff ((disk.fingerprint p).toOption.any fun fp =>
    known.lookup p = some (fp.size, fp.mtime)) (by simp [Unchanged, Option.any_eq_true])

/-! ## Records -/

theorem Disk.hashFile_ok {disk : Disk w} {p : Path} {record : FileRecord}
    (h : disk.hashFile p = .ok record) :
    ∃ f, disk.files.lookup p = some f ∧ f.statOk = true ∧
      record = ⟨f.hash, p, f.size, f.mtime, f.createdAt, some f.sha256⟩ := by
  unfold hashFile at h
  split at h
  · cases h
  · rename_i f hf
    split at h
    · rename_i hok
      cases h
      exact ⟨f, hf, (Bool.and_eq_true_iff.1 hok).1, rfl⟩
    · cases h

theorem Disk.fingerprint_ok {disk : Disk w} {p : Path} {fp : Fingerprint}
    (h : disk.fingerprint p = .ok fp) :
    ∃ f, disk.files.lookup p = some f ∧ fp = ⟨f.size, f.mtime, f.createdAt⟩ := by
  unfold fingerprint at h
  split at h
  · cases h
  · rename_i f hf
    split at h
    · cases h
      exact ⟨f, hf, rfl⟩
    · cases h

/-- A hashed file's size and mtime stand for its content. -/
def FaithfulRecord (w : World) (record : FileRecord) : Prop :=
  record.size = w.sizeOf record.hash ∧
    w.contentAt record.path (w.sizeOf record.hash) record.mtime = record.hash

theorem Disk.hashFile_faithful {disk : Disk w} {p : Path} {record : FileRecord}
    (h : disk.hashFile p = .ok record) : FaithfulRecord w record := by
  obtain ⟨f, hf, _, rfl⟩ := hashFile_ok h
  obtain ⟨hsize, hcontent⟩ := disk.faithful p f hf
  refine ⟨hsize, ?_⟩
  show w.contentAt p (w.sizeOf f.hash) f.mtime = f.hash
  rw [← hsize]
  exact hcontent

/-- What a classification can be. -/
theorem classify_ok {disk : Disk w} {known : Known} {p : Path} {item : Pending}
    (h : classify disk known p = .ok item) :
    (∃ createdAt, item = .touch p createdAt ∧ Unchanged disk known p) ∨
      ∃ record metadata, item = .store record metadata ∧ disk.hashFile p = .ok record := by
  unfold classify at h
  split at h
  · cases h
  · rename_i fp hfp
    split at h
    · rename_i hknown
      cases h
      exact .inl ⟨_, rfl, fp, by rw [hfp]; rfl, hknown⟩
    · split at h
      · cases h
      · rename_i record hrecord
        cases h
        exact .inr ⟨record, _, rfl, hrecord⟩

theorem classify_path {disk : Disk w} {known : Known} {p : Path} {item : Pending}
    (h : classify disk known p = .ok item) : item.path = p := by
  rcases classify_ok h with ⟨_, rfl, _⟩ | ⟨record, _, rfl, hrecord⟩
  · rfl
  · obtain ⟨f, _, _, rfl⟩ := Disk.hashFile_ok hrecord
    rfl

/-- A readable file is classified, as unchanged or with its record. -/
theorem classify_of_contentOf {disk : Disk w} (known : Known) {p : Path} {hash : Hash}
    (h : disk.contentOf p = some hash) :
    (∃ createdAt, classify disk known p = .ok (.touch p createdAt) ∧ Unchanged disk known p) ∨
      ∃ record metadata, classify disk known p = .ok (.store record metadata) ∧
        record.hash = hash := by
  obtain ⟨record, hrecord, hhash⟩ := Option.map_eq_some_iff.1 h
  cases hfile : disk.hashFile p with
  | error e =>
    rw [hfile] at hrecord
    cases hrecord
  | ok record' =>
    rw [hfile] at hrecord
    cases hrecord
    obtain ⟨f, hf, hstat, _⟩ := Disk.hashFile_ok hfile
    have hfp : disk.fingerprint p = .ok ⟨f.size, f.mtime, f.createdAt⟩ := by
      simp [Disk.fingerprint, hf, hstat]
    by_cases hknown : known.lookup p = some (f.size, f.mtime)
    · exact .inl ⟨f.createdAt, by simp [classify, hfp, hknown], _, by rw [hfp]; rfl, hknown⟩
    · refine .inr ⟨record, disk.extractMetadata record.path, ?_, hhash⟩
      simp only [classify, hfp, hfile, if_neg hknown]

/-! ## One write -/

/-- Every content row has its content's size and every location row an mtime that stands for its
content. -/
structure Recorded (w : World) (db : Db) : Prop where
  constraints : db.FileConstraints
  sizes : ∀ f hash size, db.contentOf f = some (hash, size) → size = w.sizeOf hash
  mtimes : ∀ hash p loc, db.place hash p = some loc →
    w.contentAt p (w.sizeOf hash) loc.mtime = hash

section

variable {db : Db} {marker now : Nat} {record : FileRecord} {metadata : FileMetadata}

theorem contentOf_storeRecord (hc : db.FileConstraints) (f : Nat) :
    (storeRecord db record metadata marker now).contentOf f =
      if db.fileIdByHash record.hash = none ∧ f = db.maxFileId + 1 then
        some (record.hash, record.size)
      else db.contentOf f := by
  unfold storeRecord
  split
  · exact contentOf_insertFile hc marker f
  · rw [contentOf_updateMetadata]
    exact contentOf_insertFile hc marker f

theorem fileConstraints_storeRecord (hc : db.FileConstraints) :
    (storeRecord db record metadata marker now).FileConstraints := by
  unfold storeRecord
  split
  · exact fileConstraints_insertFile _ _ hc marker
  · exact fileConstraints_updateMetadata (fileConstraints_insertFile _ _ hc marker) _ _

theorem place_storeRecord (hc : db.FileConstraints) (hash : Hash) (p : Path) :
    (storeRecord db record metadata marker now).place hash p =
      if hash = record.hash ∧ p = record.path then
        some ⟨record.mtime, record.createdAt, true, marker⟩
      else db.place hash p := by
  unfold storeRecord
  split
  · exact place_insertFile hc marker hash p
  · rw [place_updateMetadata (fileConstraints_insertFile _ _ hc marker)]
    exact place_insertFile hc marker hash p

theorem Recorded.storeRecord (h : Recorded w db) (hrecord : FaithfulRecord w record) :
    Recorded w (storeRecord db record metadata marker now) := by
  refine ⟨fileConstraints_storeRecord h.constraints, ?_, ?_⟩
  · intro f hash size hcontent
    rw [contentOf_storeRecord h.constraints] at hcontent
    split at hcontent
    · cases hcontent
      exact hrecord.1
    · exact h.sizes f hash size hcontent
  · intro hash p loc hplace
    rw [place_storeRecord h.constraints] at hplace
    split at hplace
    · rename_i hhere
      obtain ⟨rfl, rfl⟩ := hhere
      cases hplace
      exact hrecord.2
    · exact h.mtimes hash p loc hplace

theorem Recorded.updateLocations {g : Path → LocationRow → LocationRow} (h : Recorded w db)
    (hg : ∀ p row, (g p row).mtime = row.mtime) : Recorded w (db.updateLocations g) := by
  refine ⟨fileConstraints_updateLocations h.constraints g, h.sizes, ?_⟩
  intro hash p loc hplace
  rw [place_updateLocations] at hplace
  obtain ⟨old, hold, rfl⟩ := Option.map_eq_some_iff.1 hplace
  rw [hg]
  exact h.mtimes hash p old hold

theorem Recorded.markMissingPath (h : Recorded w db) (path : Path) :
    Recorded w (db.markMissingPath path) := by
  apply h.updateLocations
  intro p row
  split
  · rfl
  · rfl

theorem Recorded.markMissingUnderBefore (h : Recorded w db) (root : Path) (marker : Nat) :
    Recorded w (db.markMissingUnderBefore root marker) := by
  apply h.updateLocations
  intro p row
  split
  · rfl
  · rfl

theorem Recorded.persist {disk : Disk w} {known : Known} {p : Path} {item : Pending}
    (h : Recorded w db) (hitem : classify disk known p = .ok item) :
    Recorded w (persist db item marker now) := by
  rcases classify_ok hitem with ⟨createdAt, rfl, _⟩ | ⟨record, metadata, rfl, hrecord⟩
  · show Recorded w (db.touchLocation p marker createdAt)
    apply h.updateLocations
    intro p row
    split
    · rfl
    · rfl
  · exact h.storeRecord (Disk.hashFile_faithful hrecord)

/-- What one result makes of a location row at its path. -/
def settle (marker : Nat) (hash : Hash) (old : Option LocationRow) :
    Except ScanError Pending → Option LocationRow
  | .error _ => old
  | .ok (.touch _ createdAt) =>
    old.map fun row =>
      if row.lastSeen < marker then
        { row with present := true, lastSeen := marker, createdAt := row.createdAt.or createdAt }
      else row
  | .ok (.store record _) =>
    if hash = record.hash then some ⟨record.mtime, record.createdAt, true, marker⟩ else old

theorem place_persist (hc : db.FileConstraints) (item : Pending) (hash : Hash) (p : Path) :
    (persist db item marker now).place hash p =
      if p = item.path then settle marker hash (db.place hash p) (.ok item)
      else db.place hash p := by
  cases item with
  | touch path createdAt =>
    show (db.touchLocation path marker createdAt).place hash p = if p = path then _ else _
    rw [touchLocation, place_updateLocations]
    by_cases hp : p = path
    · simp [hp, settle]
    · simp [hp]
  | store record metadata =>
    show (storeRecord db record metadata marker now).place hash p = if p = record.path then _ else _
    rw [place_storeRecord hc]
    by_cases hp : p = record.path
    · simp [hp, settle]
    · simp [hp]

/-! ## One scan -/

/-- The results of a scan, each applied to the rows at its own path. -/
theorem place_onResults (disk : Disk w) (known : Known) (marker now : Nat) (arrivals : List (Except ScanError Path))
    (hnodup : (arrivals.filterMap Except.toOption).Nodup) (s : Db × ImportSummary)
    (h : Recorded w s.1) :
    Recorded w ((classifyWalk disk known arrivals).foldl (onResult marker now) s).1 ∧
      ∀ hash p, ((classifyWalk disk known arrivals).foldl (onResult marker now) s).1.place hash p =
        if p ∈ arrivals.filterMap Except.toOption then
          settle marker hash (s.1.place hash p) (classify disk known p)
        else s.1.place hash p := by
  induction arrivals generalizing s with
  | nil => exact ⟨h, fun _ _ => rfl⟩
  | cons entry arrivals ih =>
    cases entry with
    | error e => exact ih hnodup _ h
    | ok q =>
      have hwalk : classifyWalk disk known (.ok q :: arrivals) =
        classify disk known q :: classifyWalk disk known arrivals := rfl
      have hq : ((Except.ok q :: arrivals).filterMap Except.toOption : List Path) =
        q :: arrivals.filterMap Except.toOption := rfl
      rw [hq] at hnodup ⊢
      rw [hwalk, List.foldl_cons]
      obtain ⟨hfresh, hnodup⟩ := List.nodup_cons.1 hnodup
      cases hitem : classify disk known q with
      | error e =>
        obtain ⟨hrec, hplace⟩ := ih hnodup (onResult marker now s (.error e)) h
        refine ⟨hrec, ?_⟩
        intro hash p
        refine (hplace hash p).trans ?_
        by_cases hp : p = q
        · subst hp
          rw [if_neg hfresh, if_pos (by simp), hitem]
          rfl
        · simp [hp, onResult]
      | ok item =>
        obtain ⟨hrec, hplace⟩ := ih hnodup (onResult marker now s (.ok item)) (h.persist hitem)
        refine ⟨hrec, ?_⟩
        intro hash p
        refine (hplace hash p).trans ?_
        have hpath := classify_path hitem
        simp only [onResult, place_persist h.constraints, hpath]
        by_cases hp : p = q
        · subst hp
          rw [if_neg hfresh, if_pos rfl, if_pos (by simp), hitem]
        · simp [hp]

end

/-- The marker a scan stamps with. -/
def scanMarker (db : Db) (scan : Scan w) : Nat := (db.addRoot scan.root).nextScanMarker scan.now

theorem Recorded.addRoot {db : Db} (h : Recorded w db) (root : Path) :
    Recorded w (db.addRoot root) :=
  ⟨⟨h.constraints.files_unique, h.constraints.location_file⟩, h.sizes, h.mtimes⟩

theorem Disk.walk_nodup (disk : Disk w) (root : Path) : (disk.walk root).Nodup :=
  disk.files.keys_nodup.filter _

section

variable {db : Db} {scan : Scan w}

theorem results_spec (h : Recorded w db) :
    Recorded w ((results (db.addRoot scan.root) scan).foldl
        (onResult (scanMarker db scan) scan.now) (db.addRoot scan.root, default)).1 ∧
      ∀ hash p, ((results (db.addRoot scan.root) scan).foldl
          (onResult (scanMarker db scan) scan.now) (db.addRoot scan.root, default)).1.place hash p =
        if p ∈ scan.disk.walk scan.root then
          settle (scanMarker db scan) hash (db.place hash p)
            (classify scan.disk db.presentFingerprints p)
        else db.place hash p := by
  obtain ⟨hrec, hplace⟩ := place_onResults scan.disk db.presentFingerprints (scanMarker db scan) scan.now
    scan.arrivals
    (scan.arrivals_perm.nodup_iff.2 (scan.disk.walk_nodup scan.root))
    (db.addRoot scan.root, default) (h.addRoot scan.root)
  refine ⟨hrec, ?_⟩
  intro hash p
  refine (hplace hash p).trans ?_
  simp only [scan.arrivals_perm.mem_iff]
  rfl

theorem Recorded.importPath (h : Recorded w db) (scan : Scan w) :
    Recorded w (importPath db scan).1 :=
  (results_spec h).1.markMissingUnderBefore scan.root _

/-- The scan stamps the row of the content at the path. -/
def Stamped (db : Db) (scan : Scan w) (hash : Hash) (p : Path) : Prop :=
  p ∈ scan.disk.walk scan.root ∧
    ((∃ createdAt, classify scan.disk db.presentFingerprints p = .ok (.touch p createdAt) ∧
        (db.place hash p).isSome = true) ∨
      ∃ record metadata,
        classify scan.disk db.presentFingerprints p = .ok (.store record metadata) ∧
          hash = record.hash)

theorem place_importPath (h : Recorded w db) (hash : Hash) (p : Path) :
    (importPath db scan).1.place hash p =
      (if p ∈ scan.disk.walk scan.root then
          settle (scanMarker db scan) hash (db.place hash p)
            (classify scan.disk db.presentFingerprints p)
        else db.place hash p).map fun row =>
          if row.present ∧ row.lastSeen < scanMarker db scan ∧ subtreePredicate scan.root p then
            { row with present := false }
          else row := by
  rw [← (results_spec h).2 hash p]
  exact place_updateLocations _ hash p

/-- A row not stamped by the scan stays as it is, or is marked missing where the pass reaches. -/
theorem present_of_old {old : Option LocationRow} {marker : Nat} (root p : Path)
    (hold : ∀ row, old = some row → row.lastSeen < marker) :
    (∃ loc, (old.map fun row =>
        if row.present ∧ row.lastSeen < marker ∧ subtreePredicate root p then
          { row with present := false }
        else row) = some loc ∧ loc.present = true) ↔
      (∃ loc, old = some loc ∧ loc.present = true) ∧ subtreePredicate root p = false := by
  cases old with
  | none => simp
  | some row =>
    have hlt := hold row rfl
    cases hpresent : row.present with
    | false => simp [hpresent]
    | true =>
      cases hsub : subtreePredicate root p with
      | false => simp [hpresent]
      | true => simp [hlt, hpresent]

/-- A scan leaves present what it stamps, and what was present where its missing pass does not
reach. -/
theorem present_importPath (h : Recorded w db) (hash : Hash) (p : Path) :
    Present (importPath db scan).1 hash p ↔
      Stamped db scan hash p ∨
        (Present db hash p ∧ subtreePredicate scan.root p = false) := by
  have hold : ∀ row, db.place hash p = some row → row.lastSeen < scanMarker db scan := by
    intro row hrow
    exact lastSeen_lt_marker (h.addRoot scan.root).constraints hrow
  have hunstamped := present_of_old scan.root p hold
  simp only [Present, place_importPath h, Stamped]
  by_cases hp : p ∈ scan.disk.walk scan.root
  · rw [if_pos hp]
    cases hitem : classify scan.disk db.presentFingerprints p with
    | error e => simpa [settle, hp] using hunstamped
    | ok item =>
      have hpath := classify_path hitem
      cases item with
      | touch path createdAt =>
        obtain rfl : path = p := hpath
        cases hrow : db.place hash path with
        | none => simp [settle]
        | some row => simp [settle, hold row hrow, hp]
      | store record metadata =>
        by_cases hhash : hash = record.hash
        · simp [settle, hhash, hp]
        · simpa [settle, hhash, hp] using hunstamped
  · rw [if_neg hp]
    simpa [hp] using hunstamped

end

end Daemon
end Naiad
