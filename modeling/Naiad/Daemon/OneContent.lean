import Naiad.Daemon.ScanRows
import Naiad.Lib.Run

/-!
# Naiad.Daemon.OneContent

What the location rows say of the disk over runs of scans and watch events: at most one content
present at a path, and after a scan exactly the contents that are there.

* `reconciled_importPath`: one scan.
* `one_present_content`: runs whose steps keep clear of the rows of replaced contents.
-/

namespace Naiad
namespace Daemon

open Lib Db

variable {w : World}

/-! ## Runs -/

/-- Operations, each with the disk it sees. -/
inductive Event (w : World)
  | importPath (scan : Scan w)
  | scanStreaming (scan : Scan w)
  | upsert (path : Path) (disk : Disk w) (now : Nat)
  | remove (path : Path)

/-- One completed operation; a failed one writes nothing. -/
def step (db : Db) : Event w → Db
  | .importPath scan => (importPath db scan).1
  | .scanStreaming scan => (scanStreaming db scan).1
  | .upsert path disk now => (reindexUpsert disk db path now).toOption.getD db
  | .remove path => reindexRemove db path

def Event.scan? : Event w → Option (Scan w)
  | .importPath scan => some scan
  | .scanStreaming scan => some scan
  | .upsert _ _ _ => none
  | .remove _ => none

/-! ## What the rows should say -/

/-- At most one location row of a path is present. -/
def OnePresent (db : Db) : Prop :=
  ∀ p f g loc loc', db.locations.lookup (f, p) = some loc → loc.present = true →
    db.locations.lookup (g, p) = some loc' → loc'.present = true → f = g

/-- Under the root, the present locations are the walked files that can be read, each with the
content it has. -/
def Reconciled (db : Db) (scan : Scan w) : Prop :=
  ∀ hash p, under scan.root p = true →
    (Present db hash p ↔ p ∈ scan.disk.walk scan.root ∧ scan.disk.contentOf p = some hash)

/-! ## Steps that keep clear of replaced contents -/

/-- An unchanged file can be read and no row at its path is missing; a present row beneath the root
that the missing pass does not reach is that of the file. -/
def CleanScan (db : Db) (scan : Scan w) : Prop :=
  (∀ p ∈ scan.disk.walk scan.root, Unchanged scan.disk db.presentFingerprints p →
    (scan.disk.contentOf p).isSome = true ∧
      ∀ e ∈ db.locations.entries, e.1.2 = p → e.2.present = true) ∧
  ∀ e ∈ db.locations.entries, e.2.present = true → under scan.root e.1.2 = true →
    subtreePredicate scan.root e.1.2 = false →
      e.1.2 ∈ scan.disk.walk scan.root ∧
        scan.disk.contentOf e.1.2 = (db.contentOf e.1.1).map Prod.fst

/-- No other content is present at the path. -/
def CleanUpsert (db : Db) (path : Path) (disk : Disk w) : Prop :=
  ∀ hash ∈ disk.contentOf path, ∀ e ∈ db.locations.entries, e.1.2 = path → e.2.present = true →
    (db.contentOf e.1.1).map Prod.fst = some hash

instance (db : Db) (scan : Scan w) : Decidable (CleanScan db scan) :=
  inferInstanceAs (Decidable (_ ∧ _))

instance (db : Db) (path : Path) (disk : Disk w) : Decidable (CleanUpsert db path disk) :=
  inferInstanceAs (Decidable (∀ hash ∈ disk.contentOf path, _))

def Clean (db : Db) : Event w → Prop
  | .importPath scan => CleanScan db scan
  | .scanStreaming scan => CleanScan db scan
  | .upsert path disk _ => CleanUpsert db path disk
  | .remove _ => True

instance (db : Db) : (event : Event w) → Decidable (Clean db event)
  | .importPath scan => inferInstanceAs (Decidable (CleanScan db scan))
  | .scanStreaming scan => inferInstanceAs (Decidable (CleanScan db scan))
  | .upsert path disk _ => inferInstanceAs (Decidable (CleanUpsert db path disk))
  | .remove _ => isTrue trivial

/-! ## Scans -/

section

variable {db : Db} {scan : Scan w}

/-- At a path that is not walked a scan stamps nothing. -/
theorem under_of_mem_walk {disk : Disk w} {root p : Path} (h : p ∈ disk.walk root) :
    under root p = true := by
  obtain ⟨_, htest⟩ := List.mem_filter.1 h
  rw [Bool.and_eq_true, Bool.and_eq_true] at htest
  exact htest.1.1

theorem under_of_subtreePredicate {root path : Path} (h : subtreePredicate root path = true) :
    under root path = true := by
  rw [under, Bool.or_eq_true, Bool.or_eq_true, decide_eq_true_iff]
  refine .inl ?_
  rcases subtreePredicate_iff.1 h with heq | hprefix
  · exact .inl heq
  · exact .inr (List.isPrefixOf_iff_prefix.2 hprefix)

/-- The missing pass reaches everything beneath a root not spelled with a trailing separator. -/
theorem subtreePredicate_of_under {root path : Path} (hroot : root.getLast? ≠ some separator)
    (h : under root path = true) : subtreePredicate root path = true := by
  rw [under, Bool.or_eq_true, Bool.or_eq_true, decide_eq_true_iff] at h
  rw [subtreePredicate_iff]
  rcases h with (heq | hprefix) | hlast
  · exact .inl heq
  · exact .inr (List.isPrefixOf_iff_prefix.1 hprefix)
  · exact absurd (of_decide_eq_true (Bool.and_eq_true_iff.1 hlast).1) hroot

/-- The invariant of clean runs. -/
structure Good (w : World) (db : Db) : Prop extends Recorded w db where
  one : ∀ hash hash' p, Present db hash p → Present db hash' p → hash = hash'

/-- A known fingerprint is that of a row present with the file's own content. -/
theorem present_of_unchanged (h : Recorded w db) {disk : Disk w} {p : Path} {f : DiskFile}
    (hf : disk.files.lookup p = some f) (hunchanged : Unchanged disk db.presentFingerprints p) :
    Present db f.hash p := by
  obtain ⟨fp, hfp, hknown⟩ := hunchanged
  cases hfingerprint : disk.fingerprint p with
  | error e =>
    rw [hfingerprint] at hfp
    cases hfp
  | ok fp' =>
    rw [hfingerprint] at hfp
    cases hfp
    obtain ⟨f', hf', rfl⟩ := Disk.fingerprint_ok hfingerprint
    obtain rfl : f' = f := Option.some.inj (hf'.symm.trans hf)
    obtain ⟨g, hash, loc, hcontent, hplace, hpresent, hmtime⟩ :=
      presentFingerprints_some h.constraints hknown
    have hsize : f'.size = w.sizeOf hash := h.sizes g hash f'.size hcontent
    have hrecorded := h.mtimes hash p loc hplace
    rw [hmtime, ← hsize] at hrecorded
    obtain rfl : f'.hash = hash := ((disk.faithful p f' hf).2).symm.trans hrecorded
    exact ⟨loc, hplace, hpresent⟩

theorem Disk.contentOf_some {disk : Disk w} {p : Path} {hash : Hash}
    (h : disk.contentOf p = some hash) :
    ∃ f, disk.files.lookup p = some f ∧ f.hash = hash := by
  obtain ⟨record, hrecord, rfl⟩ := Option.map_eq_some_iff.1 h
  cases hfile : disk.hashFile p with
  | error e =>
    rw [hfile] at hrecord
    cases hrecord
  | ok record' =>
    rw [hfile] at hrecord
    cases hrecord
    obtain ⟨f, hf, _, rfl⟩ := hashFile_ok hfile
    exact ⟨f, hf, rfl⟩

theorem Disk.contentOf_of_hashFile {disk : Disk w} {p : Path} {record : FileRecord}
    (h : disk.hashFile p = .ok record) : disk.contentOf p = some record.hash := by
  rw [contentOf, h]
  rfl

/-- What a clean scan stamps is what is on disk. -/
theorem stamped_iff (h : Good w db) (hclean : CleanScan db scan) (hash : Hash) (p : Path) :
    Stamped db scan hash p ↔
      p ∈ scan.disk.walk scan.root ∧ scan.disk.contentOf p = some hash := by
  unfold Stamped
  refine and_congr_right fun hp => ?_
  constructor
  · rintro (⟨createdAt, hitem, hsome⟩ | ⟨record, metadata, hitem, rfl⟩)
    · rcases classify_ok hitem with ⟨_, _, hunchanged⟩ | ⟨_, _, heq, _⟩
      · obtain ⟨hreadable, hrows⟩ := hclean.1 p hp hunchanged
        obtain ⟨hash', hcontent⟩ := Option.isSome_iff_exists.1 hreadable
        obtain ⟨f, hf, rfl⟩ := Disk.contentOf_some hcontent
        obtain ⟨loc, hplace⟩ := Option.isSome_iff_exists.1 hsome
        obtain ⟨g, size, _, hl⟩ := (place_eq_some h.constraints).1 hplace
        have hpresent : Present db hash p :=
          ⟨loc, hplace, hrows _ (Table.mem_entries.2 hl) rfl⟩
        rw [hcontent, h.one hash f.hash p hpresent (present_of_unchanged h.toRecorded hf hunchanged)]
      · cases heq
    · rcases classify_ok hitem with ⟨_, heq, _⟩ | ⟨_, _, heq, hrecord⟩
      · cases heq
      · cases heq
        exact Disk.contentOf_of_hashFile hrecord
  · intro hcontent
    rcases classify_of_contentOf db.presentFingerprints hcontent with
      ⟨createdAt, hitem, hunchanged⟩ | ⟨record, metadata, hitem, rfl⟩
    · obtain ⟨f, hf, rfl⟩ := Disk.contentOf_some hcontent
      obtain ⟨loc, hplace, _⟩ := present_of_unchanged h.toRecorded hf hunchanged
      exact .inl ⟨createdAt, hitem, by rw [hplace]; rfl⟩
    · exact .inr ⟨record, metadata, hitem, rfl⟩

theorem reconciled_importPath (h : Good w db) (hclean : CleanScan db scan) :
    Reconciled (importPath db scan).1 scan := by
  intro hash p hunder
  rw [present_importPath h.toRecorded, stamped_iff h hclean]
  constructor
  · rintro (hstamped | ⟨⟨loc, hplace, hpresent⟩, hsub⟩)
    · exact hstamped
    · obtain ⟨f, size, hcontent, hl⟩ := (place_eq_some h.constraints).1 hplace
      obtain ⟨hp, heq⟩ := hclean.2 _ (Table.mem_entries.2 hl) hpresent hunder hsub
      refine ⟨hp, heq.trans ?_⟩
      rw [hcontent]
      rfl
  · exact .inl

theorem Good.importPath (h : Good w db) (hclean : CleanScan db scan) :
    Good w (importPath db scan).1 := by
  refine ⟨h.toRecorded.importPath scan, ?_⟩
  intro hash hash' p hpresent hpresent'
  by_cases hunder : under scan.root p = true
  · obtain ⟨_, hcontent⟩ := (reconciled_importPath h hclean hash p hunder).1 hpresent
    obtain ⟨_, hcontent'⟩ := (reconciled_importPath h hclean hash' p hunder).1 hpresent'
    exact Option.some.inj (hcontent.symm.trans hcontent')
  · have hold : ∀ hash, Present (Daemon.importPath db scan).1 hash p → Present db hash p := by
      intro hash hafter
      rcases (present_importPath h.toRecorded hash p).1 hafter with hstamped | ⟨hbefore, _⟩
      · exact absurd (under_of_mem_walk hstamped.1) hunder
      · exact hbefore
    exact h.one hash hash' p (hold hash hpresent) (hold hash' hpresent')

end

/-! ## Watch events -/

section

variable {db : Db}

/-- Marking missing only takes away. -/
theorem Good.markMissingPath (h : Good w db) (path : Path) : Good w (db.markMissingPath path) := by
  refine ⟨h.toRecorded.markMissingPath path, ?_⟩
  have hold : ∀ hash p, Present (db.markMissingPath path) hash p → Present db hash p := by
    intro hash p hafter
    obtain ⟨loc, hplace, hpresent⟩ := hafter
    rw [Db.markMissingPath, place_updateLocations] at hplace
    obtain ⟨row, hrow, rfl⟩ := Option.map_eq_some_iff.1 hplace
    refine ⟨row, hrow, ?_⟩
    split at hpresent
    · cases hpresent
    · exact hpresent
  intro hash hash' p hpresent hpresent'
  exact h.one hash hash' p (hold hash p hpresent) (hold hash' p hpresent')

theorem Good.upsert (h : Good w db) {disk : Disk w} {path : Path} {record : FileRecord}
    {metadata : FileMetadata} {marker now : Nat} (hrecord : disk.hashFile path = .ok record)
    (hclean : CleanUpsert db path disk) :
    Good w (storeRecord db record metadata marker now) := by
  refine ⟨h.toRecorded.storeRecord (Disk.hashFile_faithful hrecord), ?_⟩
  have hpath : record.path = path := by
    obtain ⟨f, _, _, rfl⟩ := Disk.hashFile_ok hrecord
    rfl
  have hcontent := Disk.contentOf_of_hashFile hrecord
  have hafter : ∀ hash p, Present (storeRecord db record metadata marker now) hash p →
      Present db hash p ∧ p ≠ path ∨ hash = record.hash ∧ p = path := by
    intro hash p hpresent
    obtain ⟨loc, hplace, hpresent⟩ := hpresent
    rw [place_storeRecord h.constraints] at hplace
    by_cases hp : p = path
    · refine .inr ⟨?_, hp⟩
      by_cases hhash : hash = record.hash
      · exact hhash
      · rw [if_neg (by simp [hhash])] at hplace
        obtain ⟨g, size, hg, hl⟩ := (place_eq_some h.constraints).1 hplace
        have heq := hclean _ hcontent _ (Table.mem_entries.2 hl) hp hpresent
        simp only [hg, Option.map_some, Option.some.injEq] at heq
        exact heq
    · rw [if_neg (by simp [hp, hpath])] at hplace
      exact .inl ⟨⟨loc, hplace, hpresent⟩, hp⟩
  intro hash hash' p hpresent hpresent'
  rcases hafter hash p hpresent with ⟨hbefore, hp⟩ | ⟨rfl, hp⟩
  · rcases hafter hash' p hpresent' with ⟨hbefore', _⟩ | ⟨_, hp'⟩
    · exact h.one hash hash' p hbefore hbefore'
    · exact absurd hp' hp
  · rcases hafter hash' p hpresent' with ⟨_, hp'⟩ | ⟨heq, _⟩
    · exact absurd hp hp'
    · exact heq.symm

theorem Good.step {event : Event w} (h : Good w db) (hclean : Clean db event) :
    Good w (step db event) := by
  cases event with
  | importPath scan => exact h.importPath hclean
  | scanStreaming scan =>
    show Good w (Daemon.scanStreaming db scan).1
    rw [scanStreaming_eq]
    exact h.importPath hclean
  | remove path => exact h.markMissingPath path
  | upsert path disk now =>
    show Good w ((reindexUpsert disk db path now).toOption.getD db)
    unfold reindexUpsert
    cases hfile : disk.hashFile path with
    | ok record => exact h.upsert hfile hclean
    | error e =>
      simp only
      split
      · exact h.markMissingPath path
      · exact h

theorem Good.onePresent (h : Good w db) : OnePresent db := by
  intro p f g loc loc' hl hpresent hl' hpresent'
  obtain ⟨row, hrow⟩ := h.constraints.location_file f p loc hl
  obtain ⟨row', hrow'⟩ := h.constraints.location_file g p loc' hl'
  have hplace : db.place row.blake3 p = some loc :=
    (place_eq_some h.constraints).2 ⟨f, row.size, by rw [contentOf, hrow]; rfl, hl⟩
  have hplace' : db.place row'.blake3 p = some loc' :=
    (place_eq_some h.constraints).2 ⟨g, row'.size, by rw [contentOf, hrow']; rfl, hl'⟩
  exact h.constraints.files_unique f g row row' hrow hrow'
    (h.one _ _ p ⟨loc, hplace, hpresent⟩ ⟨loc', hplace', hpresent'⟩)

end

theorem good_empty : Good w Db.empty := by
  have hlookup : ∀ key, Db.empty.locations.lookup key = none := fun _ => rfl
  have hfiles : ∀ f, Db.empty.files.lookup f = none := fun _ => rfl
  have hc : Db.empty.FileConstraints := by
    refine ⟨?_, ?_⟩
    · intro f g row row' hl
      rw [hfiles] at hl
      cases hl
    · intro f p loc hl
      rw [hlookup] at hl
      cases hl
  have hplace : ∀ hash p, Db.empty.place hash p = none := by
    intro hash p
    cases h : Db.empty.place hash p with
    | none => rfl
    | some loc =>
      obtain ⟨f, _, _, hl⟩ := (place_eq_some hc).1 h
      rw [hlookup] at hl
      cases hl
  refine ⟨⟨hc, ?_, ?_⟩, ?_⟩
  · intro f hash size h
    rw [contentOf, hfiles] at h
    cases h
  · intro hash p loc h
    rw [hplace] at h
    cases h
  · intro hash hash' p hpresent
    obtain ⟨loc, h, _⟩ := hpresent
    rw [hplace] at h
    cases h

/-- **One present content per path.** In a run whose steps keep clear of the rows of replaced
contents, at most one content is present at a path in every state reached, and a scan leaves
present under its root exactly what can be read there. -/
theorem one_present_content {w : World} (events : List (Event w))
    (hrun : AllSteps step Clean Db.empty events) :
    OnePresent (run step Db.empty events) ∧
      ∀ before event scan, events = before ++ [event] → event.scan? = some scan →
        Reconciled (run step Db.empty events) scan := by
  have hgood : ∀ events : List (Event w), AllSteps step Clean Db.empty events →
      Good w (run step Db.empty events) := by
    intro events hrun
    exact hrun.invariant good_empty fun db event h hclean => h.step hclean
  refine ⟨(hgood events hrun).onePresent, ?_⟩
  rintro before event scan rfl hscan
  obtain ⟨hbefore, hlast⟩ := AllSteps.append.1 hrun
  have h := hgood before hbefore
  rw [run_append]
  cases event with
  | importPath scan' =>
    cases hscan
    exact reconciled_importPath h hlast.1
  | scanStreaming scan' =>
    cases hscan
    show Reconciled (Daemon.scanStreaming _ scan).1 scan
    rw [scanStreaming_eq]
    exact reconciled_importPath h hlast.1
  | upsert path disk now => cases hscan
  | remove path => cases hscan

/-! ## One file, edited once -/

/-- Two contents, told apart by their sizes. -/
def twoContents : World where
  sizeOf hash := if hash = Hash.fill 1 then 10 else 20
  contentAt _ size _ := if size = 10 then Hash.fill 1 else Hash.fill 2

/-- `/p/x.jpg` -/
def photo : Path := [47, 112, 47, 120, 46, 106, 112, 103]

def original : DiskFile :=
  ⟨Hash.fill 1, Hash.fill 11, 10, some 100, none, default, true, true, true⟩

def edited : DiskFile :=
  ⟨Hash.fill 2, Hash.fill 12, 20, some 200, none, default, true, true, true⟩

/-- A disk with one file. -/
def diskOf (f : DiskFile)
    (hf : f.size = twoContents.sizeOf f.hash ∧ twoContents.contentAt photo f.size f.mtime = f.hash) :
    Disk twoContents where
  files := AList.singleton photo f
  faithful p f' h := by
    obtain ⟨rfl, heq⟩ := List.mem_singleton.1 (Table.mem_entries.2 h) |> Sigma.mk.inj
    cases heq
    exact hf

/-- A scan of `/p`. -/
def scanOf (disk : Disk twoContents) (h : disk.walk [47, 112] = [photo]) (now : Nat) :
    Scan twoContents :=
  ⟨[47, 112], disk, [.ok photo], by rw [h]; exact List.Perm.refl _, now⟩

def scanOriginal (now : Nat) : Scan twoContents :=
  scanOf (diskOf original (by decide)) (by decide) now

def scanEdited (now : Nat) : Scan twoContents :=
  scanOf (diskOf edited (by decide)) (by decide) now

theorem one_present_content_edited :
    OnePresent (run step Db.empty
        [.importPath (scanOriginal 1000), .importPath (scanEdited 2000)]) ∧
      Reconciled (run step Db.empty
        [.importPath (scanOriginal 1000), .importPath (scanEdited 2000)]) (scanEdited 2000) := by
  have h := one_present_content
    [.importPath (scanOriginal 1000), .importPath (scanEdited 2000)] (by decide)
  exact ⟨h.1, h.2 [.importPath (scanOriginal 1000)] _ (scanEdited 2000) rfl rfl⟩

/-- The next scan finds the edited file unchanged and re-stamps the row of the original too. -/
theorem one_present_content_fails :
    ¬ ∀ (w : World) (events : List (Event w)),
      OnePresent (run step Db.empty events) ∧
        ∀ (before : List (Event w)) event scan, events = before ++ [event] →
          event.scan? = some scan → Reconciled (run step Db.empty events) scan := by
  intro h
  have hone := (h twoContents [.importPath (scanOriginal 1000), .importPath (scanEdited 2000),
    .importPath (scanEdited 3000)]).1 photo 1 2 ⟨some 100, none, true, 3000⟩
    ⟨some 200, none, true, 3000⟩ (by decide) rfl (by decide) rfl
  cases hone

end Daemon
end Naiad
