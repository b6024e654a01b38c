import Naiad.Daemon.Watch
import Naiad.Daemon.OneContent

/-!
# Naiad.Daemon.ScanRace

A scan beside the watcher: files are classified and written later, while the disk changes and the
watcher's actions are applied in between.

* `Racing`: what a running scan and the waiting actions still have to do.
* `scan_race`: **a scan and the watcher leave the present locations at the image files, unless the
  scan writes a file whose removal has been applied**.
-/

namespace Naiad
namespace Daemon
namespace ScanRace

open Lib Db Watch

/-! ## The scan's steps -/

def fingerprint (t : Tree) (missing : ErrorKind) (path : Path) : Except ScanError Fingerprint :=
  match t path with
  | none => .error ⟨path, missing⟩
  | some .dir => .error ⟨path, .other⟩
  | some (.file f) =>
    if f.statOk then .ok ⟨f.size, f.mtime, f.createdAt⟩ else .error ⟨path, .other⟩

/-- `classify`, given what the disk answers. -/
def resolve (fingerprint : Except ScanError Fingerprint) (hashed : Except ScanError FileRecord)
    (metadata : FileMetadata) (known : Known) (path : Path) : Except ScanError Pending :=
  match fingerprint with
  | .error e => .error e
  | .ok fp =>
    if known.lookup path = some (fp.size, fp.mtime) then .ok (.touch path fp.createdAt)
    else
      match hashed with
      | .error e => .error e
      | .ok record => .ok (.store record metadata)

theorem classify_eq {w : World} (disk : Disk w) (known : Known) (path : Path) :
    Daemon.classify disk known path =
      resolve (disk.fingerprint path) (disk.hashFile path) (disk.extractMetadata path) known
        path := by
  unfold Daemon.classify resolve
  cases disk.fingerprint path with
  | error e => rfl
  | ok fp =>
    simp only
    split
    · rfl
    · cases h : disk.hashFile path with
      | error e => rfl
      | ok record =>
        obtain ⟨f, _, _, rfl⟩ := Disk.hashFile_ok h
        rfl

def classify (t : Tree) (missing : ErrorKind) (known : Known) (path : Path) :
    Except ScanError Pending :=
  resolve (fingerprint t missing path) (t.hashFile missing path) (t.extractMetadata path) known path

instance (t : Tree) (p : Path) : Decidable (IsImage t p) :=
  match h : t p with
  | some (.file f) => decidable_of_iff (isSupportedImage p = true) (by simp [IsImage, h])
  | some .dir => isFalse (by simp [IsImage, h])
  | none => isFalse (by simp [IsImage, h])

/-- A scan under way: its marker and its fingerprints, and what is classified and not yet written.
The walk is sure to list what has been an image ever since it started. -/
structure Scanning where
  started : Nat
  marker : Nat
  known : Known
  pending : List Pending
  seen : List Path
  steady : Path → Bool

inductive Phase
  | idle
  | running (scan : Scanning)
  | finished

structure State where
  watching : Watching
  phase : Phase

inductive Event
  | watch (e : Watch.Event)
  | start (now : Nat)
  | classify (missing : ErrorKind) (p : Path)
  | flush (batch rest : List Pending) (now : Nat)
  | reconcile

def Phase.onTree (t : Tree) : Phase → Phase
  | .running scan => .running { scan with steady := fun q => scan.steady q && decide (IsImage t q) }
  | phase => phase

def collect (scan : Scanning) (p : Path) (res : Except ScanError Pending) : Scanning :=
  { scan with
    pending := scan.pending ++ res.toOption.toList
    seen := p :: scan.seen }

variable (root : Path)

def step (s : State) : Event → State
  | .watch e => ⟨Watch.step s.watching e, s.phase.onTree (Watch.step s.watching e).tree⟩
  | .start now =>
    let db := s.watching.db.addRoot root
    ⟨{ s.watching with db },
      .running ⟨now, db.nextScanMarker now, db.presentFingerprints, [], [],
        fun q => decide (IsImage s.watching.tree q)⟩⟩
  | .classify missing p =>
    match s.phase with
    | .running scan =>
      { s with phase := .running (collect scan p (classify s.watching.tree missing scan.known p)) }
    | _ => s
  | .flush batch rest now =>
    match s.phase with
    | .running scan =>
      ⟨{ s.watching with db := flush s.watching.db batch scan.marker now },
        .running { scan with pending := rest }⟩
    | _ => s
  | .reconcile =>
    match s.phase with
    | .running scan =>
      ⟨{ s.watching with db := s.watching.db.markMissingUnderBefore root scan.marker }, .finished⟩
    | _ => s

/-- What the disk and the scan can do: one scan at a time, the walk lists images, batches are taken
from what is classified, and the missing pass comes last. -/
def Possible (s : State) : Event → Prop
  | .watch e => Watch.Possible root s.watching e
  | .start _ => ∀ scan, s.phase ≠ .running scan
  | .classify _ p => subtreePredicate root p = true ∧ isSupportedImage p = true ∧
    s.watching.tree p ≠ some .dir
  | .flush batch rest _ => ∀ scan, s.phase = .running scan → scan.pending.Perm (batch ++ rest)
  | .reconcile => ∀ scan, s.phase = .running scan → scan.pending = [] ∧
    ∀ q, subtreePredicate root q = true → scan.steady q = true → q ∈ scan.seen

/-- What a flush writes is on disk, or its removal is still to be applied; files can be read; the
clock does not go back behind the start of the scan. -/
def Clean (s : State) : Event → Prop
  | .watch e => Watch.Clean s.watching e ∧ ∀ missing now scan, e = .apply missing now →
    s.phase = .running scan → scan.started ≤ now
  | .classify _ p => ∀ f, s.watching.tree p = some (.file f) → f.statOk = true ∧ f.readOk = true
  | .flush batch _ _ => ∀ item ∈ batch, IsImage s.watching.tree item.path ∨
    ∃ p, .remove p ∈ s.watching.queue ∧ subtreePredicate p item.path = true
  | _ => True

/-! ## Rows by their marker -/

/-- A present row of the path that the scan need not write. -/
def FreshAt (db : Db) (marker : Nat) (q : Path) : Prop :=
  ∃ f loc, db.locations.lookup (f, q) = some loc ∧ loc.present = true ∧ marker ≤ loc.lastSeen

/-- A row of the path that a touch re-stamps. -/
def OldAt (db : Db) (marker : Nat) (q : Path) : Prop :=
  ∃ f loc, db.locations.lookup (f, q) = some loc ∧ loc.lastSeen < marker

def maxSeen (db : Db) : Nat := db.locations.maxOf LocationRow.lastSeen

/-- Writes at some paths, stamped with the marker or later. -/
structure Writes (marker : Nat) (paths : List Path) (db db' : Db) : Prop where
  constraints : db'.FileConstraints
  fresh : ∀ q, FreshAt db marker q → FreshAt db' marker q
  old : ∀ q, OldAt db marker q → OldAt db' marker q ∨ FreshAt db' marker q
  only : ∀ q, FreshAt db' marker q → q ∈ paths ∨ FreshAt db marker q
  clock : marker ≤ maxSeen db + 1 → marker ≤ maxSeen db' + 1

/-- A write of the item makes its path fresh. -/
def Ready (db : Db) (marker : Nat) (item : Pending) : Prop :=
  ∀ path createdAt, item = .touch path createdAt → OldAt db marker path ∨ FreshAt db marker path

section

variable {db db' db'' : Db} {marker now : Nat} {p q : Path} {item : Pending}

theorem Writes.refl (hc : db.FileConstraints) : Writes marker [] db db :=
  ⟨hc, fun _ h => h, fun _ h => .inl h, fun _ h => .inr h, fun h => h⟩

theorem Writes.trans {paths paths' : List Path} (h : Writes marker paths db db')
    (h' : Writes marker paths' db' db'') : Writes marker (paths ++ paths') db db'' := by
  refine ⟨h'.constraints, fun q hq => h'.fresh q (h.fresh q hq), ?_, ?_,
    fun hclock => h'.clock (h.clock hclock)⟩
  · intro q hq
    rcases h.old q hq with hold | hfresh
    · exact h'.old q hold
    · exact .inr (h'.fresh q hfresh)
  · intro q hq
    rcases h'.only q hq with hq | hq
    · exact .inl (by simp [hq])
    · rcases h.only q hq with hq | hq
      · exact .inl (by simp [hq])
      · exact .inr hq

theorem Writes.ready {paths : List Path} (h : Writes marker paths db db')
    (hitem : Ready db marker item) : Ready db' marker item := by
  intro path createdAt heq
  rcases hitem path createdAt heq with hold | hfresh
  · exact h.old path hold
  · exact .inr (h.fresh path hfresh)

/-- The clock of rows that are not set back behind the marker. -/
theorem clock_of_rows (hrows : ∀ key row, db.locations.lookup key = some row →
      ∃ row', db'.locations.lookup key = some row' ∧
        (row.lastSeen ≤ row'.lastSeen ∨ marker ≤ row'.lastSeen))
    (h : marker ≤ maxSeen db + 1) : marker ≤ maxSeen db' + 1 := by
  by_contra hlt
  have hle : maxSeen db ≤ maxSeen db' := by
    refine Table.maxOf_le ?_
    intro key row hrow
    obtain ⟨row', hrow', hseen⟩ := hrows key row hrow
    have hmax : row'.lastSeen ≤ maxSeen db' := Table.le_maxOf hrow'
    omega
  omega

theorem writes_storeRecord (hc : db.FileConstraints) {record : FileRecord}
    {metadata : FileMetadata} {stamp : Nat} (hstamp : marker ≤ stamp) :
    Writes marker [record.path] db (storeRecord db record metadata stamp now) ∧
      FreshAt (storeRecord db record metadata stamp now) marker record.path := by
  have hself : (storeRecord db record metadata stamp now).locations.lookup
      (db.importId record.hash, record.path) =
        some ⟨record.mtime, record.createdAt, true, stamp⟩ := by
    rw [locations_storeRecord hc]
    exact AList.lookup_insert _
  have hother : ∀ key, key ≠ (db.importId record.hash, record.path) →
      (storeRecord db record metadata stamp now).locations.lookup key = db.locations.lookup key := by
    intro key hkey
    rw [locations_storeRecord hc]
    exact AList.lookup_insert_ne hkey
  have hfresh : FreshAt (storeRecord db record metadata stamp now) marker record.path :=
    ⟨_, _, hself, rfl, hstamp⟩
  refine ⟨⟨fileConstraints_storeRecord hc, ?_, ?_, ?_, clock_of_rows ?_⟩, hfresh⟩
  · rintro q ⟨f, loc, hl, hloc⟩
    by_cases hkey : (f, q) = (db.importId record.hash, record.path)
    · rw [(Prod.mk.inj hkey).2]
      exact hfresh
    · exact ⟨f, loc, by rw [hother _ hkey]; exact hl, hloc⟩
  · rintro q ⟨f, loc, hl, hloc⟩
    by_cases hkey : (f, q) = (db.importId record.hash, record.path)
    · rw [(Prod.mk.inj hkey).2]
      exact .inr hfresh
    · exact .inl ⟨f, loc, by rw [hother _ hkey]; exact hl, hloc⟩
  · rintro q ⟨f, loc, hl, hloc⟩
    by_cases hkey : (f, q) = (db.importId record.hash, record.path)
    · exact .inl (by simp [(Prod.mk.inj hkey).2])
    · rw [hother _ hkey] at hl
      exact .inr ⟨f, loc, hl, hloc⟩
  · intro key row hl
    by_cases hkey : key = (db.importId record.hash, record.path)
    · subst hkey
      exact ⟨_, hself, .inr hstamp⟩
    · exact ⟨row, by rw [hother _ hkey]; exact hl, .inl (Nat.le_refl _)⟩

theorem writes_touchLocation (hc : db.FileConstraints) (createdAt : Option Int) :
    Writes marker [p] db (db.touchLocation p marker createdAt) ∧
      (OldAt db marker p → FreshAt (db.touchLocation p marker createdAt) marker p) := by
  have hlookup : ∀ key, (db.touchLocation p marker createdAt).locations.lookup key =
      (db.locations.lookup key).map fun row =>
        if key.2 = p ∧ row.lastSeen < marker then
          { row with present := true, lastSeen := marker, createdAt := row.createdAt.or createdAt }
        else row := fun key => Table.lookup_modify _ _ _
  have htouched : OldAt db marker p → FreshAt (db.touchLocation p marker createdAt) marker p := by
    rintro ⟨f, loc, hl, hlt⟩
    refine ⟨f, { loc with present := true, lastSeen := marker, createdAt := loc.createdAt.or createdAt },
      ?_, rfl, Nat.le_refl _⟩
    rw [hlookup, hl]
    simp [hlt]
  refine ⟨⟨fileConstraints_updateLocations hc _, ?_, ?_, ?_, clock_of_rows ?_⟩, htouched⟩
  · rintro q ⟨f, loc, hl, hpresent, hle⟩
    refine ⟨f, loc, ?_, hpresent, hle⟩
    rw [hlookup, hl]
    simp [Nat.not_lt.2 hle]
  · rintro q ⟨f, loc, hl, hlt⟩
    by_cases hq : q = p
    · subst hq
      exact .inr (htouched ⟨f, loc, hl, hlt⟩)
    · refine .inl ⟨f, loc, ?_, hlt⟩
      rw [hlookup, hl]
      simp [hq]
  · rintro q ⟨f, loc, hl, hpresent, hle⟩
    rw [hlookup] at hl
    obtain ⟨row, hrow, rfl⟩ := Option.map_eq_some_iff.1 hl
    by_cases hq : q = p
    · exact .inl (by simp [hq])
    · simp only [hq, false_and, if_false] at hpresent hle
      exact .inr ⟨f, row, hrow, hpresent, hle⟩
  · intro key row hl
    refine ⟨_, by rw [hlookup, hl]; rfl, ?_⟩
    by_cases hrow : key.2 = p ∧ row.lastSeen < marker
    · exact .inr (by simp [hrow])
    · exact .inl (by simp [hrow])

theorem writes_persist (hc : db.FileConstraints) (item : Pending) :
    Writes marker [item.path] db (persist db item marker now) ∧
      (Ready db marker item → FreshAt (persist db item marker now) marker item.path) := by
  cases item with
  | touch path createdAt =>
    obtain ⟨hwrites, htouched⟩ := @writes_touchLocation db marker path hc createdAt
    refine ⟨hwrites, ?_⟩
    intro hready
    rcases hready path createdAt rfl with hold | hfresh
    · exact htouched hold
    · exact hwrites.fresh path hfresh
  | store record metadata =>
    obtain ⟨hwrites, hfresh⟩ :=
      @writes_storeRecord db marker now hc record metadata marker (Nat.le_refl _)
    exact ⟨hwrites, fun _ => hfresh⟩

/-- A batch writes its paths, and makes those that are ready fresh. -/
theorem writes_flush (hc : db.FileConstraints) (batch : List Pending) :
    Writes marker (batch.map Pending.path) db (flush db batch marker now) ∧
      ∀ item ∈ batch, Ready db marker item →
        FreshAt (flush db batch marker now) marker item.path := by
  induction batch generalizing db with
  | nil => exact ⟨.refl hc, by simp⟩
  | cons head batch ih =>
    obtain ⟨hhead, hfresh⟩ := @writes_persist db marker now hc head
    obtain ⟨hrest, hmem⟩ := ih hhead.constraints
    refine ⟨hhead.trans hrest, ?_⟩
    intro item hitem hready
    rcases List.mem_cons.1 hitem with rfl | hitem
    · exact hrest.fresh _ (hfresh hready)
    · exact hmem item hitem (hhead.ready hready)

theorem freshAt_markMissingPath :
    FreshAt (db.markMissingPath p) marker q ↔
      FreshAt db marker q ∧ subtreePredicate p q = false := by
  have hlookup : ∀ f, (db.markMissingPath p).locations.lookup (f, q) =
      (db.locations.lookup (f, q)).map fun row =>
        if row.present ∧ subtreePredicate p q then { row with present := false } else row :=
    fun f => Table.lookup_modify _ _ _
  constructor
  · rintro ⟨f, loc, hl, hpresent, hle⟩
    rw [hlookup] at hl
    obtain ⟨row, hrow, rfl⟩ := Option.map_eq_some_iff.1 hl
    by_cases hsub : subtreePredicate p q = true
    · by_cases hp : row.present = true
      · simp [hsub, hp] at hpresent
      · simp [hp] at hpresent
    · rw [if_neg fun h => hsub h.2] at hpresent hle
      exact ⟨⟨f, row, hrow, hpresent, hle⟩, by simpa using hsub⟩
  · rintro ⟨⟨f, row, hrow, hpresent, hle⟩, hsub⟩
    refine ⟨f, row, ?_, hpresent, hle⟩
    rw [hlookup, hrow]
    simp [hsub]

theorem oldAt_markMissingPath (h : OldAt db marker q) : OldAt (db.markMissingPath p) marker q := by
  obtain ⟨f, loc, hl, hlt⟩ := h
  have hlookup : (db.markMissingPath p).locations.lookup (f, q) =
      (db.locations.lookup (f, q)).map fun row =>
        if row.present ∧ subtreePredicate p q then { row with present := false } else row :=
    Table.lookup_modify _ _ _
  refine ⟨f, _, by rw [hlookup, hl]; rfl, ?_⟩
  simp only
  split
  · exact hlt
  · exact hlt

theorem clock_markMissingPath (h : marker ≤ maxSeen db + 1) :
    marker ≤ maxSeen (db.markMissingPath p) + 1 := by
  refine clock_of_rows ?_ h
  intro key row hl
  have hlookup : (db.markMissingPath p).locations.lookup key =
      (db.locations.lookup key).map fun row =>
        if row.present ∧ subtreePredicate p key.2 then { row with present := false } else row :=
    Table.lookup_modify _ _ _
  refine ⟨_, by rw [hlookup, hl]; rfl, .inl ?_⟩
  simp only
  split
  · exact Nat.le_refl _
  · exact Nat.le_refl _

/-- The missing pass leaves present what is fresh. -/
theorem pathPresent_markMissingUnderBefore (hroot : subtreePredicate root q = true) :
    PathPresent (db.markMissingUnderBefore root marker) q ↔ FreshAt db marker q := by
  have hlookup : ∀ f, (db.markMissingUnderBefore root marker).locations.lookup (f, q) =
      (db.locations.lookup (f, q)).map fun row =>
        if row.present ∧ row.lastSeen < marker ∧ subtreePredicate root q then
          { row with present := false }
        else row := fun f => Table.lookup_modify _ _ _
  constructor
  · rintro ⟨f, loc, hl, hpresent⟩
    rw [hlookup] at hl
    obtain ⟨row, hrow, rfl⟩ := Option.map_eq_some_iff.1 hl
    by_cases hp : row.present = true
    · by_cases hlt : row.lastSeen < marker
      · simp [hp, hlt, hroot] at hpresent
      · exact ⟨f, row, hrow, hp, Nat.not_lt.1 hlt⟩
    · simp [hp] at hpresent
  · rintro ⟨f, row, hrow, hpresent, hle⟩
    refine ⟨f, row, ?_, hpresent⟩
    rw [hlookup, hrow]
    simp [Nat.not_lt.2 hle]

end

/-! ## What the scan and the waiting actions still have to do -/

/-- Images are not removed last. -/
structure Waiting (w : Watching) : Prop where
  tree : WellFormed root w.tree
  constraints : w.db.FileConstraints
  upserts : ∀ p, .upsert p ∈ w.queue → isSupportedImage p = true ∧ subtreePredicate root p = true
  here : ∀ q, subtreePredicate root q = true → IsImage w.tree q →
    lastTouch q w.queue = some (.upsert q) ∨ lastTouch q w.queue = none

/-- The scan is to write the path: it is classified, or the walk is to list it. -/
def Due (db : Db) (scan : Scanning) (q : Path) : Prop :=
  (∃ item ∈ scan.pending, item.path = q ∧ Ready db scan.marker item) ∨
    scan.steady q = true ∧ q ∉ scan.seen ∧
      ∀ fp, scan.known.lookup q = some fp → OldAt db scan.marker q ∨ FreshAt db scan.marker q

/-- Fresh rows of paths without an image have a removal to come; images that no action waits for are
fresh or due. -/
structure Racing (w : Watching) (scan : Scanning) : Prop where
  waiting : Waiting root w
  clock : scan.marker ≤ scan.started ∨ scan.marker ≤ maxSeen w.db + 1
  gone : ∀ q, subtreePredicate root q = true → ¬ IsImage w.tree q → FreshAt w.db scan.marker q →
    ∃ p, .remove p ∈ w.queue ∧ subtreePredicate p q = true
  due : ∀ q, subtreePredicate root q = true → IsImage w.tree q → lastTouch q w.queue = none →
    FreshAt w.db scan.marker q ∨ Due w.db scan q

def Inv (s : State) : Prop :=
  match s.phase with
  | .idle => Waiting root s.watching
  | .running scan => Racing root s.watching scan
  | .finished => Settled root s.watching

/-- What is known of a path's rows stays known. -/
def Keeps (marker : Nat) (q : Path) (db db' : Db) : Prop :=
  (FreshAt db marker q → FreshAt db' marker q) ∧
    (OldAt db marker q → OldAt db' marker q ∨ FreshAt db' marker q)

section

variable {root} {w : Watching} {scan : Scanning} {db db' : Db} {marker now : Nat} {p q : Path}

theorem Writes.keeps {paths : List Path} (h : Writes marker paths db db') (q : Path) :
    Keeps marker q db db' := ⟨h.fresh q, h.old q⟩

theorem Keeps.either (h : Keeps marker q db db') (hq : OldAt db marker q ∨ FreshAt db marker q) :
    OldAt db' marker q ∨ FreshAt db' marker q := by
  rcases hq with hold | hfresh
  · exact h.2 hold
  · exact .inr (h.1 hfresh)

theorem Due.keeps (h : Due db scan q) (hkeeps : Keeps scan.marker q db db') : Due db' scan q := by
  rcases h with ⟨item, hitem, rfl, hready⟩ | ⟨hsteady, hseen, hknown⟩
  · refine .inl ⟨item, hitem, rfl, ?_⟩
    rintro path createdAt rfl
    exact hkeeps.either (hready path createdAt rfl)
  · exact .inr ⟨hsteady, hseen, fun fp hfp => hkeeps.either (hknown fp hfp)⟩

theorem Settled.waiting (h : Settled root w) : Waiting root w :=
  ⟨h.tree, h.constraints, h.upserts, fun q hroot hq => (h.here q hroot hq).imp id And.left⟩

/-! ## The watcher's steps -/

theorem Waiting.change {c : Change} (h : Waiting root w) (hpossible : c.Possible root w.tree)
    (htree : WellFormed root (c.apply w.tree)) (hclean : c.Clean w.tree) :
    Waiting root (Watch.step w (.disk c)) := by
  refine ⟨htree, h.constraints, ?_, ?_⟩
  · intro p hp
    rcases List.mem_append.1 hp with hp | hp
    · exact h.upserts p hp
    · exact upsert_of_change hpossible hp
  · intro q hroot hq
    change lastTouch q (w.queue ++ _) = _ ∨ lastTouch q (w.queue ++ _) = none
    rw [lastTouch_append]
    rcases upserted_of_change hpossible hclean hq with hlast | ⟨hnone, hbefore⟩
    · rw [hlast]
      exact .inl rfl
    · rw [hnone, Option.none_or]
      exact h.here q hroot hbefore

theorem Waiting.apply {ev : WatchEvent} {queue : List WatchEvent} (h : Waiting root w)
    (hqueue : w.queue = ev :: queue) (missing : ErrorKind) (now : Nat) :
    Waiting root ⟨w.tree, queue, applyEvent w.tree missing now w.db ev⟩ := by
  refine ⟨h.tree, constraints_applyEvent h.constraints missing now ev,
    fun p hp => h.upserts p (by simp [hqueue, hp]), ?_⟩
  intro q hroot hq
  have hhere := h.here q hroot hq
  rw [hqueue, ← List.singleton_append, lastTouch_append] at hhere
  change lastTouch q queue = _ ∨ lastTouch q queue = none
  cases hrest : lastTouch q queue with
  | none => exact .inr rfl
  | some ev' =>
    rw [hrest] at hhere
    rcases hhere with heq | heq
    · exact .inl heq
    · cases heq

theorem Racing.change {c : Change} (h : Racing root w scan) (hpossible : c.Possible root w.tree)
    (htree : WellFormed root (c.apply w.tree)) (hclean : c.Clean w.tree) :
    Racing root (Watch.step w (.disk c)) scan := by
  refine ⟨h.waiting.change hpossible htree hclean, h.clock, ?_, ?_⟩
  · intro q hroot hq hfresh
    by_cases hbefore : IsImage w.tree q
    · obtain ⟨p, hp, hsub⟩ := removed_of_change hpossible hbefore hq
      exact ⟨p, List.mem_append_right _ hp, hsub⟩
    · obtain ⟨p, hp, hsub⟩ := h.gone q hroot hbefore hfresh
      exact ⟨p, List.mem_append_left _ hp, hsub⟩
  · intro q hroot hq hnone
    change lastTouch q (w.queue ++ _) = none at hnone
    rw [lastTouch_append] at hnone
    rcases upserted_of_change hpossible hclean hq with hlast | ⟨hreport, hbefore⟩
    · rw [hlast] at hnone
      cases hnone
    · rw [hreport, Option.none_or] at hnone
      exact h.due q hroot hbefore hnone

/-- Images that are there stay steady. -/
theorem Racing.look (h : Racing root w scan) : Racing root w { scan with
    steady := fun q => scan.steady q && decide (IsImage w.tree q) } := by
  refine ⟨h.waiting, h.clock, h.gone, ?_⟩
  intro q hroot hq hnone
  rcases h.due q hroot hq hnone with hfresh | hitem | ⟨hsteady, hrest⟩
  · exact .inl hfresh
  · exact .inr (.inl hitem)
  · exact .inr (.inr ⟨Bool.and_eq_true_iff.2 ⟨hsteady, decide_eq_true hq⟩, hrest⟩)

/-- An action that does not write the rows of an image. -/
theorem keeps_applyEvent {ev : WatchEvent} (h : Waiting root w) (missing : ErrorKind)
    (hev : ev.touches q = false) (hq : IsImage w.tree q)
    (hroot : ∀ p, ev = .upsert p → subtreePredicate root p = true)
    (hstamp : marker ≤ w.db.nextScanMarker now) :
    Keeps marker q w.db (applyEvent w.tree missing now w.db ev) := by
  have hremove : ∀ p, subtreePredicate p q = false → Keeps marker q w.db (w.db.markMissingPath p) :=
    fun p hsub => ⟨fun hfresh => freshAt_markMissingPath.2 ⟨hfresh, hsub⟩,
      fun hold => .inl (oldAt_markMissingPath hold)⟩
  cases ev with
  | remove p => exact hremove p hev
  | upsert p =>
    rcases applyEvent_upsert_cases w.tree missing now w.db p with
      ⟨f, record, metadata, _, _, _, heq⟩ | ⟨hnone, heq⟩ | ⟨_, heq⟩
    · rw [heq]
      exact (writes_storeRecord h.constraints hstamp).1.keeps q
    · rw [heq]
      refine hremove p ?_
      by_contra hsub
      obtain ⟨_, f, hf⟩ := hq
      have hsome : w.tree q ≠ none := by
        rw [hf]
        simp
      have hne : q ≠ p := by
        rintro rfl
        exact hsome hnone
      have hdir := h.tree p q (hroot p rfl) ⟨hne, by simpa using hsub⟩ hsome
      rw [hnone] at hdir
      cases hdir
    · rw [heq]
      exact ⟨id, .inl⟩

theorem Racing.stamp (h : Racing root w scan) (hnow : scan.started ≤ now) :
    scan.marker ≤ w.db.nextScanMarker now := by
  have hclock := h.clock
  change _ ≤ max now (maxSeen w.db + 1)
  omega

theorem Racing.apply {ev : WatchEvent} {queue : List WatchEvent} (h : Racing root w scan)
    (hqueue : w.queue = ev :: queue) (missing : ErrorKind) (hnow : scan.started ≤ now)
    (hread : ∀ p f, ev = .upsert p → w.tree p = some (.file f) →
      f.statOk = true ∧ f.readOk = true) :
    Racing root ⟨w.tree, queue, applyEvent w.tree missing now w.db ev⟩ scan := by
  have hstamp := h.stamp hnow
  have hc := h.waiting.constraints
  have hupsert : ∀ p, ev = .upsert p → isSupportedImage p = true ∧
      subtreePredicate root p = true := by
    rintro p rfl
    exact h.waiting.upserts p (by simp [hqueue])
  refine ⟨h.waiting.apply hqueue missing now, ?_, ?_, ?_⟩
  · refine h.clock.imp id ?_
    cases ev with
    | remove p => exact clock_markMissingPath
    | upsert p =>
      rcases applyEvent_upsert_cases w.tree missing now w.db p with
        ⟨f, record, metadata, _, _, _, heq⟩ | ⟨_, heq⟩ | ⟨_, heq⟩
      · rw [heq]
        exact (writes_storeRecord hc hstamp).1.clock
      · rw [heq]
        exact clock_markMissingPath
      · rw [heq]
        exact id
  · intro q hroot hq hfresh
    have hbefore : FreshAt w.db scan.marker q ∧ ∀ p, ev = .remove p →
        subtreePredicate p q = false := by
      cases ev with
      | remove p =>
        obtain ⟨hfresh, hsub⟩ := freshAt_markMissingPath.1 hfresh
        refine ⟨hfresh, ?_⟩
        rintro _ ⟨⟩
        exact hsub
      | upsert p =>
        refine ⟨?_, by simp⟩
        rcases applyEvent_upsert_cases w.tree missing now w.db p with
          ⟨f, record, metadata, hf, _, hpath, heq⟩ | ⟨_, heq⟩ | ⟨_, heq⟩
        · simp only [heq] at hfresh
          rcases (writes_storeRecord hc hstamp).1.only q hfresh with hself | hfresh
          · obtain rfl : q = p := by
              rw [← hpath]
              exact List.mem_singleton.1 hself
            exact absurd ⟨(hupsert q rfl).1, f, hf⟩ hq
          · exact hfresh
        · simp only [heq] at hfresh
          exact (freshAt_markMissingPath.1 hfresh).1
        · simp only [heq] at hfresh
          exact hfresh
    obtain ⟨p, hp, hsub⟩ := h.gone q hroot hq hbefore.1
    rw [hqueue] at hp
    rcases List.mem_cons.1 hp with heq | hp
    · have hnot := hbefore.2 p heq.symm
      rw [hsub] at hnot
      cases hnot
    · exact ⟨p, hp, hsub⟩
  · intro q hroot hq hnone
    have hlast : lastTouch q w.queue = lastTouch q [ev] := by
      rw [hqueue, ← List.singleton_append, lastTouch_append, hnone, Option.none_or]
    cases htouch : ev.touches q with
    | false =>
      have hkeeps := keeps_applyEvent h.waiting missing htouch hq (fun p hp => (hupsert p hp).2) hstamp
      have hbefore : lastTouch q w.queue = none := by
        rw [hlast]
        simp [lastTouch, htouch]
      rcases h.due q hroot hq hbefore with hfresh | hdue
      · exact .inl (hkeeps.1 hfresh)
      · exact .inr (hdue.keeps hkeeps)
    | true =>
      have hself : lastTouch q [ev] = some ev := by simp [lastTouch, htouch]
      rcases h.waiting.here q hroot hq with heq | heq
      · obtain rfl : ev = .upsert q := by
          rw [hlast, hself] at heq
          exact Option.some.inj heq
        obtain ⟨_, f, hf⟩ := hq
        obtain ⟨hstat, hok⟩ := hread q f rfl hf
        refine .inl ?_
        rcases applyEvent_upsert_cases w.tree missing now w.db q with
          ⟨_, record, metadata, _, _, rfl, heq⟩ | ⟨hmissing, _⟩ | ⟨hfail, _⟩
        · simp only [heq]
          exact (writes_storeRecord hc hstamp).2
        · rw [hf] at hmissing
          cases hmissing
        · have hfalse := hfail f hf
          rw [hstat, hok] at hfalse
          cases hfalse
      · rw [hlast, hself] at heq
        cases heq

/-! ## The scan's steps -/

theorem Waiting.start (h : Waiting root w) (now : Nat) :
    Racing root { w with db := w.db.addRoot root }
      ⟨now, w.db.nextScanMarker now, w.db.presentFingerprints, [], [],
        fun q => decide (IsImage w.tree q)⟩ := by
  have hseen : ∀ {f q loc}, w.db.locations.lookup (f, q) = some loc →
      loc.lastSeen < w.db.nextScanMarker now := by
    intro f q loc hl
    have hle : loc.lastSeen ≤ maxSeen w.db := Table.le_maxOf hl
    change _ < max now (maxSeen w.db + 1)
    omega
  refine ⟨⟨h.tree, ⟨h.constraints.files_unique, h.constraints.location_file⟩, h.upserts, h.here⟩,
    ?_, ?_, ?_⟩
  · change max now (maxSeen w.db + 1) ≤ now ∨ max now (maxSeen w.db + 1) ≤ maxSeen w.db + 1
    omega
  · rintro q _ _ ⟨f, loc, hl, _, hle⟩
    exact absurd (hseen hl) (Nat.not_lt.2 hle)
  · intro q _ hq _
    refine .inr (.inr ⟨decide_eq_true hq, by simp, ?_⟩)
    rintro ⟨size, mtime⟩ hknown
    obtain ⟨f, _, loc, _, hl, _⟩ := mem_presentRows.1 (Table.collect_some hknown)
    exact .inl ⟨f, loc, hl, hseen hl⟩

/-- A file that can be read is classified, and touched only when it was known. -/
theorem classify_file {t : Tree} {f : DiskFile} (hf : t p = some (.file f)) (hstat : f.statOk = true)
    (hread : f.readOk = true) (missing : ErrorKind) (known : Known) :
    ∃ item, classify t missing known p = .ok item ∧ item.path = p ∧
      ∀ path createdAt, item = .touch path createdAt → path = p ∧ ∃ fp, known.lookup p = some fp := by
  have hfp : fingerprint t missing p = .ok ⟨f.size, f.mtime, f.createdAt⟩ := by
    simp [fingerprint, hf, hstat]
  have hhash : t.hashFile missing p =
      .ok ⟨f.hash, p, f.size, f.mtime, f.createdAt, some f.sha256⟩ := by
    simp [Tree.hashFile, hf, hstat, hread]
  by_cases hknown : known.lookup p = some (f.size, f.mtime)
  · refine ⟨.touch p f.createdAt, by simp [classify, resolve, hfp, hknown], rfl, ?_⟩
    rintro _ _ ⟨⟩
    exact ⟨rfl, _, hknown⟩
  · refine ⟨.store ⟨f.hash, p, f.size, f.mtime, f.createdAt, some f.sha256⟩ (t.extractMetadata p),
      by simp [classify, resolve, hfp, hknown, hhash], rfl, ?_⟩
    intro path createdAt heq
    cases heq

theorem Racing.classify (h : Racing root w scan) (missing : ErrorKind) (p : Path)
    (hread : ∀ f, w.tree p = some (.file f) → f.statOk = true ∧ f.readOk = true) :
    Racing root w (collect scan p (ScanRace.classify w.tree missing scan.known p)) := by
  refine ⟨h.waiting, h.clock, h.gone, ?_⟩
  intro q hroot hq hnone
  rcases h.due q hroot hq hnone with hfresh | ⟨item, hitem, hrest⟩ | ⟨hsteady, hseen, hknown⟩
  · exact .inl hfresh
  · exact .inr (.inl ⟨item, List.mem_append_left _ hitem, hrest⟩)
  · by_cases hp : q = p
    · subst hp
      obtain ⟨_, f, hf⟩ := hq
      obtain ⟨hstat, hok⟩ := hread f hf
      obtain ⟨item, hitem, hpath, htouch⟩ := classify_file hf hstat hok missing scan.known
      refine .inr (.inl ⟨item, ?_, hpath, ?_⟩)
      · refine List.mem_append_right _ ?_
        rw [hitem]
        exact List.mem_singleton_self item
      · intro path createdAt heq
        obtain ⟨rfl, fp, hfp⟩ := htouch path createdAt heq
        exact hknown fp hfp
    · exact .inr (.inr ⟨hsteady, by simp [collect, hp, hseen], hknown⟩)

theorem Racing.flush {batch rest : List Pending} (h : Racing root w scan)
    (hperm : scan.pending.Perm (batch ++ rest))
    (hclean : ∀ item ∈ batch, IsImage w.tree item.path ∨
      ∃ p, .remove p ∈ w.queue ∧ subtreePredicate p item.path = true) :
    Racing root { w with db := Daemon.flush w.db batch scan.marker now }
      { scan with pending := rest } := by
  obtain ⟨hwrites, hmem⟩ := @writes_flush w.db scan.marker now h.waiting.constraints batch
  refine ⟨⟨h.waiting.tree, hwrites.constraints, h.waiting.upserts, h.waiting.here⟩,
    h.clock.imp id hwrites.clock, ?_, ?_⟩
  · intro q hroot hq hfresh
    rcases hwrites.only q hfresh with hbatch | hfresh
    · obtain ⟨item, hitem, rfl⟩ := List.mem_map.1 hbatch
      exact (hclean item hitem).resolve_left hq
    · exact h.gone q hroot hq hfresh
  · intro q hroot hq hnone
    rcases h.due q hroot hq hnone with hfresh | ⟨item, hitem, rfl, hready⟩ | ⟨hsteady, hseen, hknown⟩
    · exact .inl (hwrites.fresh q hfresh)
    · rcases List.mem_append.1 (hperm.mem_iff.1 hitem) with hbatch | hrest
      · exact .inl (hmem item hbatch hready)
      · exact .inr (.inl ⟨item, hrest, rfl, hwrites.ready hready⟩)
    · exact .inr (.inr ⟨hsteady, hseen, fun fp hfp => (hwrites.keeps q).either (hknown fp hfp)⟩)

theorem Racing.reconcile (h : Racing root w scan) (hpending : scan.pending = [])
    (hwalked : ∀ q, subtreePredicate root q = true → scan.steady q = true → q ∈ scan.seen) :
    Settled root { w with db := w.db.markMissingUnderBefore root scan.marker } := by
  have hc : (w.db.markMissingUnderBefore root scan.marker).FileConstraints :=
    fileConstraints_updateLocations h.waiting.constraints _
  refine ⟨h.waiting.tree, hc, h.waiting.upserts, ?_, ?_⟩
  · intro q hroot hq hpresent
    exact h.gone q hroot hq ((pathPresent_markMissingUnderBefore root hroot).1 hpresent)
  · intro q hroot hq
    rcases h.waiting.here q hroot hq with hlast | hnone
    · exact .inl hlast
    · refine .inr ⟨hnone, (pathPresent_markMissingUnderBefore root hroot).2 ?_⟩
      rcases h.due q hroot hq hnone with hfresh | ⟨item, hitem, _⟩ | ⟨hsteady, hseen, _⟩
      · exact hfresh
      · rw [hpending] at hitem
        cases hitem
      · exact absurd (hwalked q hroot hsteady) hseen

theorem Racing.step (h : Racing root w scan) {e : Watch.Event}
    (hpossible : Watch.Possible root w e) (hclean : Watch.Clean w e)
    (hclock : ∀ missing now, e = .apply missing now → scan.started ≤ now) :
    Racing root (Watch.step w e) scan := by
  cases e with
  | disk c => exact h.change hpossible.1 hpossible.2 hclean
  | apply missing now =>
    unfold Watch.step
    cases hqueue : w.queue with
    | nil => exact h
    | cons ev queue =>
      refine h.apply hqueue missing (hclock missing now rfl) ?_
      rintro p f rfl
      exact hclean p f (by rw [hqueue]; rfl)

theorem Waiting.step (h : Waiting root w) {e : Watch.Event}
    (hpossible : Watch.Possible root w e) (hclean : Watch.Clean w e) :
    Waiting root (Watch.step w e) := by
  cases e with
  | disk c => exact h.change hpossible.1 hpossible.2 hclean
  | apply missing now =>
    unfold Watch.step
    cases hqueue : w.queue with
    | nil => exact h
    | cons ev queue => exact h.apply hqueue missing now

theorem Inv.step {s : State} (h : Inv root s) {e : Event} (hpossible : Possible root s e)
    (hclean : Clean s e) : Inv root (step root s e) := by
  obtain ⟨w, phase⟩ := s
  cases e with
  | watch e =>
    cases phase with
    | idle => exact Waiting.step h hpossible hclean.1
    | running scan =>
      exact (Racing.step h hpossible hclean.1 fun missing now he =>
        hclean.2 missing now scan he rfl).look
    | finished => exact Settled.step h hpossible hclean.1
  | start now =>
    cases phase with
    | idle => exact Waiting.start h now
    | running scan => exact absurd rfl (hpossible scan)
    | finished => exact (Settled.waiting h).start now
  | classify missing p =>
    cases phase with
    | running scan => exact Racing.classify h missing p hclean
    | _ => exact h
  | flush batch rest now =>
    cases phase with
    | running scan => exact Racing.flush h (hpossible scan rfl) hclean
    | _ => exact h
  | reconcile =>
    cases phase with
    | running scan =>
      obtain ⟨hpending, hwalked⟩ := hpossible scan rfl
      exact Racing.reconcile h hpending hwalked
    | _ => exact h

end

/-- **A scan beside the watcher.** From any library and any disk with no action waiting, after any
changes of the disk, with the actions they are reported as applied in order and at any time, and the
steps of a scan of the root at any time between them, in a run whose steps are clean: once the scan
has finished and every action has been applied, the present locations beneath the root are its image
files. -/
theorem scan_race {root : Path} (hroot : root.getLast? ≠ some separator) {t : Tree} {db : Db}
    (htree : WellFormed root t) (hc : db.FileConstraints) (events : List Event)
    (hrun : AllSteps (step root) (fun s e => Possible root s e ∧ Clean s e) ⟨⟨t, [], db⟩, .idle⟩
      events)
    (hfinished : (run (step root) ⟨⟨t, [], db⟩, .idle⟩ events).phase = .finished)
    (hdone : (run (step root) ⟨⟨t, [], db⟩, .idle⟩ events).watching.queue = []) (p : Path)
    (hp : under root p = true) :
    PathPresent (run (step root) ⟨⟨t, [], db⟩, .idle⟩ events).watching.db p ↔
      IsImage (run (step root) ⟨⟨t, [], db⟩, .idle⟩ events).watching.tree p := by
  have hstart : Inv root ⟨⟨t, [], db⟩, .idle⟩ := ⟨htree, hc, by simp, fun _ _ _ => .inr rfl⟩
  have h := hrun.invariant hstart fun s e h hstep => h.step hstep.1 hstep.2
  rw [Inv, hfinished] at h
  exact h.exact hdone p (subtreePredicate_of_under hroot hp)

/-! ## One picture -/

/-- A folder with one picture. -/
def pictureFolder : Tree := emptyFolder.set picture (.file pixels)

/-- What the scan makes of the picture. -/
def classified : Pending :=
  .store ⟨pixels.hash, picture, pixels.size, pixels.mtime, pixels.createdAt, some pixels.sha256⟩
    pixels.metadata

theorem wellFormed_pictureFolder : WellFormed pictures pictureFolder := by
  refine wellFormed_of_inits [pictures, picture] ?_ (by decide)
  intro q hq
  by_contra hnot
  simp only [List.mem_cons, List.not_mem_nil, or_false, not_or] at hnot
  simp [pictureFolder, Tree.set, emptyFolder, hnot.1, hnot.2] at hq

theorem eq_picture {q : Path} (h : IsImage pictureFolder q) : q = picture := by
  obtain ⟨himage, f, hf⟩ := h
  by_contra hne
  have hfolder : q = pictures := by
    by_contra hnot
    simp [pictureFolder, Tree.set, emptyFolder, hne, hnot] at hf
  subst hfolder
  exact absurd himage (by decide)

def scanOnce : List Event :=
  [.start 1000, .classify .notFound picture, .flush [classified] [] 1000, .reconcile]

theorem scan_race_picture :
    PathPresent (run (step pictures) ⟨⟨pictureFolder, [], Db.empty⟩, .idle⟩ scanOnce).watching.db
      picture := by
  have hrun : AllSteps (step pictures) (fun s e => Possible pictures s e ∧ Clean s e)
      ⟨⟨pictureFolder, [], Db.empty⟩, .idle⟩ scanOnce := by
    refine ⟨⟨fun _ => nofun, trivial⟩, ⟨⟨by decide, by decide, by decide⟩, ?_⟩,
      ⟨?_, ?_⟩, ⟨?_, trivial⟩, trivial⟩
    · rintro f hf
      cases hf
      exact ⟨rfl, rfl⟩
    · rintro scan hscan
      cases hscan
      exact .refl _
    · intro item hitem
      rw [List.mem_singleton.1 hitem]
      exact .inl ⟨by decide, pixels, rfl⟩
    · rintro scan hscan
      cases hscan
      refine ⟨rfl, ?_⟩
      intro q _ hq
      rw [eq_picture (of_decide_eq_true hq)]
      exact List.mem_singleton_self picture
  exact (scan_race (by decide) wellFormed_pictureFolder constraints_empty scanOnce hrun rfl rfl
    picture (by decide)).2 ⟨by decide, pixels, rfl⟩

/-- The picture is deleted, and its removal applied, between its classification and the flush. -/
def scanDeleted : List Event :=
  [.start 1000, .classify .notFound picture, .watch (.disk (.delete picture)),
    .watch (.apply .notFound 1000), .flush [classified] [] 1000, .reconcile]

/-- The scan leaves a location present where no file is. -/
theorem scan_race_deleted : WellFormed pictures pictureFolder ∧
    AllSteps (step pictures) (Possible pictures) ⟨⟨pictureFolder, [], Db.empty⟩, .idle⟩
      scanDeleted ∧
    (run (step pictures) ⟨⟨pictureFolder, [], Db.empty⟩, .idle⟩ scanDeleted).phase = .finished ∧
    (run (step pictures) ⟨⟨pictureFolder, [], Db.empty⟩, .idle⟩ scanDeleted).watching.queue = [] ∧
    PathPresent (run (step pictures) ⟨⟨pictureFolder, [], Db.empty⟩, .idle⟩ scanDeleted).watching.db
      picture ∧
    (run (step pictures) ⟨⟨pictureFolder, [], Db.empty⟩, .idle⟩ scanDeleted).watching.tree picture =
      none := by
  have htree : WellFormed pictures ((Change.delete picture).apply pictureFolder) := by
    refine wellFormed_of_inits [pictures, picture] ?_ (by decide)
    intro q hq
    by_contra hnot
    simp only [List.mem_cons, List.not_mem_nil, or_false, not_or] at hnot
    simp [Change.apply, Tree.without, pictureFolder, Tree.set, emptyFolder, hnot.1, hnot.2] at hq
  refine ⟨wellFormed_pictureFolder, ?_, rfl, rfl, ?_, rfl⟩
  · refine ⟨?_, ⟨by decide, by decide, by decide⟩,
      ⟨⟨⟨by decide, by decide⟩, by decide⟩, htree⟩, trivial, ?_, ?_, trivial⟩
    · intro scan hscan
      cases hscan
    · rintro scan hscan
      cases hscan
      exact .refl _
    · rintro scan hscan
      cases hscan
      refine ⟨rfl, ?_⟩
      intro q _ hq
      rw [Bool.and_eq_true, Bool.and_eq_true] at hq
      rw [eq_picture (of_decide_eq_true hq.1.1)]
      exact List.mem_singleton_self picture
  · exact ⟨1, ⟨some 100, none, true, 1000⟩, by decide, rfl⟩

end ScanRace
end Daemon
end Naiad
