import Naiad.Daemon.ScanRows
import Naiad.Lib.Run

/-!
# Naiad.Daemon.Watch

Live watching: what the file system reports, the two actions it is turned into, and their
application, with the disk going on to change while actions wait.

* `translate`: one report, in actions.
* `Settled`: what the waiting actions still have to do.
* `live_watch`: **the library keeps up with the disk, unless a directory with images in it is moved
  or an image cannot be read**.
-/

namespace Naiad
namespace Daemon
namespace Watch

open Lib Db

/-! ## The disk -/

inductive Node
  | dir
  | file (f : DiskFile)
deriving DecidableEq

/-- What is at each path. -/
abbrev Tree := Path → Option Node

/-- Beneath a path, and not the path itself. -/
def Below (p q : Path) : Prop := q ≠ p ∧ subtreePredicate p q = true

/-- What is beneath the root is in directories. -/
def WellFormed (root : Path) (t : Tree) : Prop :=
  ∀ p q, subtreePredicate root p = true → Below p q → t q ≠ none → t p = some .dir

def Tree.set (t : Tree) (p : Path) (node : Node) : Tree := fun q => if q = p then some node else t q

def Tree.without (t : Tree) (p : Path) : Tree := fun q => if subtreePredicate p q then none else t q

/-- With a tree of its own at a path. -/
def Tree.graft (t : Tree) (p : Path) (moved : Tree) : Tree := fun q =>
  if subtreePredicate p q then moved (q.drop p.length) else t q

/-- An image file, by its extension. -/
def IsImage (t : Tree) (p : Path) : Prop := isSupportedImage p = true ∧ ∃ f, t p = some (.file f)

/-- Files that cannot be read, and directories, are errors of another kind than a missing file; how
the system reports a missing path is up to it (a file may stand where a directory was). -/
def Tree.hashFile (t : Tree) (missing : ErrorKind) (path : Path) : Except ScanError FileRecord :=
  match t path with
  | none => .error ⟨path, missing⟩
  | some .dir => .error ⟨path, .other⟩
  | some (.file f) =>
    if f.statOk && f.readOk then .ok ⟨f.hash, path, f.size, f.mtime, f.createdAt, some f.sha256⟩
    else .error ⟨path, .other⟩

def Tree.extractMetadata (t : Tree) (path : Path) : FileMetadata :=
  match t path with
  | some (.file f) => f.metadata
  | _ => default

/-! ## Reports -/

inductive RenameMode
  | any
  | renamedTo
  | renamedFrom
  | both
  | other

inductive ModifyKind
  | any
  | data
  | metadata
  | name (mode : RenameMode)
  | other

inductive EventKind
  | any
  | access
  | create
  | modify (kind : ModifyKind)
  | remove
  | other

/-- A coalesced change reduced to the daemon's two reindex actions. -/
inductive WatchEvent
  | upsert (path : Path)
  | remove (path : Path)
deriving DecidableEq

/-- Upserts are gated on the image allowlist, removes never. -/
def upsert (p : Path) : List WatchEvent := if isSupportedImage p then [.upsert p] else []

/-- Map one event kind and its paths to actions. -/
def translate : EventKind → List Path → List WatchEvent
  | .create, paths => paths.flatMap upsert
  | .modify (.name .both), paths =>
    match paths with
    | [source, target] => .remove source :: upsert target
    | _ => []
  | .modify (.name .renamedFrom), paths => paths.map .remove
  | .modify (.name .renamedTo), paths => paths.flatMap upsert
  | .modify _, paths => paths.flatMap upsert
  | .remove, paths => paths.map .remove
  | _, _ => []

/-- Changes of the disk beneath a root. What crosses the root may be reported as a rename or as a
creation or removal. -/
inductive Change
  | create (p : Path) (f : DiskFile)
  | mkdir (p : Path)
  | write (p : Path) (f : DiskFile)
  /-- A file, or a directory and all beneath. -/
  | delete (p : Path)
  | moveOut (p : Path) (asRename : Bool)
  | moveIn (p : Path) (moved : Tree) (asRename : Bool)
  | rename (source target : Path)

namespace Change

def apply (t : Tree) : Change → Tree
  | create p f => t.set p (.file f)
  | mkdir p => t.set p .dir
  | write p f => t.set p (.file f)
  | delete p => t.without p
  | moveOut p _ => t.without p
  | moveIn p moved _ => t.graft p moved
  | rename source target => (t.without source).graft target fun rest => t (source ++ rest)

/-- A rename within the root is one event; what is beneath a directory is not reported. -/
def report : Change → EventKind × List Path
  | create p _ => (.create, [p])
  | mkdir p => (.create, [p])
  | write p _ => (.modify .data, [p])
  | delete p => (.remove, [p])
  | moveOut p asRename => (if asRename then .modify (.name .renamedFrom) else .remove, [p])
  | moveIn p _ asRename => (if asRename then .modify (.name .renamedTo) else .create, [p])
  | rename source target => (.modify (.name .both), [source, target])

/-- A file replaces a file, and a directory an empty directory. -/
def Replaces (t : Tree) (p : Path) (node : Option Node) : Prop :=
  (∀ q, Below p q → t q = none) ∧
    match t p, node with
    | _, none => False
    | none, some _ => True
    | some (.file _), some (.file _) => True
    | some .dir, some .dir => True
    | _, _ => False

/-- What a file system can do. -/
def Possible (root : Path) (t : Tree) : Change → Prop
  | create p _ => Below root p ∧ t p = none
  | mkdir p => Below root p ∧ t p = none
  | write p _ => Below root p ∧ ∃ f, t p = some (.file f)
  | delete p => Below root p ∧ t p ≠ none
  | moveOut p _ => Below root p ∧ t p ≠ none
  | moveIn p moved _ => Below root p ∧ Replaces t p (moved [])
  | rename source target => Below root source ∧ Below root target ∧
    subtreePredicate source target = false ∧ Replaces t target (t source)

/-- No image is beneath a directory that is moved. -/
def Clean (t : Tree) (c : Change) : Prop :=
  match c with
  | moveIn p _ _ => ∀ q, Below p q → ¬ IsImage (c.apply t) q
  | rename _ target => ∀ q, Below target q → ¬ IsImage (c.apply t) q
  | _ => True

end Change

/-! ## The watcher -/

/-- `reindex_upsert` with what hashing the path gives. -/
def reindex (hashed : Except ScanError FileRecord) (metadata : FileMetadata) (db : Db) (path : Path)
    (now : Nat) : Except ScanError Db :=
  match hashed with
  | .ok record => .ok (storeRecord db record metadata (db.nextScanMarker now) now)
  | .error e => if e.source = .notFound then .ok (db.markMissingPath path) else .error e

theorem reindexUpsert_eq {w : World} (disk : Disk w) (db : Db) (path : Path) (now : Nat) :
    reindexUpsert disk db path now =
      reindex (disk.hashFile path) (disk.extractMetadata path) db path now := by
  unfold reindexUpsert reindex
  cases h : disk.hashFile path with
  | ok record =>
    obtain ⟨f, _, _, rfl⟩ := Disk.hashFile_ok h
    rfl
  | error e => rfl

/-- An action that fails is logged and leaves the library alone. -/
def applyEvent (t : Tree) (missing : ErrorKind) (now : Nat) (db : Db) : WatchEvent → Db
  | .upsert p =>
    ((reindex (t.hashFile missing p) (t.extractMetadata p) db p now).toOption).getD db
  | .remove p => reindexRemove db p

structure Watching where
  tree : Tree
  queue : List WatchEvent
  db : Db

inductive Event
  | disk (c : Change)
  /-- The next action is applied to the disk there is by then. -/
  | apply (missing : ErrorKind) (now : Nat)

def step (s : Watching) : Event → Watching
  | .disk c => { s with
      tree := c.apply s.tree
      queue := s.queue ++ translate c.report.1 c.report.2 }
  | .apply missing now =>
    match s.queue with
    | [] => s
    | ev :: queue => { s with queue, db := applyEvent s.tree missing now s.db ev }

def Possible (root : Path) (s : Watching) : Event → Prop
  | .disk c => c.Possible root s.tree ∧ WellFormed root (c.apply s.tree)
  | .apply _ _ => True

/-- No directory with images in it is moved, and an image can be read when its action is applied. -/
def Clean (s : Watching) : Event → Prop
  | .disk c => c.Clean s.tree
  | .apply _ _ => ∀ p f, s.queue.head? = some (.upsert p) → s.tree p = some (.file f) →
    f.statOk = true ∧ f.readOk = true

/-- Some location row of the path is present. -/
def PathPresent (db : Db) (p : Path) : Prop :=
  ∃ f loc, db.locations.lookup (f, p) = some loc ∧ loc.present = true

/-- The present locations beneath the root are its image files. -/
def Exact (root : Path) (t : Tree) (db : Db) : Prop :=
  ∀ p, subtreePredicate root p = true → (PathPresent db p ↔ IsImage t p)

/-! ## The two writes -/

section

variable {db : Db} {p q : Path}

theorem pathPresent_markMissingPath :
    PathPresent (db.markMissingPath p) q ↔ PathPresent db q ∧ subtreePredicate p q = false := by
  have hlookup : ∀ f, (db.markMissingPath p).locations.lookup (f, q) =
      (db.locations.lookup (f, q)).map fun row =>
        if row.present ∧ subtreePredicate p q then { row with present := false } else row :=
    fun f => Table.lookup_modify _ _ _
  constructor
  · rintro ⟨f, loc, hl, hpresent⟩
    rw [hlookup] at hl
    obtain ⟨row, hrow, rfl⟩ := Option.map_eq_some_iff.1 hl
    by_cases hsub : subtreePredicate p q = true
    · by_cases hp : row.present = true
      · simp [hsub, hp] at hpresent
      · simp [hp] at hpresent
    · rw [if_neg fun h => hsub h.2] at hpresent
      exact ⟨⟨f, row, hrow, hpresent⟩, by simpa using hsub⟩
  · rintro ⟨⟨f, row, hrow, hpresent⟩, hsub⟩
    refine ⟨f, row, ?_, hpresent⟩
    rw [hlookup, hrow]
    simp [hsub]

theorem locations_storeRecord (hc : db.FileConstraints) {record : FileRecord}
    {metadata : FileMetadata} {marker now : Nat} :
    (storeRecord db record metadata marker now).locations =
      db.locations.insert (db.importId record.hash, record.path)
        ⟨record.mtime, record.createdAt, true, marker⟩ := by
  rw [← insertFile_locations hc]
  unfold storeRecord
  split <;> rfl

theorem pathPresent_storeRecord (hc : db.FileConstraints) {record : FileRecord}
    {metadata : FileMetadata} {marker now : Nat} :
    PathPresent (storeRecord db record metadata marker now) q ↔
      q = record.path ∨ PathPresent db q := by
  unfold PathPresent
  rw [locations_storeRecord hc]
  constructor
  · rintro ⟨f, loc, hl, hpresent⟩
    by_cases hk : (f, q) = (db.importId record.hash, record.path)
    · exact .inl (Prod.mk.inj hk).2
    · rw [AList.lookup_insert_ne hk] at hl
      exact .inr ⟨f, loc, hl, hpresent⟩
  · rintro (rfl | ⟨f, loc, hl, hpresent⟩)
    · exact ⟨_, _, AList.lookup_insert _, rfl⟩
    · by_cases hk : (f, q) = (db.importId record.hash, record.path)
      · refine ⟨f, ⟨record.mtime, record.createdAt, true, marker⟩, ?_, rfl⟩
        rw [hk]
        exact AList.lookup_insert _
      · exact ⟨f, loc, by rw [AList.lookup_insert_ne hk]; exact hl, hpresent⟩

end

/-! ## What the waiting actions still have to do -/

/-- The action writes the row of the path. -/
def WatchEvent.touches (q : Path) : WatchEvent → Bool
  | .upsert p => p = q
  | .remove p => subtreePredicate p q

def lastTouch (q : Path) (queue : List WatchEvent) : Option WatchEvent :=
  (queue.filter (·.touches q)).getLast?

/-- Rows of paths without an image have a removal to come; images have their row, or their upsert is
the last action that writes it. -/
structure Settled (root : Path) (s : Watching) : Prop where
  tree : WellFormed root s.tree
  constraints : s.db.FileConstraints
  upserts : ∀ p, .upsert p ∈ s.queue → isSupportedImage p = true ∧ subtreePredicate root p = true
  gone : ∀ q, subtreePredicate root q = true → ¬ IsImage s.tree q → PathPresent s.db q →
    ∃ p, .remove p ∈ s.queue ∧ subtreePredicate p q = true
  here : ∀ q, subtreePredicate root q = true → IsImage s.tree q →
    lastTouch q s.queue = some (.upsert q) ∨ lastTouch q s.queue = none ∧ PathPresent s.db q

section

variable {root p q : Path} {t : Tree} {c : Change}

@[simp] theorem subtreePredicate_self (p : Path) : subtreePredicate p p = true := by
  simp [subtreePredicate]

theorem lastTouch_append (q : Path) (queue queue' : List WatchEvent) :
    lastTouch q (queue ++ queue') = (lastTouch q queue').or (lastTouch q queue) := by
  rw [lastTouch, List.filter_append, List.getLast?_append]
  rfl

@[simp] theorem lastTouch_nil (q : Path) : lastTouch q [] = none := rfl

theorem lastTouch_upsert : lastTouch q (upsert p) =
    if isSupportedImage p = true ∧ p = q then some (.upsert p) else none := by
  unfold upsert
  by_cases himage : isSupportedImage p = true
  · rw [if_pos himage]
    by_cases hq : p = q
    · subst hq
      simp [himage, lastTouch, WatchEvent.touches]
    · simp [hq, lastTouch, WatchEvent.touches]
  · simp [himage]

theorem lastTouch_remove_cons (queue : List WatchEvent) (h : subtreePredicate p q = false) :
    lastTouch q (.remove p :: queue) = lastTouch q queue := by
  simp [lastTouch, WatchEvent.touches, h]

theorem lastTouch_remove_or (queue : List WatchEvent) :
    lastTouch q (.remove p :: queue) = (lastTouch q queue).or (lastTouch q [.remove p]) :=
  lastTouch_append q [.remove p] queue

theorem translate_report (c : Change) : translate c.report.1 c.report.2 =
    match c with
    | .create p _ => upsert p
    | .mkdir p => upsert p
    | .write p _ => upsert p
    | .delete p => [.remove p]
    | .moveOut p _ => [.remove p]
    | .moveIn p _ _ => upsert p
    | .rename source target => .remove source :: upsert target := by
  cases c with
  | moveOut p asRename => cases asRename <;> simp [Change.report, translate]
  | moveIn p moved asRename => cases asRename <;> simp [Change.report, translate]
  | _ => simp [Change.report, translate]

theorem Change.Replaces.file {node : Option Node} {f : DiskFile} (h : Change.Replaces t p node)
    (hp : t p = some (.file f)) : ∃ g, node = some (.file g) := by
  have hnode := h.2
  rw [hp] at hnode
  cases node with
  | none => exact hnode.elim
  | some node =>
    cases node with
    | dir => exact hnode.elim
    | file g => exact ⟨g, rfl⟩

/-- A file stays one when something is moved onto a path. -/
theorem file_graft {u moved : Tree} {f : DiskFile} (h : Change.Replaces t p (moved []))
    (hu : u q = t q) (hq : t q = some (.file f)) : ∃ g, u.graft p moved q = some (.file g) := by
  unfold Tree.graft
  by_cases hsub : subtreePredicate p q = true
  · rw [if_pos hsub]
    by_cases heq : q = p
    · subst heq
      rw [List.drop_length]
      exact h.file hq
    · rw [h.1 q ⟨heq, hsub⟩] at hq
      cases hq
  · rw [if_neg hsub, hu]
    exact ⟨f, hq⟩

/-- A path that stops being an image is removed. -/
theorem removed_of_change (hpossible : c.Possible root t) (hq : IsImage t q)
    (hgone : ¬ IsImage (c.apply t) q) :
    ∃ p, .remove p ∈ translate c.report.1 c.report.2 ∧ subtreePredicate p q = true := by
  rw [translate_report]
  obtain ⟨himage, f, hf⟩ := hq
  cases c with
  | create p g =>
    refine absurd ⟨himage, ?_⟩ hgone
    by_cases hp : q = p
    · exact ⟨g, by simp [Change.apply, Tree.set, hp]⟩
    · exact ⟨f, by simp [Change.apply, Tree.set, hp, hf]⟩
  | mkdir p =>
    refine absurd ⟨himage, f, ?_⟩ hgone
    have hp : q ≠ p := by
      rintro rfl
      rw [hpossible.2] at hf
      cases hf
    simp [Change.apply, Tree.set, hp, hf]
  | write p g =>
    refine absurd ⟨himage, ?_⟩ hgone
    by_cases hp : q = p
    · exact ⟨g, by simp [Change.apply, Tree.set, hp]⟩
    · exact ⟨f, by simp [Change.apply, Tree.set, hp, hf]⟩
  | delete p =>
    refine ⟨p, by simp, ?_⟩
    by_contra hsub
    exact hgone ⟨himage, f, by simp [Change.apply, Tree.without, hsub, hf]⟩
  | moveOut p asRename =>
    refine ⟨p, by simp, ?_⟩
    by_contra hsub
    exact hgone ⟨himage, f, by simp [Change.apply, Tree.without, hsub, hf]⟩
  | moveIn p moved asRename =>
    exact absurd ⟨himage, file_graft hpossible.2 rfl hf⟩ hgone
  | rename source target =>
    by_cases hsub : subtreePredicate source q = true
    · exact ⟨source, by simp, hsub⟩
    · refine absurd ⟨himage, ?_⟩ hgone
      have hreplaces := hpossible.2.2.2
      rw [← List.append_nil source] at hreplaces
      exact @file_graft target q t _ (fun rest => t (source ++ rest)) f hreplaces
        (by simp [Tree.without, hsub]) hf

/-- What a change leaves as an image is upserted last, or left alone. -/
theorem upserted_of_change (hpossible : c.Possible root t) (hclean : c.Clean t)
    (hq : IsImage (c.apply t) q) :
    lastTouch q (translate c.report.1 c.report.2) = some (.upsert q) ∨
      lastTouch q (translate c.report.1 c.report.2) = none ∧ IsImage t q := by
  rw [translate_report]
  obtain ⟨himage, f, hf⟩ := id hq
  have hupsert : ∀ p, (p ≠ q → IsImage t q) → lastTouch q (upsert p) = some (.upsert q) ∨
      lastTouch q (upsert p) = none ∧ IsImage t q := by
    intro p hother
    rw [lastTouch_upsert]
    by_cases hp : p = q
    · subst hp
      exact .inl (by simp [himage])
    · exact .inr ⟨by simp [hp], hother hp⟩
  have hremove : ∀ p, subtreePredicate p q = false → lastTouch q [.remove p] = none := by
    intro p hsub
    rw [lastTouch_remove_cons _ hsub, lastTouch_nil]
  cases c with
  | create p g =>
    refine hupsert p fun hp => ⟨himage, f, ?_⟩
    simpa [Change.apply, Tree.set, Ne.symm hp] using hf
  | mkdir p =>
    refine hupsert p fun hp => ⟨himage, f, ?_⟩
    simpa [Change.apply, Tree.set, Ne.symm hp] using hf
  | write p g =>
    refine hupsert p fun hp => ⟨himage, f, ?_⟩
    simpa [Change.apply, Tree.set, Ne.symm hp] using hf
  | delete p =>
    simp only [Change.apply, Tree.without] at hf
    by_cases hsub : subtreePredicate p q = true
    · simp [hsub] at hf
    · rw [if_neg hsub] at hf
      exact .inr ⟨hremove p (by simpa using hsub), himage, f, hf⟩
  | moveOut p asRename =>
    simp only [Change.apply, Tree.without] at hf
    by_cases hsub : subtreePredicate p q = true
    · simp [hsub] at hf
    · rw [if_neg hsub] at hf
      exact .inr ⟨hremove p (by simpa using hsub), himage, f, hf⟩
  | moveIn p moved asRename =>
    refine hupsert p fun hp => ⟨himage, f, ?_⟩
    have hsub : subtreePredicate p q ≠ true := fun hsub => hclean q ⟨Ne.symm hp, hsub⟩ hq
    simpa [Change.apply, Tree.graft, hsub] using hf
  | rename source target =>
    simp only
    rw [lastTouch_remove_or]
    by_cases hp : target = q
    · subst hp
      exact .inl (by simp [lastTouch_upsert, himage])
    · have hsub : subtreePredicate target q ≠ true :=
        fun hsub => hclean q ⟨Ne.symm hp, hsub⟩ hq
      simp only [Change.apply, Tree.graft, if_neg hsub, Tree.without] at hf
      by_cases hsource : subtreePredicate source q = true
      · simp [hsource] at hf
      · rw [if_neg hsource] at hf
        refine .inr ⟨?_, himage, f, hf⟩
        rw [hremove source (by simpa using hsource), lastTouch_upsert, if_neg fun h => hp h.2]
        rfl

/-- What a change has upserted is an image beneath the root. -/
theorem upsert_of_change (hpossible : c.Possible root t)
    (hq : .upsert q ∈ translate c.report.1 c.report.2) :
    isSupportedImage q = true ∧ subtreePredicate root q = true := by
  rw [translate_report] at hq
  have hupsert : ∀ p, Below root p → .upsert q ∈ upsert p →
      isSupportedImage q = true ∧ subtreePredicate root q = true := by
    intro p hp hmem
    unfold upsert at hmem
    split at hmem
    · rename_i himage
      cases List.mem_singleton.1 hmem
      exact ⟨himage, hp.2⟩
    · cases hmem
  cases c with
  | create p g => exact hupsert p hpossible.1 hq
  | mkdir p => exact hupsert p hpossible.1 hq
  | write p g => exact hupsert p hpossible.1 hq
  | delete p => simp at hq
  | moveOut p asRename => simp at hq
  | moveIn p moved asRename => exact hupsert p hpossible.1 hq
  | rename source target =>
    refine hupsert target hpossible.2.1 ?_
    simpa using hq

end

/-! ## Steps -/

section

variable {root : Path} {s : Watching}

theorem Settled.change {c : Change} (h : Settled root s) (hpossible : c.Possible root s.tree)
    (htree : WellFormed root (c.apply s.tree)) (hclean : c.Clean s.tree) :
    Settled root (step s (.disk c)) := by
  refine ⟨htree, h.constraints, ?_, ?_, ?_⟩
  · intro p hp
    rcases List.mem_append.1 hp with hp | hp
    · exact h.upserts p hp
    · exact upsert_of_change hpossible hp
  · intro q hroot hq hpresent
    by_cases hbefore : IsImage s.tree q
    · obtain ⟨p, hp, hsub⟩ := removed_of_change hpossible hbefore hq
      exact ⟨p, List.mem_append_right _ hp, hsub⟩
    · obtain ⟨p, hp, hsub⟩ := h.gone q hroot hbefore hpresent
      exact ⟨p, List.mem_append_left _ hp, hsub⟩
  · intro q hroot hq
    change lastTouch q (s.queue ++ _) = _ ∨ lastTouch q (s.queue ++ _) = none ∧ PathPresent s.db q
    rw [lastTouch_append]
    rcases upserted_of_change hpossible hclean hq with hlast | ⟨hnone, hbefore⟩
    · rw [hlast]
      exact .inl rfl
    · rw [hnone, Option.none_or]
      exact h.here q hroot hbefore

theorem applyEvent_upsert_eq (t : Tree) (missing : ErrorKind) (now : Nat) (db : Db) (p : Path) :
    applyEvent t missing now db (.upsert p) =
      match t.hashFile missing p with
      | .ok record => storeRecord db record (t.extractMetadata p) (db.nextScanMarker now) now
      | .error e => if e.source = .notFound then db.markMissingPath p else db := by
  cases h : t.hashFile missing p with
  | ok record => simp [applyEvent, reindex, h, Except.toOption]
  | error e =>
    by_cases he : e.source = .notFound
    · simp [applyEvent, reindex, h, he, Except.toOption]
    · simp [applyEvent, reindex, h, he, Except.toOption]

/-- What an upsert writes: the record of a file that can be read, a missing path, or nothing. -/
theorem applyEvent_upsert_cases (t : Tree) (missing : ErrorKind) (now : Nat) (db : Db) (p : Path) :
    (∃ f record metadata, t p = some (.file f) ∧ (f.statOk && f.readOk) = true ∧ record.path = p ∧
        applyEvent t missing now db (.upsert p) =
          storeRecord db record metadata (db.nextScanMarker now) now) ∨
      (t p = none ∧ applyEvent t missing now db (.upsert p) = db.markMissingPath p) ∨
      ((∀ f, t p = some (.file f) → (f.statOk && f.readOk) = false) ∧
        applyEvent t missing now db (.upsert p) = db) := by
  rw [applyEvent_upsert_eq]
  cases hp : t p with
  | none =>
    cases missing with
    | notFound =>
      have hhash : t.hashFile .notFound p = .error ⟨p, .notFound⟩ := by simp [Tree.hashFile, hp]
      rw [hhash]
      exact .inr (.inl ⟨rfl, rfl⟩)
    | other =>
      have hhash : t.hashFile .other p = .error ⟨p, .other⟩ := by simp [Tree.hashFile, hp]
      rw [hhash]
      exact .inr (.inr ⟨by simp, rfl⟩)
  | some node =>
    cases node with
    | dir =>
      have hhash : t.hashFile missing p = .error ⟨p, .other⟩ := by simp [Tree.hashFile, hp]
      rw [hhash]
      exact .inr (.inr ⟨by simp, rfl⟩)
    | file f =>
      cases hread : f.statOk && f.readOk with
      | true =>
        have hhash : t.hashFile missing p =
            .ok ⟨f.hash, p, f.size, f.mtime, f.createdAt, some f.sha256⟩ := by
          simp only [Tree.hashFile, hp, hread, if_true]
        rw [hhash]
        exact .inl ⟨f, _, _, rfl, hread, rfl, rfl⟩
      | false =>
        have hhash : t.hashFile missing p = .error ⟨p, .other⟩ := by
          simp [Tree.hashFile, hp, hread]
        rw [hhash]
        refine .inr (.inr ⟨?_, rfl⟩)
        intro g hg
        cases hg
        exact hread

/-- What an upsert does to the rows. -/
theorem applyEvent_upsert (hc : s.db.FileConstraints) (missing : ErrorKind) (now : Nat) (p : Path) :
    (∃ f, s.tree p = some (.file f) ∧ (f.statOk && f.readOk) = true ∧
        ∀ q, PathPresent (applyEvent s.tree missing now s.db (.upsert p)) q ↔
          q = p ∨ PathPresent s.db q) ∨
      (s.tree p = none ∧
        ∀ q, PathPresent (applyEvent s.tree missing now s.db (.upsert p)) q ↔
          PathPresent s.db q ∧ subtreePredicate p q = false) ∨
      ((∀ f, s.tree p = some (.file f) → (f.statOk && f.readOk) = false) ∧
        ∀ q, PathPresent (applyEvent s.tree missing now s.db (.upsert p)) q ↔
          PathPresent s.db q) := by
  rcases applyEvent_upsert_cases s.tree missing now s.db p with
    ⟨f, record, metadata, hp, hread, rfl, heq⟩ | ⟨hnone, heq⟩ | ⟨hfail, heq⟩
  · rw [heq]
    exact .inl ⟨f, hp, hread, fun _ => pathPresent_storeRecord hc⟩
  · rw [heq]
    exact .inr (.inl ⟨hnone, fun _ => pathPresent_markMissingPath⟩)
  · rw [heq]
    exact .inr (.inr ⟨hfail, fun _ => .rfl⟩)

theorem constraints_markMissingPath {db : Db} (hc : db.FileConstraints) (p : Path) :
    (db.markMissingPath p).FileConstraints :=
  fileConstraints_updateLocations hc _

theorem constraints_applyEvent (hc : s.db.FileConstraints) (missing : ErrorKind) (now : Nat)
    (ev : WatchEvent) : (applyEvent s.tree missing now s.db ev).FileConstraints := by
  cases ev with
  | remove p => exact constraints_markMissingPath hc p
  | upsert p =>
    rw [applyEvent_upsert_eq]
    cases s.tree.hashFile missing p with
    | ok record => exact fileConstraints_storeRecord hc
    | error e =>
      simp only
      split
      · exact constraints_markMissingPath hc p
      · exact hc

/-- The head of the queue is applied. -/
theorem Settled.apply {ev : WatchEvent} {queue : List WatchEvent} (h : Settled root s)
    (hqueue : s.queue = ev :: queue) (missing : ErrorKind) (now : Nat)
    (hread : ∀ p f, ev = .upsert p → s.tree p = some (.file f) → f.statOk = true ∧ f.readOk = true) :
    Settled root ⟨s.tree, queue, applyEvent s.tree missing now s.db ev⟩ := by
  have hupserts : ∀ p, .upsert p ∈ queue → isSupportedImage p = true ∧
      subtreePredicate root p = true := fun p hp => h.upserts p (by simp [hqueue, hp])
  have hlast : ∀ q, lastTouch q s.queue = (lastTouch q queue).or (lastTouch q [ev]) := by
    intro q
    rw [hqueue]
    exact lastTouch_append q [ev] queue
  refine ⟨h.tree, constraints_applyEvent h.constraints missing now ev, hupserts, ?_, ?_⟩
  · intro q hroot hq hpresent
    have hbefore : PathPresent s.db q ∧ ∀ p, ev = .remove p → subtreePredicate p q = false := by
      cases ev with
      | remove p =>
        obtain ⟨hpresent, hsub⟩ := pathPresent_markMissingPath.1 hpresent
        refine ⟨hpresent, ?_⟩
        intro p' hp'
        cases hp'
        exact hsub
      | upsert p =>
        refine ⟨?_, by simp⟩
        rcases applyEvent_upsert h.constraints missing now p with ⟨f, hp, _, heq⟩ | ⟨_, heq⟩ |
          ⟨_, heq⟩
        · rcases (heq q).1 hpresent with rfl | hpresent
          · exact absurd ⟨(h.upserts q (by simp [hqueue])).1, f, hp⟩ hq
          · exact hpresent
        · exact ((heq q).1 hpresent).1
        · exact (heq q).1 hpresent
    obtain ⟨p, hp, hsub⟩ := h.gone q hroot hq hbefore.1
    rw [hqueue] at hp
    rcases List.mem_cons.1 hp with heq | hp
    · have hnot := hbefore.2 p heq.symm
      rw [hsub] at hnot
      cases hnot
    · exact ⟨p, hp, hsub⟩
  · intro q hroot hq
    have hhere := h.here q hroot hq
    rw [hlast q] at hhere
    change lastTouch q queue = _ ∨ lastTouch q queue = none ∧ _
    cases hrest : lastTouch q queue with
    | some ev' =>
      rw [hrest] at hhere
      rcases hhere with heq | ⟨heq, _⟩
      · exact .inl heq
      · cases heq
    | none =>
      rw [hrest, Option.none_or] at hhere
      refine .inr ⟨rfl, ?_⟩
      obtain ⟨himage, f, hf⟩ := hq
      cases ev with
      | remove p =>
        have hsub : subtreePredicate p q = false := by
          by_contra hsub
          simp [lastTouch, WatchEvent.touches, hsub] at hhere
        rcases hhere with heq | ⟨_, hpresent⟩
        · simp [lastTouch, WatchEvent.touches, hsub] at heq
        · exact pathPresent_markMissingPath.2 ⟨hpresent, hsub⟩
      | upsert p =>
        have hroot' := (h.upserts p (by simp [hqueue])).2
        by_cases hp : p = q
        · subst hp
          obtain ⟨hstat, hok⟩ := hread p f rfl hf
          rcases applyEvent_upsert h.constraints missing now p with ⟨_, _, _, heq⟩ | ⟨hnone, _⟩ |
            ⟨hfail, _⟩
          · exact (heq p).2 (.inl rfl)
          · rw [hf] at hnone
            cases hnone
          · have hfalse := hfail f hf
            rw [hstat, hok] at hfalse
            cases hfalse
        · have hpresent : PathPresent s.db q := by
            rcases hhere with heq | ⟨_, hpresent⟩
            · simp [lastTouch, WatchEvent.touches, hp] at heq
            · exact hpresent
          rcases applyEvent_upsert h.constraints missing now p with ⟨_, _, _, heq⟩ | ⟨hnone, heq⟩ |
            ⟨_, heq⟩
          · exact (heq q).2 (.inr hpresent)
          · refine (heq q).2 ⟨hpresent, ?_⟩
            by_contra hsub
            have hsome : s.tree q ≠ none := by
              rw [show s.tree q = some (.file f) from hf]
              simp
            have hdir := h.tree p q hroot' ⟨Ne.symm hp, by simpa using hsub⟩ hsome
            rw [hnone] at hdir
            cases hdir
          · exact (heq q).2 hpresent

theorem Settled.step (h : Settled root s) {e : Event} (hpossible : Possible root s e)
    (hclean : Clean s e) : Settled root (step s e) := by
  cases e with
  | disk c => exact h.change hpossible.1 hpossible.2 hclean
  | apply missing now =>
    unfold Watch.step
    cases hqueue : s.queue with
    | nil => exact h
    | cons ev queue =>
      refine h.apply hqueue missing now ?_
      rintro p f rfl
      exact hclean p f (by rw [hqueue]; rfl)

/-- Nothing waits. -/
theorem Settled.exact (h : Settled root s) (hdone : s.queue = []) : Exact root s.tree s.db := by
  intro p hroot
  constructor
  · intro hpresent
    by_contra hp
    obtain ⟨q, hq, _⟩ := h.gone p hroot hp hpresent
    rw [hdone] at hq
    cases hq
  · intro hp
    rcases h.here p hroot hp with hlast | ⟨_, hpresent⟩
    · rw [hdone] at hlast
      cases hlast
    · exact hpresent

end

/-- **Live watching.** Starting with the present locations beneath the root being its image files,
after any changes of the disk, with the actions they are reported as applied in order and at any
time, in a run that moves no directory with images in it and can read the images whose actions it
applies: once every action has been applied, the present locations are the image files. -/
theorem live_watch {root : Path} {t : Tree} {db : Db} (htree : WellFormed root t)
    (hc : db.FileConstraints) (hexact : Exact root t db) (events : List Event)
    (hrun : AllSteps step (fun s e => Possible root s e ∧ Clean s e) ⟨t, [], db⟩ events)
    (hdone : (run step ⟨t, [], db⟩ events).queue = []) :
    Exact root (run step ⟨t, [], db⟩ events).tree (run step ⟨t, [], db⟩ events).db := by
  have hstart : Settled root ⟨t, [], db⟩ := by
    refine ⟨htree, hc, by simp, ?_, ?_⟩
    · exact fun q hroot hq hpresent => absurd ((hexact q hroot).1 hpresent) hq
    · exact fun q hroot hq => .inr ⟨rfl, (hexact q hroot).2 hq⟩
  exact (hrun.invariant hstart fun s e h hstep => h.step hstep.1 hstep.2).exact hdone

/-! ## One folder -/

/-- `/p` -/
def pictures : Path := [47, 112]

/-- `/p/x.jpg` -/
def picture : Path := [47, 112, 47, 120, 46, 106, 112, 103]

/-- `/p/d` -/
def album : Path := [47, 112, 47, 100]

def pixels : DiskFile :=
  ⟨Hash.fill 1, Hash.fill 11, 10, some 100, none, default, true, true, true⟩

/-- An empty folder. -/
def emptyFolder : Tree := fun q => if q = pictures then some .dir else none

/-- A directory with `/x.jpg` in it. -/
def movedAlbum : Tree := fun rest =>
  if rest = [] then some .dir
  else if rest = [47, 120, 46, 106, 112, 103] then some (.file pixels) else none

theorem wellFormed_of_inits {root : Path} {t : Tree} (paths : List Path)
    (hsupport : ∀ q, t q ≠ none → q ∈ paths)
    (hparents : ∀ q ∈ paths, ∀ p ∈ q.inits, subtreePredicate root p = true → q ≠ p →
      subtreePredicate p q = true → t p = some .dir) : WellFormed root t := by
  rintro p q hroot ⟨hne, hsub⟩ hq
  refine hparents q (hsupport q hq) p ?_ hroot hne hsub
  rw [List.mem_inits]
  rcases subtreePredicate_iff.1 hsub with heq | hlead
  · exact absurd heq hne
  · exact (List.prefix_append p [separator]).trans hlead

theorem wellFormed_emptyFolder : WellFormed pictures emptyFolder := by
  refine wellFormed_of_inits [pictures] ?_ (by decide)
  intro q hq
  by_contra hnot
  simp only [List.mem_singleton] at hnot
  simp [emptyFolder, hnot] at hq

theorem constraints_empty : Db.empty.FileConstraints := by
  refine ⟨?_, ?_⟩
  · intro f g row row' hl
    cases hl
  · intro f p loc hl
    cases hl

theorem exact_emptyFolder : Exact pictures emptyFolder Db.empty := by
  intro p _
  constructor
  · rintro ⟨f, loc, hl, _⟩
    cases hl
  · rintro ⟨_, f, hf⟩
    unfold emptyFolder at hf
    split at hf <;> cases hf

theorem live_watch_picture : PathPresent
    (run step ⟨emptyFolder, [], Db.empty⟩ [.disk (.create picture pixels), .apply .notFound 1000]).db
    picture := by
  have htree : WellFormed pictures ((Change.create picture pixels).apply emptyFolder) := by
    refine wellFormed_of_inits [pictures, picture] ?_ (by decide)
    intro q hq
    by_contra hnot
    simp only [List.mem_cons, List.not_mem_nil, or_false, not_or] at hnot
    simp [Change.apply, Tree.set, emptyFolder, hnot.1, hnot.2] at hq
  have hread : Clean (step ⟨emptyFolder, [], Db.empty⟩ (.disk (.create picture pixels)))
      (.apply .notFound 1000) := by
    intro p f hp hf
    obtain rfl : p = picture := by
      cases hp
      rfl
    cases hf
    exact ⟨rfl, rfl⟩
  have hrun : AllSteps step (fun s e => Possible pictures s e ∧ Clean s e)
      ⟨emptyFolder, [], Db.empty⟩ [.disk (.create picture pixels), .apply .notFound 1000] :=
    ⟨⟨⟨⟨⟨by decide, by decide⟩, rfl⟩, htree⟩, trivial⟩, ⟨trivial, hread⟩, trivial⟩
  exact (live_watch wellFormed_emptyFolder constraints_empty exact_emptyFolder _ hrun rfl picture
    (by decide)).2 ⟨by decide, pixels, rfl⟩

/-- A directory with a picture is moved into the folder: no action is reported, and the picture has
no row. -/
theorem live_watch_album : WellFormed pictures emptyFolder ∧ Exact pictures emptyFolder Db.empty ∧
    Possible pictures ⟨emptyFolder, [], Db.empty⟩ (.disk (.moveIn album movedAlbum true)) ∧
    (step ⟨emptyFolder, [], Db.empty⟩ (.disk (.moveIn album movedAlbum true))).queue = [] ∧
    ¬ Exact pictures (step ⟨emptyFolder, [], Db.empty⟩ (.disk (.moveIn album movedAlbum true))).tree
      (step ⟨emptyFolder, [], Db.empty⟩ (.disk (.moveIn album movedAlbum true))).db := by
  have htree : WellFormed pictures ((Change.moveIn album movedAlbum true).apply emptyFolder) := by
    refine wellFormed_of_inits [pictures, album, album ++ [47, 120, 46, 106, 112, 103]] ?_ (by decide)
    intro q hq
    simp only [Change.apply, Tree.graft] at hq
    by_cases hsub : subtreePredicate album q = true
    · rw [if_pos hsub] at hq
      have hsplit : album ++ q.drop album.length = q := by
        rcases subtreePredicate_iff.1 hsub with rfl | hlead
        · rfl
        · exact List.prefix_iff_eq_append.1 ((List.prefix_append _ _).trans hlead)
      rw [← hsplit]
      by_cases hself : q.drop album.length = []
      · simp [hself]
      · by_cases hpicture : q.drop album.length = [47, 120, 46, 106, 112, 103]
        · simp [hpicture]
        · simp [movedAlbum, hself, hpicture] at hq
    · rw [if_neg hsub] at hq
      by_contra hnot
      simp only [List.mem_cons, not_or] at hnot
      simp [emptyFolder, hnot.1] at hq
  refine ⟨wellFormed_emptyFolder, exact_emptyFolder, ⟨⟨⟨by decide, by decide⟩, ?_, trivial⟩, htree⟩,
    by decide, ?_⟩
  · rintro q ⟨_, hsub⟩
    have hq : q ≠ pictures := by
      rintro rfl
      exact absurd hsub (by decide)
    simp [emptyFolder, hq]
  · intro hexact
    obtain ⟨f, loc, hl, _⟩ := (hexact (album ++ [47, 120, 46, 106, 112, 103]) (by decide)).2
      ⟨by decide, pixels, by decide⟩
    cases hl

end Watch
end Daemon
end Naiad
