import Naiad.Db.Locations

/-!
# Naiad.Daemon.Scan

Scanning a folder into the database: the disk an operation sees, the classification of a walked
file, and the writes of one scan in whatever order its results arrive.

* `Disk`: files by path, whose contents their size and mtime determine.
* `importPath`, `scanStreaming`: a scan on one handle, and one that writes in batches.
* `scanStreaming_eq`: they do the same.
-/

namespace Naiad
namespace Daemon

open Lib Db

/-- The sizes of contents, and the content that a size and an mtime stand for at a path: no change
of bytes keeps both. Contents go by their hash. -/
structure World where
  sizeOf : Hash → Nat
  contentAt : Path → Nat → Option Int → Hash

/-- A regular file; `listed`, `statOk` and `readOk` say how far the process gets with it. -/
structure DiskFile where
  hash : Hash
  sha256 : Hash
  size : Nat
  mtime : Option Int
  createdAt : Option Int
  metadata : FileMetadata
  listed : Bool
  statOk : Bool
  readOk : Bool
deriving DecidableEq

structure Disk (w : World) where
  files : Table Path DiskFile
  faithful : ∀ p f, files.lookup p = some f →
    f.size = w.sizeOf f.hash ∧ w.contentAt p f.size f.mtime = f.hash

inductive ErrorKind
  | notFound
  | other
deriving DecidableEq

structure ScanError where
  path : Path
  source : ErrorKind
deriving DecidableEq

structure Fingerprint where
  size : Nat
  mtime : Option Int
  createdAt : Option Int
deriving DecidableEq

/-! ## The indexer -/

def supportedImageExtensions : List String :=
  ["jpg", "jpeg", "png", "gif", "webp", "bmp", "tiff", "tif"]

/-- The last component, trailing separators aside. -/
def fileName (path : Path) : List Byte :=
  ((path.reverse.dropWhile (· = separator)).takeWhile (· ≠ separator)).reverse

/-- What follows the last dot of a file name that does not start there. -/
def extension (path : Path) : Option (List Byte) :=
  let name := (fileName path).reverse
  let rest := name.dropWhile (· ≠ 46)
  if rest.length ≤ 1 then none else some (name.takeWhile (· ≠ 46)).reverse

def toAsciiLowercase (b : Byte) : Byte := if 65 ≤ b ∧ b ≤ 90 then b + 32 else b

def isSupportedImage (path : Path) : Bool :=
  (extension path).any fun ext =>
    supportedImageExtensions.any fun s =>
      ext.map (fun b => (toAsciiLowercase b).toNat) = s.toList.map Char.toNat

/-- Beneath a folder, which may be spelled with a trailing separator. -/
def under (root path : Path) : Bool :=
  path = root || (root ++ [separator]).isPrefixOf path ||
    root.getLast? = some separator && root.isPrefixOf path

namespace Disk

variable {w : World} (disk : Disk w)

/-- The supported image files under `root`. -/
def walk (root : Path) : List Path :=
  disk.files.keys.filter fun p =>
    under root p && isSupportedImage p && (disk.files.lookup p).any DiskFile.listed

def fingerprint (path : Path) : Except ScanError Fingerprint :=
  match disk.files.lookup path with
  | none => .error ⟨path, .notFound⟩
  | some f => if f.statOk then .ok ⟨f.size, f.mtime, f.createdAt⟩ else .error ⟨path, .other⟩

def hashFile (path : Path) : Except ScanError FileRecord :=
  match disk.files.lookup path with
  | none => .error ⟨path, .notFound⟩
  | some f =>
    if f.statOk && f.readOk then
      .ok ⟨f.hash, path, f.size, f.mtime, f.createdAt, some f.sha256⟩
    else .error ⟨path, .other⟩

/-- Best effort: nothing where there is nothing to read. -/
def extractMetadata (path : Path) : FileMetadata :=
  ((disk.files.lookup path).map DiskFile.metadata).getD default

end Disk

/-! ## One file -/

abbrev Known := Table Path (Nat × Option Int)

/-- A file's resolved write action. -/
inductive Pending
  | touch (path : Path) (createdAt : Option Int)
  | store (record : FileRecord) (metadata : FileMetadata)
deriving DecidableEq

def Pending.path : Pending → Path
  | .touch path _ => path
  | .store record _ => record.path

section

variable {w : World} (disk : Disk w)

/-- A file whose size and mtime are known is unchanged and is not hashed again. -/
def classify (known : Known) (path : Path) : Except ScanError Pending :=
  match disk.fingerprint path with
  | .error e => .error e
  | .ok fp =>
    if known.lookup path = some (fp.size, fp.mtime) then .ok (.touch path fp.createdAt)
    else
      match disk.hashFile path with
      | .error e => .error e
      | .ok record => .ok (.store record (disk.extractMetadata record.path))

/-- The write of a hashed file: its rows, then metadata when there is some. -/
def storeRecord (db : Db) (record : FileRecord) (metadata : FileMetadata) (marker now : Nat) : Db :=
  if metadata = default then db.insertFile record marker now
  else (db.insertFile record marker now).updateMetadata record.hash metadata

def persist (db : Db) (item : Pending) (marker now : Nat) : Db :=
  match item with
  | .touch path createdAt => db.touchLocation path marker createdAt
  | .store record metadata => storeRecord db record metadata marker now

/-! ## One scan -/

structure ImportSummary where
  imported : Nat
  errors : Nat
  markedMissing : Nat
deriving DecidableEq, Inhabited

/-- The inputs of a scan: `root` as `std::path::absolute` gives it, and the walk's entries in the
order their results arrive, errors of the walk among them. -/
structure Scan (w : World) where
  root : Path
  disk : Disk w
  arrivals : List (Except ScanError Path)
  arrivals_perm : (arrivals.filterMap Except.toOption).Perm (disk.walk root)
  now : Nat

/-- Classify what the walk yields. -/
def classifyWalk (known : Known) (arrivals : List (Except ScanError Path)) :
    List (Except ScanError Pending) :=
  arrivals.map fun entry => entry.bind (classify disk known)

def onResult (marker now : Nat) (s : Db × ImportSummary) (res : Except ScanError Pending) :
    Db × ImportSummary :=
  match res with
  | .ok item => (persist s.1 item marker now, { s.2 with imported := s.2.imported + 1 })
  | .error _ => (s.1, { s.2 with errors := s.2.errors + 1 })

/-- Mark what the scan did not stamp. -/
def reconcile (root : Path) (marker : Nat) (s : Db × ImportSummary) : Db × ImportSummary :=
  (s.1.markMissingUnderBefore root marker,
    { s.2 with markedMissing := s.1.countMissingUnderBefore root marker })

/-- The classified entries of a scan of `db`. -/
def results (db : Db) (scan : Scan w) : List (Except ScanError Pending) :=
  classifyWalk scan.disk db.presentFingerprints scan.arrivals

def importPath (db : Db) (scan : Scan w) : Db × ImportSummary :=
  let db := db.addRoot scan.root
  let marker := db.nextScanMarker scan.now
  reconcile scan.root marker ((results db scan).foldl (onResult marker scan.now) (db, default))

def scanWriteBatch : Nat := 256

def flush (db : Db) (batch : List Pending) (marker now : Nat) : Db :=
  batch.foldl (fun db item => persist db item marker now) db

/-- Flush a batch and count it. -/
def drain (marker now : Nat) (s : (Db × ImportSummary) × List Pending) : Db × ImportSummary :=
  (flush s.1.1 s.2 marker now, { s.1.2 with imported := s.1.2.imported + s.2.length })

def collectResult (s : (Db × ImportSummary) × List Pending) (res : Except ScanError Pending) :
    (Db × ImportSummary) × List Pending :=
  match res with
  | .ok item => (s.1, s.2 ++ [item])
  | .error _ => ((s.1.1, { s.1.2 with errors := s.1.2.errors + 1 }), s.2)

def flushFull (marker now : Nat) (s : (Db × ImportSummary) × List Pending) :
    (Db × ImportSummary) × List Pending :=
  if scanWriteBatch ≤ s.2.length then (drain marker now s, []) else s

def scanStreaming (db : Db) (scan : Scan w) : Db × ImportSummary :=
  let db := db.addRoot scan.root
  let marker := db.nextScanMarker scan.now
  reconcile scan.root marker
    (drain marker scan.now
      ((results db scan).foldl
        (fun s res => flushFull marker scan.now (collectResult s res)) ((db, default), [])))

/-! ## The watcher -/

/-- Hash a created or modified path and upsert its location; a vanished one is marked missing. -/
def reindexUpsert (db : Db) (path : Path) (now : Nat) : Except ScanError Db :=
  match disk.hashFile path with
  | .ok record =>
    .ok (storeRecord db record (disk.extractMetadata record.path) (db.nextScanMarker now) now)
  | .error e => if e.source = .notFound then .ok (db.markMissingPath path) else .error e

def reindexRemove (db : Db) (path : Path) : Db := db.markMissingPath path

end

/-! ## Writing in batches -/

theorem drain_nil (marker now : Nat) (s : Db × ImportSummary) : drain marker now (s, []) = s := rfl

theorem drain_flushFull (marker now : Nat) (s : (Db × ImportSummary) × List Pending) :
    drain marker now (flushFull marker now s) = drain marker now s := by
  unfold flushFull
  split
  · exact drain_nil marker now _
  · rfl

theorem drain_collectResult (marker now : Nat) (s : (Db × ImportSummary) × List Pending)
    (res : Except ScanError Pending) :
    drain marker now (collectResult s res) = onResult marker now (drain marker now s) res := by
  cases res with
  | ok item => simp [drain, onResult, collectResult, flush, Nat.add_assoc]
  | error e => rfl

theorem drain_foldl (marker now : Nat) (results : List (Except ScanError Pending))
    (s : (Db × ImportSummary) × List Pending) :
    drain marker now
        (results.foldl (fun s res => flushFull marker now (collectResult s res)) s) =
      results.foldl (onResult marker now) (drain marker now s) := by
  induction results generalizing s with
  | nil => rfl
  | cons res results ih =>
    rw [List.foldl_cons, ih, drain_flushFull, drain_collectResult, List.foldl_cons]

/-- Batches only delay the writes of a scan. -/
theorem scanStreaming_eq {w : World} (db : Db) (scan : Scan w) :
    scanStreaming db scan = importPath db scan := by
  simp only [scanStreaming, importPath]
  rw [drain_foldl, drain_nil]

end Daemon
end Naiad
