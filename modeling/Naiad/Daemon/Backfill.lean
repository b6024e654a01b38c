import Naiad.Daemon.Scan
import Naiad.Db.Interop
import Naiad.Lib.Run

/-!
# Naiad.Daemon.Backfill

The two hashes of a content row under scans and `backfill_sha256`, with other writers between any
two of their steps and the files changing all the while.

A scan takes both hashes from one read. The backfill reads again, keeps the SHA-256 and drops the
BLAKE3, so it takes the path's word for the content.

* `StoredFile`: a file as one read of it goes; every reading step sees a file system of its own.
* `Backfill`: a pass between two of its steps.
* `hashes_paired`: runs in which the backfill reads what the rows were hashed from.
-/

namespace Naiad
namespace Daemon
namespace Interop

open Lib Db

/-! ## Files and hashes -/

/-- The two digest functions. -/
structure Digests where
  blake3 : List Byte → Hash
  sha256 : List Byte → Hash

/-- What `stat` says of a file and what a read of it delivers, whether or not the two agree. -/
structure StoredFile where
  bytes : List Byte
  fingerprint : Fingerprint
  metadata : FileMetadata
  openOk : Bool
  readOk : Bool

abbrev FileSystem := Table Path StoredFile

def Digests.hashReaderDual (d : Digests) (bytes : List Byte) : Hash × Hash :=
  (d.blake3 bytes, d.sha256 bytes)

/-- The hashes are those of one byte string. -/
def Digests.Pair (d : Digests) (hash sha : Hash) : Prop :=
  ∃ bytes, d.hashReaderDual bytes = (hash, sha)

/-- Both hashes of the file at a path, from one read. -/
def hashFile (d : Digests) (fs : FileSystem) (path : Path) : Except ScanError FileRecord :=
  match fs.lookup path with
  | none => .error ⟨path, .notFound⟩
  | some file =>
    if file.openOk && file.readOk then
      .ok ⟨(d.hashReaderDual file.bytes).1, path, file.fingerprint.size, file.fingerprint.mtime,
        file.fingerprint.createdAt, some (d.hashReaderDual file.bytes).2⟩
    else .error ⟨path, .other⟩

/-! ## The backfill -/

def importWriteBatch : Nat := 4096

def backfillPassLimit : Nat := 8192

/-- `page` is what is left of the current page; `ended` once a page came back empty. A pass is
`shared` when its skip set is the one kept between pulls. -/
structure Backfill where
  afterId : Nat
  page : List (Nat × Path)
  pending : List (Nat × Hash)
  skip : List Nat
  newlySkipped : List Nat
  ended : Bool
  shared : Bool

namespace Backfill

def start (skip : List Nat) (shared : Bool) : Backfill := ⟨0, [], [], skip, [], false, shared⟩

def flushDue (pass : Backfill) : Bool := pass.ended || importWriteBatch ≤ pass.pending.length

/-- The work list is read when the last page is done and no flush is due. -/
def readsPage (pass : Backfill) : Bool := pass.page.isEmpty && !pass.flushDue

def onPage (pass : Backfill) (page : List (Nat × Path)) : Backfill :=
  { pass with
    afterId := (page.getLast?.map Prod.fst).getD pass.afterId
    page := page
    ended := page.isEmpty }

/-- One row of the page. A file that does not open is skipped from now on, one that breaks off in
the middle is passed over. -/
def hashRow (d : Digests) (fs : FileSystem) (pass : Backfill) (row : Nat × Path) : Backfill :=
  if row.1 ∈ pass.skip then pass
  else
    match (fs.lookup row.2).filter StoredFile.openOk with
    | none => { pass with newlySkipped := pass.newlySkipped ++ [row.1] }
    | some file =>
      if file.readOk then
        -- the BLAKE3 of this read is dropped
        { pass with pending := pass.pending ++ [(row.1, (d.hashReaderDual file.bytes).2)] }
      else pass

def hashNext (d : Digests) (fs : FileSystem) (pass : Backfill) : Backfill :=
  match pass.page with
  | [] => pass
  | row :: rest =>
    if pass.flushDue then pass else hashRow d fs { pass with page := rest } row

/-- The skip set handed back to the caller, of a pass that ran to its end or stopped. -/
def skipAfter (pass : Backfill) : List Nat :=
  if pass.ended then pass.skip ++ pass.newlySkipped else pass.skip

end Backfill

/-! ## The system -/

/-- The database, the hashed files that scans and the watcher have not written yet, the backfills
under way, and the skip set kept between pulls. -/
structure System where
  db : Db
  hashed : List (FileRecord × FileMetadata)
  passes : Table Nat Backfill
  skip : List Nat

/-- Steps of a pass. -/
inductive PassAction
  | readPage (page : List (Nat × Path))
  | hashNext (fs : FileSystem)
  | flush
  | fail

inductive Action
  /-- A scan or the watcher hashes a file. -/
  | hash (path : Path) (fs : FileSystem)
  /-- One of the hashed files is written. -/
  | persist (n marker now : Nat)
  /-- A release without interop hashes imports a file. -/
  | importBlake3 (record : FileRecord) (marker now : Nat)
  /-- An operation that writes no content row. -/
  | other (write : Db → Db)
  | start (id : Nat) (shared : Bool)
  | pass (id : Nat) (action : PassAction)
  | restart

namespace System

def empty : System := ⟨Db.empty, [], ∅, []⟩

def setPass (s : System) (id : Nat) (pass : Backfill) : System :=
  { s with passes := s.passes.insert id pass }

/-- The pass is over and hands back its skip set. -/
def endPass (s : System) (id : Nat) (pass : Backfill) : System :=
  { s with
    passes := s.passes.erase id
    skip := if pass.shared then pass.skipAfter else s.skip }

end System

def passStep (d : Digests) (s : System) (id : Nat) (pass : Backfill) : PassAction → System
  | .readPage page =>
    if pass.readsPage ∧ s.db.FilesMissingSha256After pass.afterId backfillPassLimit page then
      s.setPass id (pass.onPage page)
    else s
  | .hashNext fs => s.setPass id (pass.hashNext d fs)
  | .flush =>
    if pass.flushDue then
      let s := { s with db := s.db.setSha256Batch pass.pending }
      if pass.ended then s.endPass id pass else s.setPass id { pass with pending := [] }
    else s
  | .fail => s.endPass id { pass with ended := false }

def step (d : Digests) (s : System) : Action → System
  | .hash path fs =>
    match hashFile d fs path with
    | .error _ => s
    | .ok record =>
      { s with
        hashed := s.hashed ++ [(record, ((fs.lookup path).map StoredFile.metadata).getD default)] }
  | .persist n marker now =>
    match s.hashed[n]? with
    | none => s
    | some (record, metadata) =>
      { s with db := storeRecord s.db record metadata marker now, hashed := s.hashed.eraseIdx n }
  | .importBlake3 record marker now =>
    { s with db := s.db.insertFile { record with sha256 := none } marker now }
  | .other write => { s with db := { write s.db with files := s.db.files } }
  | .start id shared =>
    if s.db.missingSha256Present = [] then s
    else
      { s with
        passes := s.passes.insert id (.start (if shared then s.skip else []) shared)
        skip := if shared then [] else s.skip }
  | .pass id action =>
    match s.passes.lookup id with
    | none => s
    | some pass => passStep d s id pass action
  | .restart => ⟨s.db, [], ∅, []⟩

/-- Every SHA-256 is that of the content its row is about. -/
def Paired (d : Digests) (db : Db) : Prop :=
  ∀ f hash sha, db.interopOf f = some (hash, some sha) → d.Pair hash sha

/-- The bytes the backfill reads for a row have the row's BLAKE3. -/
def ReadsContent (d : Digests) (db : Db) (fs : FileSystem) (row : Nat × Path) : Prop :=
  ∀ file ∈ fs.lookup row.2, file.openOk = true → file.readOk = true →
    ∀ c ∈ db.interopOf row.1, d.blake3 file.bytes = c.1

instance (d : Digests) (db : Db) (fs : FileSystem) (row : Nat × Path) :
    Decidable (ReadsContent d db fs row) :=
  inferInstanceAs (Decidable (∀ file ∈ fs.lookup row.2, _))

/-- What a pass hashes next holds the content of its row. -/
def CleanPass (d : Digests) (db : Db) (pass : Backfill) : PassAction → Prop
  | .hashNext fs => ∀ row ∈ pass.page.head?, row.1 ∉ pass.skip → ReadsContent d db fs row
  | _ => True

instance (d : Digests) (db : Db) (pass : Backfill) :
    (action : PassAction) → Decidable (CleanPass d db pass action)
  | .hashNext fs =>
    inferInstanceAs (Decidable (∀ row ∈ pass.page.head?, row.1 ∉ pass.skip → ReadsContent d db fs row))
  | .readPage _ => isTrue trivial
  | .flush => isTrue trivial
  | .fail => isTrue trivial

def Clean (d : Digests) (s : System) : Action → Prop
  | .pass id action => ∀ pass ∈ s.passes.lookup id, CleanPass d s.db pass action
  | _ => True

instance (d : Digests) (s : System) : (action : Action) → Decidable (Clean d s action)
  | .pass id action =>
    inferInstanceAs (Decidable (∀ pass ∈ s.passes.lookup id, CleanPass d s.db pass action))
  | .hash _ _ => isTrue trivial
  | .persist _ _ _ => isTrue trivial
  | .importBlake3 _ _ _ => isTrue trivial
  | .other _ => isTrue trivial
  | .start _ _ => isTrue trivial
  | .restart => isTrue trivial

/-! ## What other writers leave -/

/-- Content rows stay, with their BLAKE3. -/
def Keeps (db db' : Db) : Prop :=
  ∀ f c, db.interopOf f = some c → ∃ sha, db'.interopOf f = some (c.1, sha)

section

variable {d : Digests} {db : Db}

theorem keeps_insertFile (record : FileRecord) (marker : Nat) (now : Int) :
    Keeps db (db.insertFile record marker now) := by
  intro f c h
  exact interopOf_insertFile_old record marker now h

theorem keeps_setSha256Batch (items : List (Nat × Hash)) :
    Keeps db (db.setSha256Batch items) := by
  intro f c h
  exact ⟨_, by rw [interopOf_setSha256Batch, h]; rfl⟩

theorem interopOf_storeRecord (record : FileRecord) (metadata : FileMetadata) (marker now f : Nat) :
    (storeRecord db record metadata marker now).interopOf f =
      (db.insertFile record marker now).interopOf f := by
  unfold storeRecord
  split
  · rfl
  · exact interopOf_updateMetadata _ _

/-- An import of a record whose hashes pair. -/
theorem Paired.insertFile {record : FileRecord} (marker : Nat) (now : Int) (h : Paired d db)
    (hrecord : ∀ sha ∈ record.sha256, d.Pair record.hash sha) :
    Paired d (db.insertFile record marker now) := by
  intro f hash sha hrow
  rcases interopOf_insertFile_cases hrow with hold | ⟨rfl, hsha⟩
  · exact h f hash sha hold
  · exact hrecord sha hsha

theorem Paired.setSha256Batch {items : List (Nat × Hash)} (h : Paired d db)
    (hitems : ∀ item ∈ items, ∃ c, db.interopOf item.1 = some c ∧ d.Pair c.1 item.2) :
    Paired d (db.setSha256Batch items) := by
  intro f hash sha hrow
  rw [interopOf_setSha256Batch] at hrow
  obtain ⟨⟨hash', old⟩, hold, heq⟩ := Option.map_eq_some_iff.1 hrow
  simp only [Prod.mk.injEq] at heq
  obtain ⟨rfl, hsha⟩ := heq
  rcases foldl_sha256_cases hsha with hbefore | hmem
  · exact h f hash' sha (hbefore ▸ hold)
  · obtain ⟨c, hc, hpair⟩ := hitems _ hmem
    rw [hold, Option.some.injEq] at hc
    rw [← hc] at hpair
    exact hpair

/-! ## The invariant -/

/-- A pass knows rows that exist, and hashes that pair with theirs. -/
structure PassOk (d : Digests) (db : Db) (pass : Backfill) : Prop where
  page : ∀ row ∈ pass.page, ∃ c, db.interopOf row.1 = some c
  pending : ∀ item ∈ pass.pending, ∃ c, db.interopOf item.1 = some c ∧ d.Pair c.1 item.2

structure Inv (d : Digests) (s : System) : Prop where
  paired : Paired d s.db
  hashed : ∀ r ∈ s.hashed, ∀ sha ∈ r.1.sha256, d.Pair r.1.hash sha
  passes : ∀ id pass, s.passes.lookup id = some pass → PassOk d s.db pass

theorem PassOk.mono {pass : Backfill} {db' : Db} (h : PassOk d db pass) (hkeeps : Keeps db db') :
    PassOk d db' pass := by
  refine ⟨?_, ?_⟩
  · intro row hrow
    obtain ⟨c, hc⟩ := h.page row hrow
    obtain ⟨sha, hc'⟩ := hkeeps _ c hc
    exact ⟨_, hc'⟩
  · intro item hitem
    obtain ⟨c, hc, hpair⟩ := h.pending item hitem
    obtain ⟨sha, hc'⟩ := hkeeps _ c hc
    exact ⟨_, hc', hpair⟩

theorem hashFile_pair {fs : FileSystem} {path : Path} {record : FileRecord}
    (h : hashFile d fs path = .ok record) : ∀ sha ∈ record.sha256, d.Pair record.hash sha := by
  unfold hashFile at h
  split at h
  · cases h
  · split at h
    · rename_i file _ _
      cases h
      intro sha hsha
      cases hsha
      exact ⟨file.bytes, rfl⟩
    · cases h

theorem passOk_start (skip : List Nat) (shared : Bool) : PassOk d db (.start skip shared) := by
  refine ⟨?_, ?_⟩
  · intro row hrow
    cases hrow
  · intro item hitem
    cases hitem

theorem PassOk.onPage {pass : Backfill} {page : List (Nat × Path)} (h : PassOk d db pass)
    (hpage : db.FilesMissingSha256After pass.afterId backfillPassLimit page) :
    PassOk d db (pass.onPage page) := by
  refine ⟨?_, h.pending⟩
  intro row hrow
  have hmem : row.1 ∈ page.map Prod.fst := List.mem_map_of_mem hrow
  rw [hpage.1] at hmem
  have hmissing := (List.mem_filter.1 (List.mem_of_mem_take hmem)).1
  rw [missingSha256Present, mem_orderBy, List.mem_filter, Bool.and_eq_true,
    Option.any_eq_true] at hmissing
  obtain ⟨_, ⟨content, hl, _⟩, _⟩ := hmissing
  exact ⟨_, by rw [interopOf, hl]; rfl⟩

theorem PassOk.hashRow {pass : Backfill} {fs : FileSystem} {row : Nat × Path}
    (h : PassOk d db pass) (hrow : ∃ c, db.interopOf row.1 = some c)
    (hclean : row.1 ∉ pass.skip → ReadsContent d db fs row) :
    PassOk d db (pass.hashRow d fs row) := by
  unfold Backfill.hashRow
  split
  · exact h
  · rename_i hskip
    split
    · exact ⟨h.page, h.pending⟩
    · rename_i file hfile
      obtain ⟨hl, hopen⟩ := Option.filter_eq_some_iff.1 hfile
      split
      · rename_i hread
        refine ⟨h.page, ?_⟩
        intro item hitem
        rcases List.mem_append.1 hitem with hold | hnew
        · exact h.pending item hold
        · obtain rfl := List.mem_singleton.1 hnew
          obtain ⟨c, hc⟩ := hrow
          have hbytes := hclean hskip file hl hopen hread c hc
          exact ⟨c, hc, file.bytes, by rw [← hbytes]; rfl⟩
      · exact h

theorem PassOk.hashNext {pass : Backfill} {fs : FileSystem} (h : PassOk d db pass)
    (hclean : CleanPass d db pass (.hashNext fs)) : PassOk d db (pass.hashNext d fs) := by
  unfold Backfill.hashNext
  split
  · exact h
  · rename_i row rest hpage
    split
    · exact h
    · refine PassOk.hashRow ⟨?_, h.pending⟩ ?_ ?_
      · intro row' hrow'
        exact h.page row' (by rw [hpage]; exact List.mem_cons_of_mem _ hrow')
      · exact h.page row (by rw [hpage]; exact List.mem_cons_self)
      · exact hclean row (by rw [hpage]; rfl)

end

section

variable {d : Digests} {s : System}

/-- A write of the database alone. -/
theorem Inv.write {db : Db} (h : Inv d s) (hkeeps : Keeps s.db db) (hpaired : Paired d db) :
    Inv d { s with db := db } :=
  ⟨hpaired, h.hashed, fun id pass hl => (h.passes id pass hl).mono hkeeps⟩

theorem Inv.setPass {pass : Backfill} (h : Inv d s) (id : Nat) (hpass : PassOk d s.db pass) :
    Inv d (s.setPass id pass) := by
  refine ⟨h.paired, h.hashed, ?_⟩
  intro id' pass' hl
  by_cases hid : id' = id
  · subst hid
    rw [System.setPass, AList.lookup_insert, Option.some.injEq] at hl
    rw [← hl]
    exact hpass
  · rw [System.setPass, AList.lookup_insert_ne hid] at hl
    exact h.passes id' pass' hl

theorem Inv.endPass (h : Inv d s) (id : Nat) (pass : Backfill) : Inv d (s.endPass id pass) := by
  refine ⟨h.paired, h.hashed, ?_⟩
  intro id' pass' hl
  by_cases hid : id' = id
  · subst hid
    rw [System.endPass, AList.lookup_erase] at hl
    cases hl
  · rw [System.endPass, AList.lookup_erase_ne hid] at hl
    exact h.passes id' pass' hl

theorem Inv.passStep {id : Nat} {pass : Backfill} {action : PassAction} (h : Inv d s)
    (hl : s.passes.lookup id = some pass) (hclean : CleanPass d s.db pass action) :
    Inv d (passStep d s id pass action) := by
  have hpass := h.passes id pass hl
  cases action with
  | readPage page =>
    simp only [Interop.passStep]
    split
    · rename_i hpage
      exact h.setPass id (hpass.onPage hpage.2)
    · exact h
  | hashNext fs => exact h.setPass id (hpass.hashNext hclean)
  | flush =>
    have hflushed := h.write (keeps_setSha256Batch pass.pending)
      (h.paired.setSha256Batch hpass.pending)
    simp only [Interop.passStep]
    split
    · split
      · exact hflushed.endPass id pass
      · have hkept := hpass.mono (keeps_setSha256Batch pass.pending)
        exact hflushed.setPass id ⟨hkept.page, by simp⟩
    · exact h
  | fail => exact h.endPass id _

theorem Inv.step {action : Action} (h : Inv d s) (hclean : Clean d s action) :
    Inv d (step d s action) := by
  cases action with
  | hash path fs =>
    simp only [Interop.step]
    split
    · exact h
    · rename_i record hrecord
      refine ⟨h.paired, ?_, h.passes⟩
      intro r hr
      rcases List.mem_append.1 hr with hold | hnew
      · exact h.hashed r hold
      · obtain rfl := List.mem_singleton.1 hnew
        exact hashFile_pair hrecord
  | persist n marker now =>
    simp only [Interop.step]
    split
    · exact h
    · rename_i record metadata hget
      have hrecord := h.hashed _ (List.mem_of_getElem? hget)
      have hwritten : Inv d { s with db := storeRecord s.db record metadata marker now } := by
        apply h.write
        · intro f c hc
          rw [interopOf_storeRecord]
          exact keeps_insertFile record marker now f c hc
        · intro f hash sha hrow
          rw [interopOf_storeRecord] at hrow
          exact h.paired.insertFile marker now hrecord f hash sha hrow
      refine ⟨hwritten.paired, ?_, hwritten.passes⟩
      intro r hr
      exact h.hashed r (List.mem_of_mem_eraseIdx hr)
  | importBlake3 record marker now =>
    exact h.write (keeps_insertFile _ marker now) (h.paired.insertFile marker now (by simp))
  | other write =>
    apply h.write
    · intro f c hc
      exact ⟨c.2, hc⟩
    · exact h.paired
  | start id shared =>
    simp only [Interop.step]
    split
    · exact h
    · have hstarted := h.setPass id (passOk_start (if shared then s.skip else []) shared)
      exact ⟨hstarted.paired, hstarted.hashed, hstarted.passes⟩
  | pass id action =>
    simp only [Interop.step]
    split
    · exact h
    · rename_i pass hl
      exact h.passStep hl (hclean pass hl)
  | restart => exact ⟨h.paired, by simp [Interop.step], by simp [Interop.step]⟩

theorem inv_empty : Inv d .empty := by
  refine ⟨?_, ?_, ?_⟩
  · intro f hash sha h
    cases h
  · intro r hr
    cases hr
  · intro id pass h
    cases h

end

/-- **Content-identity pairing.** In a run in which the backfill reads the contents its rows were
hashed from, every SHA-256 is that of the bytes with the row's BLAKE3. -/
theorem hashes_paired (d : Digests) (actions : List Action)
    (hrun : AllSteps (step d) (Clean d) .empty actions) :
    Paired d (run (step d) .empty actions).db :=
  (hrun.invariant inv_empty fun _ _ h hclean => h.step hclean).paired

/-! ## A file edited before its backfill -/

/-- Contents told apart by their first byte. -/
def firstByte : Digests where
  blake3 bytes := .fill (bytes.headD 0)
  sha256 bytes := .fill (bytes.headD 0 + 10)

/-- `/p/x.jpg` -/
def legacyPath : Path := [47, 112, 47, 120, 46, 106, 112, 103]

def holding (bytes : List Byte) : FileSystem :=
  AList.singleton legacyPath ⟨bytes, ⟨bytes.length, some 100, none⟩, default, true, true⟩

/-- A file imported without its SHA-256 when it held `[1]`, and a backfill that finds `bytes`. -/
def backfillOf (bytes : List Byte) : List Action :=
  [.importBlake3 ⟨firstByte.blake3 [1], legacyPath, 1, some 100, none, none⟩ 1 1000,
    .start 0 true, .pass 0 (.readPage [(1, legacyPath)]), .pass 0 (.hashNext (holding bytes)),
    .pass 0 (.readPage []), .pass 0 .flush]

theorem hashes_paired_unedited :
    Paired firstByte (run (step firstByte) .empty (backfillOf [1])).db ∧
      (run (step firstByte) .empty (backfillOf [1])).db.interopOf 1 =
        some (firstByte.blake3 [1], some (firstByte.sha256 [1])) :=
  ⟨hashes_paired firstByte (backfillOf [1]) (by decide +kernel), by decide +kernel⟩

/-- The row of the old content gets the SHA-256 of the new one. -/
theorem hashes_paired_fails :
    ¬ ∀ (d : Digests) (actions : List Action), Paired d (run (step d) .empty actions).db := by
  intro h
  have hrow : (run (step firstByte) .empty (backfillOf [2])).db.interopOf 1 =
      some (firstByte.blake3 [1], some (firstByte.sha256 [2])) := by decide +kernel
  obtain ⟨bytes, hpair⟩ := h firstByte (backfillOf [2]) 1 _ _ hrow
  obtain ⟨hblake3, hsha256⟩ := Prod.mk.inj hpair
  have hone : bytes.headD 0 = 1 := by
    simpa [firstByte, Hash.fill, List.replicate_inj] using congrArg Hash.bytes hblake3
  have htwo : bytes.headD 0 + 10 = 2 + 10 := by
    simpa [firstByte, Hash.fill, List.replicate_inj] using congrArg Hash.bytes hsha256
  rw [hone] at htwo
  cases htwo

end Interop
end Daemon
end Naiad
