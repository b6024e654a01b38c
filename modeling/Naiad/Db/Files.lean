import Naiad.Db.Schema

/-!
# Naiad.Db.Files

Content rows and location rows: how a hashed file enters the database, and how the identifiers of
its two hash domains are handed out. Every write is a statement of the source; what it does is said
once, in terms of what a hash is found by.

* `Db.place`: the location row of a content at a path.
* `place_insertFile`, `contentOf_insertFile`: the two tables after an import.
-/

namespace Naiad

structure FileRecord where
  hash : Hash
  path : Db.Path
  size : Nat
  mtime : Option Int
  createdAt : Option Int
  sha256 : Option Hash
deriving DecidableEq

/-- Extracted metadata; the default writes nothing. -/
structure FileMetadata where
  mime : Option String
  width : Option Int
  height : Option Int
deriving DecidableEq, Inhabited

namespace Db

open Lib

/-- `UPDATE files SET .. WHERE id = f`. -/
def updateFile (db : Db) (f : Nat) (g : FileRow → FileRow) : Db :=
  { db with files := db.files.modify fun id row => if id = f then g row else row }

/-- `COALESCE(MAX(id), 0)`. -/
def maxFileId (db : Db) : Nat := db.files.keys.foldr max 0

/-- `INSERT .. ON CONFLICT(blake3) DO UPDATE SET sha256 = COALESCE(excluded.sha256, files.sha256)`. -/
def upsertContent (db : Db) (rec : FileRecord) (now : Int) : Db :=
  match db.fileIdByHash rec.hash with
  | some f => db.updateFile f fun row => { row with sha256 := rec.sha256.or row.sha256 }
  | none =>
    { db with
      files := db.files.insert (db.maxFileId + 1)
        ⟨rec.hash, rec.size, none, none, none, none, rec.sha256, none, now⟩ }

/-- `sha256 IS NOT NULL AND sha256_seq IS NULL`. -/
def needsStamp (db : Db) (f : Nat) : Bool :=
  (db.files.lookup f).any fun row => row.sha256.isSome && row.sha256Seq.isNone

/-- Stamp `sha256_seq` on the NULL to present transition only. -/
def stampSha256 (db : Db) (f : Nat) : Db :=
  if db.needsStamp f then
    { db.updateFile f fun row => { row with sha256Seq := some (db.sha256SeqCounter + 1) } with
      sha256SeqCounter := db.sha256SeqCounter + 1 }
  else db

def upsertLocation (db : Db) (f : Nat) (rec : FileRecord) (scanMarker : Nat) : Db :=
  { db with
    locations := db.locations.insert (f, rec.path) ⟨rec.mtime, rec.createdAt, true, scanMarker⟩ }

/-- Insert a hashed file: its content row, its interop stamp, its location. -/
def insertFile (db : Db) (rec : FileRecord) (scanMarker : Nat) (now : Int) : Db :=
  match (db.upsertContent rec now).fileIdByHash rec.hash with
  | none => db.upsertContent rec now
  | some f => ((db.upsertContent rec now).stampSha256 f).upsertLocation f rec scanMarker

def updateMetadata (db : Db) (hash : Hash) (m : FileMetadata) : Db :=
  { db with
    files := db.files.modify fun _ row =>
      if row.blake3 = hash then { row with mime := m.mime, width := m.width, height := m.height }
      else row }

/-! ## Views -/

/-- The identity and the size of a content row. -/
def contentOf (db : Db) (f : Nat) : Option (Hash × Nat) :=
  (db.files.lookup f).map fun row => (row.blake3, row.size)

/-- The location row of a content at a path. -/
def place (db : Db) (hash : Hash) (path : Path) : Option LocationRow :=
  (db.fileIdByHash hash).bind fun f => db.locations.lookup (f, path)

section Views

variable {db : Db} {rec : FileRecord} {f : Nat} {now : Int}

theorem lt_maxFileId {row : FileRow} (h : db.files.lookup f = some row) : f ≤ db.maxFileId := by
  apply Table.le_foldr_max
  rw [← AList.mem_keys, ← AList.lookup_isSome, h]
  rfl

theorem lookup_fresh : db.files.lookup (db.maxFileId + 1) = none := by
  cases h : db.files.lookup (db.maxFileId + 1) with
  | none => rfl
  | some row => exact absurd (lt_maxFileId h) (by omega)

theorem lookup_updateFile (g : FileRow → FileRow) (f' : Nat) :
    (db.updateFile f g).files.lookup f' =
      (db.files.lookup f').map fun row => if f' = f then g row else row :=
  Table.lookup_modify _ _ _

theorem contentOf_updateFile {g : FileRow → FileRow}
    (hg : ∀ row, (g row).blake3 = row.blake3 ∧ (g row).size = row.size) (f' : Nat) :
    (db.updateFile f g).contentOf f' = db.contentOf f' := by
  rw [contentOf, lookup_updateFile, contentOf, Option.map_map]
  congr 1
  funext row
  by_cases h : f' = f
  · simp [h, hg row]
  · simp [h]

/-- Contents decide what a hash is found by. -/
theorem fileIdByHash_iff (hc : db.FileConstraints) {hash : Hash} :
    db.fileIdByHash hash = some f ↔ ∃ size, db.contentOf f = some (hash, size) := by
  rw [hc.fileIdByHash_eq_some, contentOf]
  constructor
  · rintro ⟨row, hl, rfl⟩
    exact ⟨row.size, by rw [hl]; rfl⟩
  · rintro ⟨size, h⟩
    obtain ⟨row, hl, heq⟩ := Option.map_eq_some_iff.1 h
    exact ⟨row, hl, (Prod.mk.inj heq).1⟩

/-- The constraints speak of contents and locations only. -/
theorem fileConstraints_iff : db.FileConstraints ↔
    (∀ f g h n m, db.contentOf f = some (h, n) → db.contentOf g = some (h, m) → f = g) ∧
      ∀ f p loc, db.locations.lookup (f, p) = some loc → ∃ c, db.contentOf f = some c := by
  constructor
  · intro hc
    refine ⟨?_, ?_⟩
    · intro f g h n m hf hg
      obtain ⟨row, hl, heq⟩ := Option.map_eq_some_iff.1 hf
      obtain ⟨row', hl', heq'⟩ := Option.map_eq_some_iff.1 hg
      cases heq
      exact hc.files_unique f g row row' hl hl' (Prod.mk.inj heq').1.symm
    · intro f p loc h
      obtain ⟨row, hl⟩ := hc.location_file f p loc h
      exact ⟨_, by rw [contentOf, hl]; rfl⟩
  · rintro ⟨hunique, hlocation⟩
    refine ⟨?_, ?_⟩
    · intro f g row row' hl hl' heq
      refine hunique f g row.blake3 row.size row'.size (by rw [contentOf, hl]; rfl) ?_
      rw [contentOf, hl', heq]
      rfl
    · intro f p loc h
      obtain ⟨c, hcontent⟩ := hlocation f p loc h
      obtain ⟨row, hl, _⟩ := Option.map_eq_some_iff.1 hcontent
      exact ⟨row, hl⟩

/-- Contents after the content statement: one row more, or the same. -/
theorem contentOf_upsertContent (f : Nat) :
    (db.upsertContent rec now).contentOf f =
      if db.fileIdByHash rec.hash = none ∧ f = db.maxFileId + 1 then some (rec.hash, rec.size)
      else db.contentOf f := by
  unfold upsertContent
  cases hid : db.fileIdByHash rec.hash with
  | some g =>
    rw [if_neg (by simp)]
    apply contentOf_updateFile
    intro row
    exact ⟨rfl, rfl⟩
  | none =>
    by_cases hf : f = db.maxFileId + 1
    · subst hf
      simp [contentOf, AList.lookup_insert]
    · simp [contentOf, AList.lookup_insert_ne hf, hf]

theorem contentOf_stampSha256 (g f : Nat) : (db.stampSha256 g).contentOf f = db.contentOf f := by
  unfold stampSha256
  split
  · show (db.updateFile g _).contentOf f = db.contentOf f
    apply contentOf_updateFile
    intro row
    exact ⟨rfl, rfl⟩
  · rfl

theorem stampSha256_locations (g : Nat) : (db.stampSha256 g).locations = db.locations := by
  unfold stampSha256
  split
  · rfl
  · rfl

theorem upsertContent_locations (rec : FileRecord) (now : Int) :
    (db.upsertContent rec now).locations = db.locations := by
  unfold upsertContent
  split
  · rfl
  · rfl

/-- The id an imported content has afterwards. -/
def importId (db : Db) (hash : Hash) : Nat := (db.fileIdByHash hash).getD (db.maxFileId + 1)

theorem fileConstraints_upsertContent (rec : FileRecord) (now : Int) (hc : db.FileConstraints) :
    (db.upsertContent rec now).FileConstraints := by
  obtain ⟨hunique, hlocation⟩ := fileConstraints_iff.1 hc
  have hknown : db.fileIdByHash rec.hash = none → ∀ g m, db.contentOf g ≠ some (rec.hash, m) := by
    intro hnone g m hg
    rw [(fileIdByHash_iff hc).2 ⟨m, hg⟩] at hnone
    cases hnone
  rw [fileConstraints_iff, upsertContent_locations]
  refine ⟨?_, ?_⟩
  · intro f g h n m hf hg
    rw [contentOf_upsertContent] at hf hg
    split at hf
    · rename_i hnew
      split at hg
      · rename_i hnew'
        rw [hnew.2, hnew'.2]
      · cases hf
        exact absurd hg (hknown hnew.1 g m)
    · split at hg
      · rename_i hnew
        cases hg
        exact absurd hf (hknown hnew.1 f n)
      · exact hunique f g h n m hf hg
  · intro f p loc h
    rw [contentOf_upsertContent]
    split
    · exact ⟨_, rfl⟩
    · exact hlocation f p loc h

theorem fileIdByHash_upsertContent (rec : FileRecord) (now : Int) (hc : db.FileConstraints) :
    (db.upsertContent rec now).fileIdByHash rec.hash = some (db.importId rec.hash) := by
  rw [fileIdByHash_iff (fileConstraints_upsertContent rec now hc), contentOf_upsertContent, importId]
  cases hid : db.fileIdByHash rec.hash with
  | none => exact ⟨rec.size, by simp⟩
  | some f =>
    obtain ⟨size, h⟩ := (fileIdByHash_iff hc).1 hid
    exact ⟨size, by simpa using h⟩

theorem insertFile_eq (hc : db.FileConstraints) (scanMarker : Nat) :
    db.insertFile rec scanMarker now =
      ((db.upsertContent rec now).stampSha256 (db.importId rec.hash)).upsertLocation
        (db.importId rec.hash) rec scanMarker := by
  rw [insertFile, fileIdByHash_upsertContent rec now hc]

theorem contentOf_insertFile (hc : db.FileConstraints) (scanMarker f : Nat) :
    (db.insertFile rec scanMarker now).contentOf f =
      if db.fileIdByHash rec.hash = none ∧ f = db.maxFileId + 1 then some (rec.hash, rec.size)
      else db.contentOf f := by
  rw [insertFile_eq hc]
  show ((db.upsertContent rec now).stampSha256 _).contentOf f = _
  rw [contentOf_stampSha256, contentOf_upsertContent]

theorem insertFile_locations (hc : db.FileConstraints) (scanMarker : Nat) :
    (db.insertFile rec scanMarker now).locations =
      db.locations.insert (db.importId rec.hash, rec.path)
        ⟨rec.mtime, rec.createdAt, true, scanMarker⟩ := by
  rw [insertFile_eq hc, upsertLocation, stampSha256_locations, upsertContent_locations]

theorem fileConstraints_insertFile (rec : FileRecord) (now : Int) (hc : db.FileConstraints)
    (scanMarker : Nat) :
    (db.insertFile rec scanMarker now).FileConstraints := by
  obtain ⟨hunique, hlocation⟩ := fileConstraints_iff.1
    (fileConstraints_upsertContent rec now hc)
  have hcontent : ∀ f, (db.insertFile rec scanMarker now).contentOf f =
      (db.upsertContent rec now).contentOf f := by
    intro f
    rw [contentOf_insertFile hc, contentOf_upsertContent]
  rw [fileConstraints_iff]
  simp only [hcontent]
  refine ⟨hunique, ?_⟩
  intro f p loc h
  rw [insertFile_locations hc] at h
  by_cases hk : (f, p) = (db.importId rec.hash, rec.path)
  · obtain ⟨rfl, rfl⟩ := Prod.mk.inj hk
    obtain ⟨size, hs⟩ := (fileIdByHash_iff (fileConstraints_upsertContent rec now hc)).1
      (fileIdByHash_upsertContent rec now hc)
    exact ⟨_, hs⟩
  · rw [AList.lookup_insert_ne hk, ← upsertContent_locations rec now] at h
    exact hlocation f p loc h

theorem fileIdByHash_insertFile (rec : FileRecord) (now : Int) (hc : db.FileConstraints)
    (scanMarker : Nat) (hash : Hash) :
    (db.insertFile rec scanMarker now).fileIdByHash hash =
      if hash = rec.hash then some (db.importId rec.hash) else db.fileIdByHash hash := by
  have hc' := fileConstraints_insertFile rec now hc scanMarker
  have hcontent : ∀ f size, (db.insertFile rec scanMarker now).contentOf f = some (hash, size) ↔
      if db.fileIdByHash rec.hash = none ∧ f = db.maxFileId + 1 then (rec.hash, rec.size) = (hash, size)
      else db.contentOf f = some (hash, size) := by
    intro f size
    rw [contentOf_insertFile hc]
    split <;> simp
  ext f
  rw [fileIdByHash_iff hc']
  simp only [hcontent]
  by_cases hh : hash = rec.hash
  · subst hh
    rw [if_pos rfl, Option.some.injEq, importId]
    cases hid : db.fileIdByHash rec.hash with
    | none =>
      have hnone : ∀ size, db.contentOf f ≠ some (rec.hash, size) := by
        intro size hs
        rw [(fileIdByHash_iff hc).2 ⟨size, hs⟩] at hid
        cases hid
      by_cases hf : f = db.maxFileId + 1
      · simp [hf]
      · simp [hf, hnone, Ne.symm hf]
    | some g =>
      simp only [reduceCtorEq, false_and, if_false, Option.getD_some, ← fileIdByHash_iff hc, hid,
        Option.some.injEq]
  · rw [if_neg hh, fileIdByHash_iff hc]
    refine exists_congr fun size => ?_
    split
    · rename_i hnew
      have hfresh : db.contentOf f = none := by
        rw [hnew.2, contentOf, lookup_fresh]
        rfl
      simp [hfresh, Ne.symm hh]
    · rfl

/-- A location row is the one of its content at its path. -/
theorem place_eq_some (hc : db.FileConstraints) {hash : Hash} {p : Path} {loc : LocationRow} :
    db.place hash p = some loc ↔
      ∃ f size, db.contentOf f = some (hash, size) ∧ db.locations.lookup (f, p) = some loc := by
  rw [place, Option.bind_eq_some_iff]
  refine exists_congr fun f => ?_
  rw [fileIdByHash_iff hc]
  constructor
  · intro h
    obtain ⟨⟨size, hs⟩, hl⟩ := h
    exact ⟨size, hs, hl⟩
  · intro h
    obtain ⟨size, hs, hl⟩ := h
    exact ⟨⟨size, hs⟩, hl⟩

/-- The location rows after an import: the one at the record's path, for its content. -/
theorem place_insertFile (hc : db.FileConstraints) (scanMarker : Nat) (hash : Hash) (path : Path) :
    (db.insertFile rec scanMarker now).place hash path =
      if hash = rec.hash ∧ path = rec.path then
        some ⟨rec.mtime, rec.createdAt, true, scanMarker⟩
      else db.place hash path := by
  rw [place, fileIdByHash_insertFile rec now hc, insertFile_locations hc, place]
  by_cases hh : hash = rec.hash
  · subst hh
    rw [if_pos rfl, Option.bind_some]
    by_cases hp : path = rec.path
    · subst hp
      rw [AList.lookup_insert, if_pos ⟨rfl, rfl⟩]
    · rw [AList.lookup_insert_ne (by simp [hp]), if_neg (by simp [hp]), importId]
      cases hid : db.fileIdByHash rec.hash with
      | some f => rfl
      | none =>
        cases hl : db.locations.lookup (db.maxFileId + 1, path) with
        | none => exact hl
        | some loc =>
          obtain ⟨row, hrow⟩ := hc.location_file _ _ _ hl
          rw [lookup_fresh] at hrow
          cases hrow
  · rw [if_neg hh, if_neg (by simp [hh])]
    cases hid : db.fileIdByHash hash with
    | none => rfl
    | some f =>
      have hne : f ≠ db.importId rec.hash := by
        intro heq
        have himport := fileIdByHash_insertFile rec now hc scanMarker rec.hash
        have hhash := fileIdByHash_insertFile rec now hc scanMarker hash
        rw [if_pos rfl, ← heq] at himport
        rw [if_neg hh, hid] at hhash
        obtain ⟨row, hl, h1⟩ := fileIdByHash_some himport
        obtain ⟨row', hl', h2⟩ := fileIdByHash_some hhash
        rw [hl, Option.some.injEq] at hl'
        rw [← h2, ← hl', h1] at hh
        exact hh rfl
      rw [Option.bind_some, Option.bind_some, AList.lookup_insert_ne (by simp [hne])]

theorem contentOf_updateMetadata (hash : Hash) (m : FileMetadata) (f : Nat) :
    (db.updateMetadata hash m).contentOf f = db.contentOf f := by
  have hl : (db.updateMetadata hash m).files.lookup f = _ := Table.lookup_modify _ _ _
  rw [contentOf, hl, contentOf, Option.map_map]
  congr 1
  funext row
  by_cases h : row.blake3 = hash
  · simp [h]
  · simp [h]

theorem fileConstraints_updateMetadata (hc : db.FileConstraints) (hash : Hash) (m : FileMetadata) :
    (db.updateMetadata hash m).FileConstraints := by
  rw [fileConstraints_iff] at hc ⊢
  simp only [contentOf_updateMetadata]
  exact hc

theorem place_updateMetadata (hc : db.FileConstraints) (hash : Hash) (m : FileMetadata)
    (hash' : Hash) (p : Path) : (db.updateMetadata hash m).place hash' p = db.place hash' p := by
  ext loc
  rw [place_eq_some (fileConstraints_updateMetadata hc hash m), place_eq_some hc]
  simp only [contentOf_updateMetadata]
  rfl

end Views

end Db
end Naiad
