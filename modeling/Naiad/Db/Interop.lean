import Naiad.Db.Files
import Naiad.Lib.Sort

/-!
# Naiad.Db.Interop

The interop hash of a content row: the SHA-256 beside its BLAKE3, the rows that lack one, and the
batch that fills them in.

* `Db.interopOf`: the two hashes of a row.
* `interopOf_insertFile`, `interopOf_setSha256Batch`: the rows after the two writers of the column.
-/

namespace Naiad
namespace Db

open Lib

/-- Files without a SHA-256 that are present somewhere, by id. -/
def missingSha256Present (db : Db) : List Nat :=
  orderBy id (db.files.keys.filter fun f =>
    (db.files.lookup f).any (fun row => row.sha256.isNone) &&
      db.locations.entries.any fun e => e.1.1 = f && e.2.present)

/-- A page of `files_missing_sha256_after`: each file with one of its present paths, whichever the
grouping keeps. -/
def FilesMissingSha256After (db : Db) (afterId limit : Nat) (page : List (Nat × Path)) : Prop :=
  page.map Prod.fst = (db.missingSha256Present.filter (afterId < ·)).take limit ∧
    ∀ e ∈ page, (db.locations.lookup e).any LocationRow.present = true

instance (db : Db) (afterId limit : Nat) (page : List (Nat × Path)) :
    Decidable (db.FilesMissingSha256After afterId limit page) :=
  inferInstanceAs (Decidable (_ ∧ _))

/-- `UPDATE files SET sha256 = .. WHERE id = ..`. -/
def updateSha256 (db : Db) (item : Nat × Hash) : Db :=
  db.updateFile item.1 fun row => { row with sha256 := some item.2 }

def stampSeq (db : Db) (item : Nat × Nat) : Db :=
  db.updateFile item.1 fun row => { row with sha256Seq := some item.2 }

/-- The rows of a batch that have just gained a SHA-256. -/
def toStamp (db : Db) (items : List (Nat × Hash)) : List Nat :=
  sortDedup ((items.map Prod.fst).filter db.needsStamp)

/-- Set the hashes of a batch, then number the rows that gained theirs from one reserved range, low
id first. -/
def setSha256Batch (db : Db) (items : List (Nat × Hash)) : Db :=
  let db := items.foldl updateSha256 db
  let toStamp := db.toStamp items
  let base := db.sha256SeqCounter + 1
  { (toStamp.zipIdx base).foldl stampSeq db with
    sha256SeqCounter := db.sha256SeqCounter + toStamp.length }

/-! ## The two hashes -/

/-- The BLAKE3 of a content row and its SHA-256, if known. -/
def interopOf (db : Db) (f : Nat) : Option (Hash × Option Hash) :=
  (db.files.lookup f).map fun row => (row.blake3, row.sha256)

section

variable {db : Db} {f : Nat}

theorem interopOf_fst {c : Hash × Option Hash} (h : db.interopOf f = some c) :
    ∃ row, db.files.lookup f = some row ∧ row.blake3 = c.1 ∧ row.sha256 = c.2 := by
  obtain ⟨row, hl, rfl⟩ := Option.map_eq_some_iff.1 h
  exact ⟨row, hl, rfl, rfl⟩

theorem interopOf_updateFile (f' : Nat) {g : FileRow → FileRow} (sha : Option Hash → Option Hash)
    (hg : ∀ row, (g row).blake3 = row.blake3 ∧ (g row).sha256 = sha row.sha256) :
    (db.updateFile f' g).interopOf f =
      (db.interopOf f).map fun c => (c.1, if f = f' then sha c.2 else c.2) := by
  rw [interopOf, lookup_updateFile, interopOf, Option.map_map, Option.map_map]
  congr 1
  funext row
  by_cases h : f = f'
  · simp [h, hg row]
  · simp [h]

/-- A statement that writes other columns. -/
theorem interopOf_updateFile_other (f' : Nat) {g : FileRow → FileRow}
    (hg : ∀ row, (g row).blake3 = row.blake3 ∧ (g row).sha256 = row.sha256) :
    (db.updateFile f' g).interopOf f = db.interopOf f := by
  rw [interopOf_updateFile f' id hg]
  simp

theorem interopOf_updateSha256 (item : Nat × Hash) :
    (db.updateSha256 item).interopOf f =
      (db.interopOf f).map fun c => (c.1, if f = item.1 then some item.2 else c.2) := by
  apply interopOf_updateFile item.1 fun _ => some item.2
  intro row
  exact ⟨rfl, rfl⟩

theorem interopOf_stampSeq (item : Nat × Nat) : (db.stampSeq item).interopOf f = db.interopOf f := by
  apply interopOf_updateFile_other
  intro row
  exact ⟨rfl, rfl⟩

theorem interopOf_foldl_stampSeq (items : List (Nat × Nat)) (db : Db) :
    (items.foldl stampSeq db).interopOf f = db.interopOf f := by
  induction items generalizing db with
  | nil => rfl
  | cons item items ih => rw [List.foldl_cons, ih, interopOf_stampSeq]

theorem interopOf_foldl_updateSha256 (items : List (Nat × Hash)) (db : Db) :
    (items.foldl updateSha256 db).interopOf f =
      (db.interopOf f).map fun c =>
        (c.1, items.foldl (fun sha item => if f = item.1 then some item.2 else sha) c.2) := by
  induction items generalizing db with
  | nil => simp
  | cons item items ih =>
    rw [List.foldl_cons, ih, interopOf_updateSha256, Option.map_map]
    rfl

theorem interopOf_setSha256Batch (items : List (Nat × Hash)) :
    (db.setSha256Batch items).interopOf f =
      (db.interopOf f).map fun c =>
        (c.1, items.foldl (fun sha item => if f = item.1 then some item.2 else sha) c.2) := by
  rw [← interopOf_foldl_updateSha256]
  exact interopOf_foldl_stampSeq _ _

/-- A hash found after a batch was there before, or is in the batch. -/
theorem foldl_sha256_cases {items : List (Nat × Hash)} {old : Option Hash} {sha : Hash}
    (h : items.foldl (fun sha item => if f = item.1 then some item.2 else sha) old = some sha) :
    old = some sha ∨ (f, sha) ∈ items := by
  induction items generalizing old with
  | nil => exact .inl h
  | cons item items ih =>
    rcases ih h with hold | hmem
    · by_cases hf : f = item.1
      · simp only [if_pos hf, Option.some.injEq] at hold
        exact .inr (by simp [hf, ← hold])
      · simp only [if_neg hf] at hold
        exact .inl hold
    · exact .inr (List.mem_cons_of_mem _ hmem)

theorem interopOf_stampSha256 (g : Nat) : (db.stampSha256 g).interopOf f = db.interopOf f := by
  unfold stampSha256
  split
  · show (db.updateFile g _).interopOf f = db.interopOf f
    apply interopOf_updateFile_other
    intro row
    exact ⟨rfl, rfl⟩
  · rfl

theorem interopOf_upsertContent (rec : FileRecord) (now : Int) :
    (db.upsertContent rec now).interopOf f =
      match db.fileIdByHash rec.hash with
      | some g => (db.interopOf f).map fun c => (c.1, if f = g then rec.sha256.or c.2 else c.2)
      | none =>
        if f = db.maxFileId + 1 then some (rec.hash, rec.sha256) else db.interopOf f := by
  unfold upsertContent
  cases db.fileIdByHash rec.hash with
  | some g =>
    apply interopOf_updateFile g rec.sha256.or
    intro row
    exact ⟨rfl, rfl⟩
  | none =>
    by_cases hf : f = db.maxFileId + 1
    · subst hf
      simp [interopOf, AList.lookup_insert]
    · simp [hf, interopOf, AList.lookup_insert_ne hf]

theorem interopOf_insertFile (rec : FileRecord) (marker : Nat) (now : Int) :
    (db.insertFile rec marker now).interopOf f = (db.upsertContent rec now).interopOf f := by
  unfold insertFile
  split
  · rfl
  · exact interopOf_stampSha256 _

theorem interopOf_updateMetadata (hash : Hash) (m : FileMetadata) :
    (db.updateMetadata hash m).interopOf f = db.interopOf f := by
  have hl : (db.updateMetadata hash m).files.lookup f = _ := Table.lookup_modify _ _ _
  rw [interopOf, hl, interopOf, Option.map_map]
  congr 1
  funext row
  by_cases h : row.blake3 = hash
  · simp [h]
  · simp [h]

/-- An import keeps every row's BLAKE3. -/
theorem interopOf_insertFile_old (rec : FileRecord) (marker : Nat) (now : Int) {hash : Hash}
    {old : Option Hash} (h : db.interopOf f = some (hash, old)) :
    ∃ sha, (db.insertFile rec marker now).interopOf f = some (hash, sha) := by
  rw [interopOf_insertFile, interopOf_upsertContent]
  split
  · exact ⟨_, by rw [h]; rfl⟩
  · split
    · rename_i hf
      obtain ⟨row, hl, _⟩ := interopOf_fst h
      rw [hf, lookup_fresh] at hl
      cases hl
    · exact ⟨old, h⟩

/-- A SHA-256 found after an import was there before, or is the record's beside the record's
BLAKE3. -/
theorem interopOf_insertFile_cases {rec : FileRecord} {marker : Nat} {now : Int} {hash sha : Hash}
    (h : (db.insertFile rec marker now).interopOf f = some (hash, some sha)) :
    db.interopOf f = some (hash, some sha) ∨ hash = rec.hash ∧ rec.sha256 = some sha := by
  rw [interopOf_insertFile, interopOf_upsertContent] at h
  split at h
  · rename_i g hg
    obtain ⟨⟨hash', old⟩, hold, heq⟩ := Option.map_eq_some_iff.1 h
    simp only [Prod.mk.injEq] at heq
    obtain ⟨rfl, hsha⟩ := heq
    by_cases hf : f = g
    · obtain ⟨row, hl, hhash, _⟩ := interopOf_fst hold
      obtain ⟨row', hl', hhash'⟩ := fileIdByHash_some hg
      obtain rfl : row = row' := Option.some.inj (hl.symm.trans (hf ▸ hl'))
      rw [if_pos hf, Option.or_eq_some_iff] at hsha
      rcases hsha with hrec | ⟨_, hrest⟩
      · exact .inr ⟨hhash.symm.trans hhash', hrec⟩
      · exact .inl (by rw [hold, hrest])
    · rw [if_neg hf] at hsha
      exact .inl (by rw [hold, hsha])
  · split at h
    · simp only [Option.some.injEq, Prod.mk.injEq] at h
      exact .inr ⟨h.1.symm, h.2⟩
    · exact .inl h

end

end Db
end Naiad
