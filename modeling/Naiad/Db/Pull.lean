import Naiad.Db.Files
import Naiad.Lib.BitMask

/-!
# Naiad.Db.Pull

The three merges of a pulled reply into a shared service. Each is authoritative for one identity
domain: it clears and sets that domain's bit of the `domains` mask, and deletes the rows no domain
supplies any more.

* `mergePulledMappingsInDomain`: a snapshot of the whole service.
* `mergeForFilesMasked`: the entries of some files.
* `mergeMappingDelta`: cleared buckets and replayed changes.
-/

namespace Naiad
namespace Db

open Lib Netproto

def domainBitBlake3 : BitVec 64 := 1

def domainBitSha256 : BitVec 64 := 2

def domainBit (domain : String) : BitVec 64 :=
  if domain = "sha256" then domainBitSha256 else domainBitBlake3

/-- Tags by hash, each with the origin it was asserted with. -/
abbrev TaggedEntries := List (Hash × List (Tag × Option String))

structure MergeStats where
  matchedFiles : Nat
  mappings : Nat
deriving DecidableEq, Inhabited

structure MappingDeltaInput where
  hash : Hash
  tag : Tag
  status : MappingStatus
  seq : Nat
  origin : Option String
deriving DecidableEq

def internTag (db : Db) (tag : Tag) : Db := { db with tags := (db.tags.intern tag).1 }

/-- The id of a tag once interned. -/
def internedTag (db : Db) (tag : Tag) : Nat := (db.tags.intern tag).2

def internOrigin (db : Db) (origin : Option String) : Db × Option Nat :=
  match origin with
  | none => (db, none)
  | some name => ({ db with origins := (db.origins.intern name).1 }, some (db.origins.intern name).2)

/-! ## Statements on mappings -/

/-- `UPDATE mappings SET domains = domains & ~bit WHERE ..` -/
def retract (db : Db) (bit : BitVec 64) (p : Nat × Nat × Nat → MappingRow → Bool) : Db :=
  { db with
    mappings := db.mappings.modify fun k row =>
      if p k row then { row with domains := row.domains &&& ~~~bit } else row }

/-- `DELETE FROM mappings WHERE ..` -/
def deleteMappings (db : Db) (p : Nat × Nat × Nat → MappingRow → Bool) : Db :=
  { db with mappings := db.mappings.select fun k row => !p k row }

/-- `INSERT INTO mappings .. ON CONFLICT(file_id, tag_id, service_id) DO UPDATE SET ..` -/
def insertMapping (db : Db) (key : Nat × Nat × Nat) (row : MappingRow)
    (update : MappingRow → MappingRow) : Db :=
  { db with mappings := (db.mappings.upsert key row fun old => some (update old)).1 }

/-- Intern a tag and its origin and set the bit of its row. -/
def assertTag (db : Db) (service : Nat) (bit : BitVec 64) (now : Int)
    (update : MappingRow → MappingRow) (f : Nat) (tag : Tag) (origin : Option String) : Db :=
  ((db.internTag tag).internOrigin origin).1.insertMapping (f, db.internedTag tag, service)
    ⟨.current, now, bit, ((db.internTag tag).internOrigin origin).2⟩ update

/-! ## The whole service -/

/-- `DO UPDATE SET domains = domains | bit` -/
def orBit (bit : BitVec 64) (row : MappingRow) : MappingRow :=
  { row with domains := row.domains ||| bit }

def assertTags (service : Nat) (bit : BitVec 64) (now : Int) (f : Nat)
    (tags : List (Tag × Option String)) (s : Db × MergeStats) : Db × MergeStats :=
  tags.foldl (fun s t =>
    (s.1.assertTag service bit now (orBit bit) f t.1 t.2, { s.2 with mappings := s.2.mappings + 1 })) s

def assertEntry (service : Nat) (bit : BitVec 64) (now : Int) (s : Db × MergeStats)
    (entry : Hash × List (Tag × Option String)) : Db × MergeStats :=
  match s.1.fileIdByHash entry.1 with
  | none => s
  | some f =>
    assertTags service bit now f entry.2 (s.1, { s.2 with matchedFiles := s.2.matchedFiles + 1 })

/-- Rows this domain alone supplies are deleted, the others lose its bit. -/
def retractDomain (db : Db) (service : Nat) (bit : BitVec 64) : Db :=
  (db.deleteMappings fun k row => k.2.2 = service && row.domains = bit).retract bit
    fun k row => k.2.2 = service && row.domains &&& bit ≠ 0

def mergePulledMappingsInDomain (db : Db) (service : Nat) (domain : String) (entries : TaggedEntries)
    (now : Int) : Db × MergeStats :=
  entries.foldl (assertEntry service (domainBit domain) now)
    (db.retractDomain service (domainBit domain), default)

/-! ## Some files -/

/-- What the first pass collects: file ids, tag ids by file, origins by file and tag. -/
structure Resolved where
  fileIds : Table Hash Nat
  newTags : Table Nat (List Nat)
  newOrigins : Table (Nat × Nat) (Option Nat)

/-- The ids of one entry's tags. -/
def resolveTags (f : Nat) (tags : List (Tag × Option String))
    (s : Db × List Nat × Table (Nat × Nat) (Option Nat)) :
    Db × List Nat × Table (Nat × Nat) (Option Nat) :=
  tags.foldl (fun s t =>
    (((s.1.internTag t.1).internOrigin t.2).1, s.2.1.insert (s.1.internedTag t.1),
      s.2.2.insert (f, s.1.internedTag t.1) ((s.1.internTag t.1).internOrigin t.2).2)) s

def resolveEntry (hashes : List Hash) (s : Db × Resolved × MergeStats)
    (entry : Hash × List (Tag × Option String)) : Db × Resolved × MergeStats :=
  if entry.1 ∈ hashes then
    match s.1.fileIdByHash entry.1 with
    | none => s
    | some f =>
      let out := resolveTags f entry.2 (s.1, [], s.2.1.newOrigins)
      (out.1, ⟨s.2.1.fileIds.insert entry.1 f, s.2.1.newTags.insert f out.2.1, out.2.2⟩,
        { s.2.2 with matchedFiles := s.2.2.matchedFiles + 1 })
  else s

/-- The tag ids of a file on a service, those with the bit when one is selected. -/
def currentTagIds (db : Db) (f service : Nat) (bit : Option (BitVec 64)) : List Nat :=
  db.mappings.entries.filterMap fun e =>
    if e.1.1 = f ∧ e.1.2.2 = service ∧ bit.all (fun bit => e.2.domains &&& bit ≠ 0) then some e.1.2.1
    else none

/-- Delete the row of a tag, or clear the selected bit. -/
def removeTag (db : Db) (f service : Nat) (bit : Option (BitVec 64)) (t : Nat) : Db :=
  match bit with
  | none => db.deleteMappings fun k _ => k = (f, t, service)
  | some bit => db.retract bit fun k _ => k = (f, t, service)

/-- `DO UPDATE SET domains = domains | bit, status = 'current'` -/
def orBitCurrent (bit : BitVec 64) (row : MappingRow) : MappingRow :=
  { row with domains := row.domains ||| bit, status := .current }

def addTag (db : Db) (f service : Nat) (bit : BitVec 64) (now : Int) (origin : Option Nat) (t : Nat) :
    Db :=
  db.insertMapping (f, t, service) ⟨.current, now, bit, origin⟩ (orBitCurrent bit)

/-- `DELETE .. WHERE service_id = s AND file_id = f AND domains = 0`, when a bit is selected. -/
def reapFile (db : Db) (f service : Nat) (bit : Option (BitVec 64)) : Db :=
  if bit.isSome then
    db.deleteMappings fun k row => k.1 = f && k.2.2 = service && row.domains = 0
  else db

/-- Bring the tags of one file in line with the new ones. -/
def replaceTags (service : Nat) (bit : Option (BitVec 64)) (now : Int) (f : Nat) (new : List Nat)
    (origins : Table (Nat × Nat) (Option Nat)) (db : Db) : Db :=
  let current := db.currentTagIds f service bit
  let removed := (current.filter (· ∉ new)).foldl (fun db t => db.removeTag f service bit t) db
  let added := (new.filter (· ∉ current)).foldl (fun db t =>
    db.addTag f service (bit.getD domainBitBlake3) now ((origins.lookup (f, t)).join) t) removed
  added.reapFile f service bit

/-- The file of a requested hash, resolved in the first pass or looked up. -/
def requestedFile (db : Db) (resolved : Resolved) (hash : Hash) : Option Nat :=
  (resolved.fileIds.lookup hash).or (db.fileIdByHash hash)

def replaceRequested (service : Nat) (bit : Option (BitVec 64)) (now : Int) (resolved : Resolved)
    (s : Db × MergeStats) (hash : Hash) : Db × MergeStats :=
  match s.1.requestedFile resolved hash with
  | none => s
  | some f =>
    let new := (resolved.newTags.lookup f).getD []
    (replaceTags service bit now f new resolved.newOrigins s.1,
      { s.2 with
        mappings := s.2.mappings +
          (new.filter (· ∉ s.1.currentTagIds f service bit)).length })

def mergeForFilesMasked (db : Db) (service : Nat) (hashes : List Hash) (entries : TaggedEntries)
    (bit : Option (BitVec 64)) (now : Int) : Db × MergeStats :=
  let first := entries.foldl (resolveEntry hashes) (db, ⟨∅, ∅, ∅⟩, default)
  hashes.foldl (replaceRequested service bit now first.2.1) (first.1, first.2.2)

/-! ## Deltas -/

/-- The text of the key column of a domain. -/
def keyText (domain : String) (row : FileRow) : Option String :=
  if domain = "sha256" then row.sha256.map Hash.toHex else some row.blake3.toHex

/-- `file_id IN (SELECT id FROM files WHERE key >= lo AND key < hi)` -/
def inKeyRange (db : Db) (domain lo hi : String) (f : Nat) : Bool :=
  ((db.files.lookup f).bind (keyText domain)).any fun text => lo ≤ text && text < hi

/-- Retract the domain's claim across a bucket, then reap within it. -/
def clearBucket (service : Nat) (domain : String) (db : Db) (bounds : String × String) : Db :=
  (db.retract (domainBit domain) fun k row =>
      k.2.2 = service && row.domains &&& domainBit domain ≠ 0 &&
        db.inKeyRange domain bounds.1 bounds.2 k.1).deleteMappings
    fun k row =>
      k.2.2 = service && row.domains = 0 && db.inKeyRange domain bounds.1 bounds.2 k.1

/-- `DO UPDATE SET status = 'current', created_at = excluded.created_at, domains = domains | bit` -/
def orBitRefresh (bit : BitVec 64) (now : Int) (row : MappingRow) : MappingRow :=
  { row with status := .current, createdAt := now, domains := row.domains ||| bit }

/-- Clear the bit of one row and reap it when that was the last. -/
def retractRow (db : Db) (bit : BitVec 64) (key : Nat × Nat × Nat) : Db :=
  (db.retract bit fun k _ => k = key).deleteMappings fun k row => k = key && row.domains = 0

def applyChange (service : Nat) (bit : BitVec 64) (now : Int) (db : Db) (c : MappingDeltaInput) : Db :=
  match db.fileIdByHash c.hash with
  | none => db
  | some f =>
    match c.status with
    | .current => db.assertTag service bit now (orBitRefresh bit now) f c.tag c.origin
    | .deleted => (db.internTag c.tag).retractRow bit (f, db.internedTag c.tag, service)

/-- `u64` to `i64`, saturating. -/
def toI64 (n : Nat) : Nat := min n (2 ^ 63 - 1)

def setPullState (db : Db) (service : Nat) (domain : String) (cursor fileMarker : Nat) : Db :=
  { db with
    pullState := db.pullState.insert (service, domain) ⟨some (toI64 cursor), some fileMarker⟩ }

def mergeMappingDelta (db : Db) (service : Nat) (domain : String) (changes : List MappingDeltaInput)
    (fullBuckets : List (String × String)) (cursor fileMarker : Nat) (now : Int) : Db × MergeStats :=
  let cleared := fullBuckets.foldl (clearBucket service domain) db
  let merged := (changes.foldl (applyChange service (domainBit domain) now) cleared).setPullState
    service domain cursor fileMarker
  (merged, ⟨(changes.filterMap fun c => db.fileIdByHash c.hash).dedup.length,
    merged.mappings.entries.countP fun e => e.1.2.2 = service⟩)

end Db
end Naiad
