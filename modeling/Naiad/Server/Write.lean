import Naiad.Core.Tag
import Naiad.Server.Mapping

/-!
# Naiad.Server.Write

The write paths of the store: a signed submission, a moderator's deletion, an operator's seed, and
the raw bulk load of the bridge with its two ways to resolve a hash.
-/

namespace Naiad
namespace Server

open Lib Netproto

inductive StoreError
  | badSignature
  | banned (author : String)
  | notHex (hash : String)
  | not32Bytes (hash : String)
  | notFound (hash tag : String)
  | indexMissing
  | duplicateHash (hash : Hash)
deriving DecidableEq

/-- A signing account: its public key, and the signature it puts under an operation. -/
structure Account where
  publicHex : String
  signature : Op → String → String → String

def Account.sign (a : Account) (op : Op) (hash : Hash) (tag : Tag) : Submission where
  version := protocolVersion
  op := op
  hash := hash.toHex
  tag := tag.display
  author := a.publicHex
  signature := a.signature op hash.toHex tag.display
  origin := none

/-- `hex::decode` followed by the length check. -/
def decodeHash (hash : String) : Except StoreError Hash :=
  match hexDecode hash with
  | none => .error (.notHex hash)
  | some bytes =>
    match Hash.ofBytes? bytes with
    | none => .error (.not32Bytes hash)
    | some h => .ok h

namespace RepoStore

/-- `INSERT OR IGNORE INTO accounts`. -/
def ensureAccount (s : RepoStore) (pubkey : String) (ts : Int) : RepoStore :=
  if pubkey ∈ s.accounts then s
  else { s with accounts := s.accounts.insert pubkey ⟨false, ts⟩ }

def isBanned (s : RepoStore) (pubkey : String) : Bool :=
  match s.accounts.lookup pubkey with
  | some a => a.banned
  | none => false

def setBanned (s : RepoStore) (pubkey : String) (banned : Bool) : RepoStore :=
  match s.accounts.lookup pubkey with
  | some a => { s with accounts := s.accounts.insert pubkey { a with banned } }
  | none => s

def appendSubmission (s : RepoStore) (ts : Int) (sub : Submission) : RepoStore :=
  { s with submissions := s.submissions ++
      [⟨sub.op, sub.hash, sub.tag, sub.author, sub.signature, ts, sub.origin⟩] }

/-- `SELECT COUNT(*) FROM repo_mappings WHERE hash_id = ? AND status = 0`. -/
def currentCount (s : RepoStore) (hid : Nat) : Nat :=
  (s.repoMappings.entries.filter fun e => e.1.1 = hid ∧ e.2.status = .current).length

/-- Move the persisted count on a change between no and some current mapping of a hash; an absent
count stays absent. -/
def adjustDistinctHashCount (s : RepoStore) (before after : Nat) : RepoStore :=
  if before = 0 ∧ after > 0 then { s with distinctHashCount := s.distinctHashCount.map (· + 1) }
  else if before > 0 ∧ after = 0 then
    { s with distinctHashCount := s.distinctHashCount.map (· - 1) }
  else s

/-- The transaction of `apply_submission`, once the hash has been decoded. -/
def applySubmissionTx (s : RepoStore) (ts : Int) (sub : Submission) (hash : Hash) : RepoStore :=
  let nextSeq := s.mappingCursor + 1
  let ih := (s.appendSubmission ts sub).internHash hash
  let it := ih.1.internTag sub.tag
  let before := it.1.currentCount ih.2
  let new : MappingRow := ⟨sub.op.status, nextSeq, sub.origin⟩
  let up := it.1.upsertMapping (ih.2, it.2) new (mergeStatusOrigin new)
  if up.2 > 0 then up.1.adjustDistinctHashCount before (up.1.currentCount ih.2) else up.1

/-- Apply one signed submission. The account is created outside the transaction, so it stays also
when a later check fails. -/
def applySubmission (verify : Submission → Bool) (s : RepoStore) (ts : Int) (sub : Submission) :
    RepoStore × Except StoreError Unit :=
  if verify sub = false then (s, .error .badSignature)
  else if (s.ensureAccount sub.author ts).isBanned sub.author then
    (s.ensureAccount sub.author ts, .error (.banned sub.author))
  else
    match decodeHash sub.hash with
    | .error e => (s.ensureAccount sub.author ts, .error e)
    | .ok hash => ((s.ensureAccount sub.author ts).applySubmissionTx ts sub hash, .ok ())

def closeReports (s : RepoStore) (hash tag : String) : RepoStore :=
  { s with reports := s.reports.map fun r =>
      if r.hash = hash ∧ r.tag = tag then { r with isOpen := false } else r }

/-- Tombstone a mapping; its origin stays, and a mapping already deleted takes a new sequence
number too. -/
def moderatorDeleteMapping (s : RepoStore) (hash tag : String) : Except StoreError RepoStore :=
  match decodeHash hash with
  | .error e => .error e
  | .ok h =>
    match s.repoHashes.idOf h, s.repoTags.idOf tag with
    | some hid, some tid =>
      match s.repoMappings.lookup (hid, tid) with
      | some old =>
        .ok ((s.setMapping (hid, tid)
          { old with status := .deleted, seq := s.mappingCursor + 1 }).closeReports hash tag)
      | none => .error (.notFound hash tag)
    | _, _ => .error (.notFound hash tag)

end RepoStore

/-! ## The operator's seed -/

structure SeedState where
  store : RepoStore
  nextSeq : Nat
  inserted : Nat
  skipped : Nat

/-- One item of `seed_mappings`: a pair already current is skipped and takes no sequence number. -/
def seedItem (account : Account) (ts : Int) (st : SeedState) (item : Hash × Tag) : SeedState :=
  let ih := st.store.internHash item.1
  let it := ih.1.internTag item.2.display
  if (it.1.repoMappings.lookup (ih.2, it.2)).map MappingRow.status = some .current then
    { st with store := it.1, skipped := st.skipped + 1 }
  else
    let new : MappingRow := ⟨.current, st.nextSeq + 1, none⟩
    let logged := it.1.appendSubmission ts (account.sign .add item.1 item.2)
    { store := (logged.upsertMapping (ih.2, it.2) new (mergeStatus new)).1
      nextSeq := st.nextSeq + 1
      inserted := st.inserted + 1
      skipped := st.skipped }

structure SeedSummary where
  inserted : Nat
  skipped : Nat
  total : Nat
deriving DecidableEq

namespace RepoStore

def seedMappings (s : RepoStore) (account : Account) (ts : Int) (items : List (Hash × Tag)) :
    RepoStore × Except StoreError SeedSummary :=
  let s₁ := s.ensureAccount account.publicHex ts
  if s₁.isBanned account.publicHex then (s₁, .error (.banned account.publicHex))
  else
    let out := items.foldl (seedItem account ts) ⟨s₁, s₁.mappingCursor, 0, 0⟩
    (out.store, .ok ⟨out.inserted, out.skipped, out.inserted + out.skipped⟩)

end RepoStore

/-! ## The bridge's bulk load -/

inductive HashResolve
  | indexed
  | deferredAppend
deriving DecidableEq

structure InternCaches where
  hash : Table Hash Nat
  tag : Table String Nat
  hashCarry : Option (Hash × Nat)

def InternCaches.empty : InternCaches := ⟨∅, ∅, none⟩

structure BulkApplyStats where
  applied : Nat
  deleted : Nat
deriving DecidableEq

structure BulkState where
  store : RepoStore
  caches : InternCaches
  nextSeq : Nat
  stats : BulkApplyStats

/-- `INSERT INTO repo_hashes(hash)` without a conflict clause; the unique index, when it is there,
refuses a hash stored before. -/
def appendHash (s : RepoStore) (caches : InternCaches) (hash : Hash) :
    Except StoreError (RepoStore × InternCaches × Nat) :=
  if s.hashUniqueIndex = true ∧ hash ∈ s.repoHashes.values then .error (.duplicateHash hash)
  else .ok ({ s with repoHashes := s.repoHashes.append hash },
    { caches with hashCarry := some (hash, s.repoHashes.nextId) }, s.repoHashes.nextId)

def resolveHash (mode : HashResolve) (s : RepoStore) (caches : InternCaches) (hash : Hash) :
    Except StoreError (RepoStore × InternCaches × Nat) :=
  match mode with
  | .indexed =>
    match caches.hash.lookup hash with
    | some id => .ok (s, caches, id)
    | none =>
      .ok ((s.internHash hash).1,
        { caches with hash := caches.hash.insert hash (s.internHash hash).2 },
        (s.internHash hash).2)
  | .deferredAppend =>
    match caches.hashCarry with
    | some (carryHash, carryId) =>
      if carryHash = hash then .ok (s, caches, carryId) else appendHash s caches hash
    | none => appendHash s caches hash

def resolveTag (s : RepoStore) (caches : InternCaches) (tag : String) :
    RepoStore × InternCaches × Nat :=
  match caches.tag.lookup tag with
  | some id => (s, caches, id)
  | none =>
    ((s.internTag tag).1, { caches with tag := caches.tag.insert tag (s.internTag tag).2 },
      (s.internTag tag).2)

def BulkApplyStats.count (stats : BulkApplyStats) (n : Nat) (isDelete : Bool) : BulkApplyStats :=
  if n = 0 then stats
  else if isDelete then { stats with deleted := stats.deleted + 1 }
  else { stats with applied := stats.applied + 1 }

/-- One `(hash, tag, is_delete)` item. A hash that does not decode is skipped; an upsert that
changes nothing gives its sequence number back. -/
def applyItem (mode : HashResolve) (st : BulkState) (item : String × String × Bool) :
    Except StoreError BulkState :=
  match (hexDecode item.1).bind Hash.ofBytes? with
  | none => .ok st
  | some hash =>
    match resolveHash mode st.store st.caches hash with
    | .error e => .error e
    | .ok (s₁, caches₁, hid) =>
      let rt := resolveTag s₁ caches₁ item.2.1
      let status : MappingStatus := if item.2.2 then .deleted else .current
      let new : MappingRow := ⟨status, st.nextSeq + 1, none⟩
      let up := rt.1.upsertMapping (hid, rt.2.2) new (mergeStatus new)
      .ok { store := up.1
            caches := rt.2.1
            nextSeq := if up.2 = 0 then st.nextSeq else st.nextSeq + 1
            stats := st.stats.count up.2 item.2.2 }

def applyItems (mode : HashResolve) : BulkState → List (String × String × Bool) →
    Except StoreError BulkState
  | st, [] => .ok st
  | st, item :: items =>
    match applyItem mode st item with
    | .error e => .error e
    | .ok st' => applyItems mode st' items

namespace RepoStore

/-- The shared chunk transaction. On an error the store is as it was. -/
def applyMappingsImpl (s : RepoStore) (items : List (String × String × Bool))
    (caches : InternCaches) (nextSeq : Nat) (mode : HashResolve) (ckpt : Option SeedCheckpoint) :
    Except StoreError BulkState :=
  if mode = .indexed ∧ s.hashUniqueIndex = false then .error .indexMissing
  else
    let caches' := if mode = .indexed then { caches with hash := ∅ } else caches
    match applyItems mode ⟨s, caches', nextSeq, ⟨0, 0⟩⟩ items with
    | .error e => .error e
    | .ok st =>
      match ckpt with
      | none => .ok st
      | some ck => .ok { st with store := { st.store with seedCkpt := some ck } }

def applyMappingsBulkCached (s : RepoStore) (items : List (String × String × Bool))
    (caches : InternCaches) (nextSeq : Nat) (ckpt : Option SeedCheckpoint) :
    Except StoreError BulkState :=
  s.applyMappingsImpl items caches nextSeq .indexed ckpt

def applyCurrentMappingsDeferred (s : RepoStore) (items : List (String × String × Bool))
    (caches : InternCaches) (nextSeq : Nat) (ckpt : Option SeedCheckpoint) :
    Except StoreError BulkState :=
  s.applyMappingsImpl items caches nextSeq .deferredAppend ckpt

def applyMappingsBulk (s : RepoStore) (items : List (String × String × Bool)) :
    Except StoreError BulkState :=
  s.applyMappingsBulkCached items .empty s.mappingCursor none

end RepoStore

end Server
end Naiad
