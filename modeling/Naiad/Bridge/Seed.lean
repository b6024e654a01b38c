import Naiad.Bridge.Sync
import Naiad.Server.Rebuild

/-!
# Naiad.Bridge.Seed

The seed of a mirror from a snapshot of the upstream: its mappings with their checkpoints, its
definitions, its update cursor and its relations, and the rebuild in place.
-/

namespace Naiad
namespace Bridge

open Lib Netproto Server

/-- A row of a mappings table joined with its texts. -/
structure SeedRow where
  hashId : Nat
  sha : String
  tag : String
deriving DecidableEq

structure RelationRecord where
  op : Op
  kind : RelKind
  fromTag : Tag
  toTag : Tag

/-- What a snapshot streams for one service. The rows of a table with a hash-led index come in the
order of their hash ids, and a hash id names one hash. -/
structure Snapshot where
  serviceId : Int
  fingerprint : String
  current : List SeedRow
  deleted : List SeedRow
  hashOrdered : Bool
  hashDefs : List (Nat × String)
  tagDefs : List (Nat × String)
  watermark : Option Nat
  relations : List RelationRecord
  currentOrdered : hashOrdered = true → current.Pairwise fun a b => a.hashId ≤ b.hashId
  deletedOrdered : hashOrdered = true → deleted.Pairwise fun a b => a.hashId ≤ b.hashId
  oneHash : ∀ a ∈ current ++ deleted, ∀ b ∈ current ++ deleted, a.hashId = b.hashId → a.sha = b.sha

def SeedRow.item (row : SeedRow) (isDelete : Bool) : String × String × Bool :=
  (row.sha, row.tag, isDelete)

def Snapshot.rows (snap : Snapshot) : SeedPass → List SeedRow
  | .current => snap.current
  | .deleted => snap.deleted

/-- `stream_ptr_mappings_pass`, resumed past a hash id. -/
def Snapshot.stream (snap : Snapshot) (pass : SeedPass) (startAfter : Option Nat) :
    List SeedRow :=
  match startAfter with
  | none => snap.rows pass
  | some h => (snap.rows pass).filter fun row => h < row.hashId

def SeedPass.isDelete : SeedPass → Bool
  | .current => false
  | .deleted => true

/-- The id caches and the sequence counter threaded through the chunks of a seed. -/
structure SeedCarry where
  caches : InternCaches
  seq : Nat

def chunkSize : Nat := 250000

def relationsChunk : Nat := 10000

/-! ## The mappings phase -/

section

variable (snap : Snapshot)

def Snapshot.checkpoint (pass : SeedPass) (highWater : Nat) : SeedCheckpoint :=
  ⟨1, pass, highWater, snap.serviceId, snap.fingerprint⟩

/-- A chunk with the checkpoint it commits. -/
def flush (deferred : Bool) (ckpt : Option SeedCheckpoint)
    (items : List (String × String × Bool)) (carry : SeedCarry) : BridgeM SeedCarry :=
  tryStore fun s =>
    match (if deferred then s.applyCurrentMappingsDeferred items carry.caches carry.seq ckpt
      else s.applyMappingsBulkCached items carry.caches carry.seq ckpt) with
    | .error e => .error e
    | .ok st => .ok (st.store, ⟨st.caches, st.nextSeq⟩)

/-- The rows of a pass: a full buffer is flushed where the hash id changes, under the last one. -/
def runRows (pass : SeedPass) (deferred : Bool) :
    List SeedRow → List (String × String × Bool) → Nat → SeedCarry → BridgeM SeedCarry
  | [], buf, prev, carry =>
    if buf = [] then pure carry
    else flush deferred (some (snap.checkpoint pass prev)) buf carry
  | row :: rows, buf, prev, carry =>
    if chunkSize ≤ buf.length ∧ row.hashId ≠ prev then do
      let carry ← flush deferred (some (snap.checkpoint pass prev)) buf carry
      runRows pass deferred rows [row.item (SeedPass.isDelete pass)] row.hashId carry
    else
      runRows pass deferred rows (buf ++ [row.item (SeedPass.isDelete pass)]) row.hashId carry

def runPass (pass : SeedPass) (deferred : Bool) (startAfter : Option Nat) (carry : SeedCarry) :
    BridgeM SeedCarry :=
  runRows snap pass deferred (snap.stream pass startAfter) [] 0 carry

def runChunks : List (List (String × String × Bool)) → SeedCarry → BridgeM SeedCarry
  | [], carry => pure carry
  | chunk :: chunks, carry => do
    let carry ← flush false none chunk carry
    runChunks chunks carry

def Snapshot.items : List (String × String × Bool) :=
  snap.current.map (·.item false) ++ snap.deleted.map (·.item true)

/-- Both tables through the index, without checkpoints. -/
def runIndexedAll (carry : SeedCarry) : BridgeM SeedCarry :=
  runChunks (chunksFrom chunkSize [] snap.items) carry

end

def dropHashUniqueIndex : BridgeM Unit := onStore fun s => { s with hashUniqueIndex := false }

/-- `CREATE UNIQUE INDEX`: it fails on a hash stored twice. -/
def buildHashUniqueIndex : BridgeM Unit :=
  .write fun node =>
    if node.repo.repoHashes.values.Nodup then
      .ok (node.setStore { node.repo.toRepoStore with hashUniqueIndex := true }, ())
    else .error .duplicateHashes

inductive SeedPlan
  | resumeCurrent (startAfter : Nat)
  | runDeleted (startAfter : Option Nat)
  | freshDeferred
  | selfHealThenIndexed
  | indexed
deriving DecidableEq

/-- How to run the mappings phase, from the checkpoint of this snapshot if there is one. -/
def choosePlan (snap : Snapshot) (ckpt : Option SeedCheckpoint) (s : RepoStore) : SeedPlan :=
  match ckpt with
  | some ck =>
    match ck.pass with
    | .current =>
      if s.hashUniqueIndex then .runDeleted none else .resumeCurrent ck.highWater
    | .deleted => .runDeleted (some ck.highWater)
  | none =>
    if s.hashUniqueIndex = false then .selfHealThenIndexed
    else if s.repoHashes.rows = [] ∧ snap.hashOrdered = true then .freshDeferred
    else .indexed

def runPlan (snap : Snapshot) (plan : SeedPlan) (carry : SeedCarry) : BridgeM SeedCarry :=
  match plan with
  | .freshDeferred => do
    dropHashUniqueIndex
    let carry ← runPass snap .current true none carry
    buildHashUniqueIndex
    runPass snap .deleted false none carry
  | .resumeCurrent startAfter => do
    let carry ← runPass snap .current true (some startAfter) carry
    buildHashUniqueIndex
    runPass snap .deleted false none carry
  | .runDeleted startAfter => runPass snap .deleted false startAfter carry
  | .selfHealThenIndexed => do
    buildHashUniqueIndex
    runIndexedAll snap carry
  | .indexed => runIndexedAll snap carry

/-- Phase 1, with the checkpoint cleared before the flag is set. -/
def mappingsPhase (snap : Snapshot) (ckpt : Option SeedCheckpoint) : BridgeM Unit := do
  let carry ← Prog.read fun node => .ok (SeedCarry.mk .empty node.repo.mappingCursor)
  let plan ← Prog.read fun node => .ok (choosePlan snap ckpt node.repo.toRepoStore)
  let _ ← runPlan snap plan carry
  onStore fun s => { s with seedCkpt := none }
  onState fun st => { st with seedPhaseMappings := true }

/-! ## The other phases -/

def defsPhase (snap : Snapshot) : BridgeM Unit := do
  Prog.forEach (fun chunk => onState fun st => st.insertDefsHashes chunk)
    (chunksFrom chunkSize [] snap.hashDefs)
  onState fun st => st.insertDefsTags snap.tagDefs
  onState fun st => { st with seedPhaseDefs := true }

/-- The update after the watermark, or the first. -/
def Snapshot.nextIndex (snap : Snapshot) : Nat := (snap.watermark.map (· + 1)).getD 0

def cursorPhase (snap : Snapshot) : BridgeM Unit := do
  onState fun st => st.setNextUpdateIndex snap.nextIndex
  onState fun st => { st with seedPhaseCursor := true }

def relationsPhase (snap : Snapshot) (bridge : Signer) (ts : Int) : BridgeM Unit := do
  Prog.forEach (applyRelations ts) (chunksFrom relationsChunk []
    (snap.relations.map fun r => bridge.signRelation r.op r.kind r.fromTag r.toTag))
  onState fun st => { st with seedPhaseRelations := true }

/-- A phase that is done is skipped. -/
def unlessDone (done : StateDb → Bool) (phase : BridgeM Unit) : BridgeM Unit := do
  let isDone ← Prog.read fun node => .ok (done node.state)
  if isDone then pure () else phase

/-! ## The rebuild -/

/-- The mappings of a snapshot in the place of those there are, the log replayed on top. -/
def rebuildMirror (snap : Snapshot) : BridgeM Unit := do
  onStore RepoStore.clearMirroredMappings
  mappingsPhase snap none
  onStore RepoStore.replaySubmissions

/-! ## A run of the seed -/

/-- What a run does before phase 1, and the checkpoint it goes on with. -/
def prepare (snap : Snapshot) (rebuild : Bool) : BridgeM (Option SeedCheckpoint) := do
  let s ← Prog.read fun node => .ok node.repo.toRepoStore
  let valid := s.seedCkpt.filter fun ck =>
    ck.serviceId = snap.serviceId ∧ ck.fp = snap.fingerprint
  if s.rebuildInProgress ∧ rebuild = false then Prog.fail .rebuildInterrupted
  else if rebuild = false then
    pure valid
  else if s.rebuildInProgress ∧ valid.isSome then
    pure valid
  else do
    onStore fun s => { s with rebuildInProgress := true }
    onStore RepoStore.clearMirroredMappings
    onState StateDb.resetSeedPhaseMappings
    onStore fun s => { s with seedCkpt := none }
    pure none

/-- A plain seed stops before phase 1 at a checkpoint of another snapshot. -/
def checkFingerprint (rebuild : Bool) (valid : Option SeedCheckpoint) : BridgeM Unit :=
  .read fun node =>
    if rebuild = false ∧ node.repo.seedCkpt.isSome ∧ valid.isNone then
      .error .fingerprintMismatch
    else .ok ()

/-- The end of a rebuild: the log replayed, a new generation, the count, the marker off. -/
def finishRebuild (generation : String) : BridgeM Unit := do
  onStore RepoStore.replaySubmissions
  onStore fun s => { s with storeGeneration := some generation }
  onStore fun s => s.writeDistinctHashCount s.distinctHashCountScan
  onStore fun s => { s with rebuildInProgress := false }

/-- The end of a plain seed: a generation and a count where there is none. -/
def finishPlain (generation : String) : BridgeM Unit := do
  onStore fun s => { s with storeGeneration := s.storeGeneration.or (some generation) }
  onStore RepoStore.backfillDistinctHashCount

def seedRun (snap : Snapshot) (bridge : Signer) (ts : Int) (generation : String)
    (rebuild : Bool) : BridgeM Unit := do
  let valid ← prepare snap rebuild
  unlessDone StateDb.seedPhaseMappings do
    checkFingerprint rebuild valid
    mappingsPhase snap valid
  unlessDone StateDb.seedPhaseDefs (defsPhase snap)
  unlessDone StateDb.seedPhaseCursor (cursorPhase snap)
  unlessDone StateDb.seedPhaseRelations (relationsPhase snap bridge ts)
  if rebuild then finishRebuild generation else finishPlain generation

end Bridge
end Naiad
