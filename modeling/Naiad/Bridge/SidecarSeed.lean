import Naiad.Bridge.SidecarSync

/-!
# Naiad.Bridge.SidecarSeed

The seed of a sidecar from a snapshot of a client of the upstream: the definitions, then the
current mappings staged band by band in a file of their own and merged into the map, and last the
cursor.

* `HydrusDb`: the tables of the snapshot and the streams read off them.
* `SidecarSeed.seed`: the run, its markers in the sidecar and in the staging file.
* `mem_stagedRows`: the pairs a band stages.
-/

namespace Naiad
namespace Bridge

open Lib Server

/-! ## The snapshot -/

/-- The tables of a client's databases for one service, in the order in which they are read. -/
structure HydrusDb where
  /-- `hash_id` and the stored hash. -/
  hashes : Table Nat (List Byte)
  /-- `tag_id` with its namespace and subtag. -/
  tags : Table Nat (String × String)
  /-- `(service_hash_id, hash_id)` -/
  hashIdMap : List (Nat × Nat)
  /-- `(service_tag_id, tag_id)` -/
  tagIdMap : List (Nat × Nat)
  /-- `(hash_id, tag_id)` -/
  currentMappings : List (Nat × Nat)
  /-- `(update_index, hash_id)`, where the table exists. -/
  updates : Option (List (Nat × Nat))
  /-- `(hash_id, processed)` -/
  updatesProcessed : List (Nat × Bool)

namespace HydrusDb

def rawTag (db : HydrusDb) (tagId : Nat) : Option String :=
  (db.tags.lookup tagId).map fun t => if t.1 = "" then t.2 else t.1 ++ ":" ++ t.2

def sha256 (db : HydrusDb) (hashId : Nat) : Option Hash :=
  (db.hashes.lookup hashId).bind Hash.ofBytes?

def streamPtrHashIdMap (db : HydrusDb) : List (Nat × Hash) :=
  db.hashIdMap.filterMap fun m => (db.sha256 m.2).map fun sha => (m.1, sha)

/-- `(service_tag_id, tag)` of the tags that parse. -/
def streamPtrTagIdMap (u : Unicode) (db : HydrusDb) : List (Nat × String) :=
  db.tagIdMap.filterMap fun m => (db.rawTag m.2).bind fun raw => parseTagDef u (m.1, raw)

/-- `(tag_id, service_tag_id)` of the tags that parse. -/
def streamPtrTagTranslation (u : Unicode) (db : HydrusDb) : List (Nat × Nat) :=
  db.tagIdMap.filterMap fun m => (db.rawTag m.2).bind fun raw =>
    match Tag.parse u raw with
    | .error _ => none
    | .ok _ => some (m.2, m.1)

def maxCurrentHashId (db : HydrusDb) : Option Nat := (db.currentMappings.map Prod.fst).max?

/-- The mappings of the hash ids from `lo` on and below `hi`, with the hashes of 32 bytes. -/
def streamPtrIdbandMappings (db : HydrusDb) (lo hi : Nat) : List (Hash × Nat) :=
  (orderBy toLex (db.currentMappings.filter fun m => lo ≤ m.1 ∧ m.1 < hi)).filterMap fun m =>
    (db.sha256 m.1).map fun sha => (sha, m.2)

/-- An update index is processed if it has files, each known and none of them unprocessed. -/
def fullyProcessed (db : HydrusDb) (updates : List (Nat × Nat)) (index : Nat) : Bool :=
  let files := (updates.filter fun r => r.1 = index).map Prod.snd
  decide (files ≠ []) && files.all fun file =>
    (db.updatesProcessed.any fun p => p.1 = file) &&
      db.updatesProcessed.all fun p => decide (p.1 = file → p.2 = true)

def recoverWatermark (db : HydrusDb) : Option Nat :=
  match db.updates with
  | none => none
  | some updates => ((updates.map Prod.fst).filter (db.fullyProcessed updates)).max?

/-- The update after the watermark, or the first. -/
def nextIndex (db : HydrusDb) : Nat := (db.recoverWatermark.map (· + 1)).getD 0

end HydrusDb

/-! ## Staging -/

def defsBatch : Nat := 50000

def idBand : Nat := 65536

/-- `u32::MAX`, which stands for a tag without a service id. -/
def sentinel : Nat := 4294967295

/-- The service id of each tag, the last one streamed. -/
def translation (u : Unicode) (db : HydrusDb) : Except SidecarError (Nat → Option Nat) :=
  let rows := db.streamPtrTagTranslation u
  match rows.find? fun r => sentinel ≤ r.2 with
  | some (tagId, serviceTagId) =>
    .error (.snapshot ("service_tag_id " ++ toString serviceTagId ++ " (for tag_id " ++
      toString tagId ++ ") is >= u32::MAX (" ++ toString sentinel ++
      "); widen `translation` to Vec<u64> and remove the SENTINEL overflow guard in " ++
      "sidecar_seed.rs"))
  | none => .ok (lastWrite rows)

/-- A mapping joins the last group if that is its hash's. -/
def pushGroup (groups : List (Hash × List Nat)) (row : Hash × Option Nat) :
    List (Hash × List Nat) :=
  match groups.getLast? with
  | none => [(row.1, row.2.toList)]
  | some last =>
    if last.1 = row.1 then groups.dropLast ++ [(row.1, last.2 ++ row.2.toList)]
    else groups ++ [(row.1, row.2.toList)]

/-- The rows a band stages, packed; a hash none of whose tags has a service id gets none. -/
def stagedRows (db : HydrusDb) (translate : Nat → Option Nat) (i : Nat) : List (Hash × List Nat) :=
  let mappings := db.streamPtrIdbandMappings (i * idBand) (i * idBand + idBand)
  let groups := (mappings.map fun m => (m.1, translate m.2)).foldl pushGroup []
  (groups.filter fun g => g.2 ≠ []).map fun g => (g.1, sortDedup g.2)

namespace SidecarDb

def clearBucketMap (sc : SidecarDb) : SidecarDb := { sc with bucketMap := ∅ }

def clearSeedMarkers (sc : SidecarDb) : SidecarDb :=
  { sc with seedDefsDone := false, seedMergeDone := false, seedIdbandDone := [] }

/-- `INSERT OR REPLACE` in the order of the hashes. -/
def mergeBuckets (sc : SidecarDb) (buckets : List (Hash × List Nat)) : SidecarDb :=
  { sc with
    bucketMap := (orderBy Prod.fst buckets).foldl (fun t r => t.insert r.1 r.2) sc.bucketMap }

end SidecarDb

def Staging.empty : Staging := ⟨[], []⟩

/-- The rows of a band and its mark, in one transaction. -/
def Staging.stage (st : Staging) (i : Nat) (rows : List (Hash × List Nat)) : Staging :=
  ⟨st.buckets ++ rows, st.bandDone ++ [i]⟩

namespace SidecarNode

/-- The staging file as it is opened. -/
def staged (node : SidecarNode) : Staging := node.staging.getD .empty

def bandSkipped (node : SidecarNode) (i : Nat) : Bool :=
  decide (i ∈ node.sidecar.seedIdbandDone) || decide (i ∈ node.staged.bandDone)

end SidecarNode

/-! ## The run -/

namespace SidecarSeed

def deleteStagingFiles : SidecarM Unit := .put fun node => { node with staging := none }

def openStaging : SidecarM Unit := .put fun node => { node with staging := some node.staged }

def defsPhase (u : Unicode) (db : HydrusDb) : SidecarM Unit := do
  Prog.forEach (fun chunk => onSidecar fun sc => sc.insertDefsHashes chunk)
    (chunksFrom defsBatch [] db.streamPtrHashIdMap)
  Prog.forEach (fun chunk => onSidecar fun sc => sc.insertDefsTags chunk)
    (chunksFrom defsBatch [] (db.streamPtrTagIdMap u))
  onSidecar fun sc => { sc with seedDefsDone := true }

def stageBand (db : HydrusDb) (translate : Nat → Option Nat) (i : Nat) : SidecarM Unit := do
  let skipped ← Prog.read fun node => .ok (node.bandSkipped i)
  if skipped then pure ()
  else .put fun node =>
    { node with staging := some (node.staged.stage i (stagedRows db translate i)) }

def mergeStaging : SidecarM Unit := do
  Prog.put fun node => node.setSidecar (node.sidecar.mergeBuckets node.staged.buckets)
  onSidecar fun sc => { sc with seedMergeDone := true }
  deleteStagingFiles

/-- Nothing is staged, and no mark set, where the snapshot has no mappings. -/
def mappingsPhase (u : Unicode) (db : HydrusDb) : SidecarM Unit :=
  match db.maxCurrentHashId with
  | none => pure ()
  | some maxHashId => do
    let translate ← Prog.read fun _ => translation u db
    openStaging
    Prog.forEach (stageBand db translate) (List.range (maxHashId / idBand + 1))
    mergeStaging

def clearSeed : SidecarM Unit := do
  onSidecar SidecarDb.clearBucketMap
  onSidecar SidecarDb.clearSeedMarkers
  deleteStagingFiles

/-- Before a plain run nothing is cleared. -/
def prepare (rebuild : Bool) : SidecarM Unit := if rebuild then clearSeed else pure ()

def phaseD (u : Unicode) (db : HydrusDb) : SidecarM Unit := do
  let done ← Prog.read fun node => .ok node.sidecar.seedDefsDone
  if done then pure () else defsPhase u db

/-- Behind the mark of the merge a staging file is only deleted. -/
def phaseM (u : Unicode) (db : HydrusDb) : SidecarM Unit := do
  let done ← Prog.read fun node => .ok node.sidecar.seedMergeDone
  if done then deleteStagingFiles else mappingsPhase u db

def load (u : Unicode) (db : HydrusDb) : SidecarM Unit := do
  phaseD u db
  phaseM u db
  onSidecar fun sc => sc.setNextUpdateIndex db.nextIndex

def seed (u : Unicode) (db : HydrusDb) (rebuild : Bool) : SidecarM Unit := do
  prepare rebuild
  load u db

end SidecarSeed

/-! ## What a band stages -/

theorem pushGroup_pairs (groups : List (Hash × List Nat)) (row : Hash × Option Nat) :
    (pushGroup groups row).flatMap (fun g => g.2.map fun id => (g.1, id)) =
      groups.flatMap (fun g => g.2.map fun id => (g.1, id)) ++
        row.2.toList.map fun id => (row.1, id) := by
  rcases List.eq_nil_or_concat groups with rfl | ⟨init, last, rfl⟩
  · simp [pushGroup]
  · by_cases h : last.1 = row.1
    · simp [pushGroup, h]
    · simp [pushGroup, h]

theorem foldl_pushGroup_pairs (rows : List (Hash × Option Nat)) (groups : List (Hash × List Nat)) :
    (rows.foldl pushGroup groups).flatMap (fun g => g.2.map fun id => (g.1, id)) =
      groups.flatMap (fun g => g.2.map fun id => (g.1, id)) ++
        rows.flatMap fun row => row.2.toList.map fun id => (row.1, id) := by
  induction rows generalizing groups with
  | nil => simp
  | cons row rows ih =>
    rw [List.foldl_cons, ih, pushGroup_pairs]
    simp

section

variable {db : HydrusDb} {translate : Nat → Option Nat} {i : Nat}

theorem mem_streamPtrIdbandMappings {lo hi : Nat} {hash : Hash} {tagId : Nat} :
    (hash, tagId) ∈ db.streamPtrIdbandMappings lo hi ↔
      ∃ hashId, (hashId, tagId) ∈ db.currentMappings ∧ lo ≤ hashId ∧ hashId < hi ∧
        db.sha256 hashId = some hash := by
  simp only [HydrusDb.streamPtrIdbandMappings, List.mem_filterMap, mem_orderBy, List.mem_filter,
    decide_eq_true_eq, Option.map_eq_some_iff, Prod.mk.injEq]
  constructor
  · intro h
    obtain ⟨⟨hashId, tag⟩, ⟨hmem, hlo, hhi⟩, sha, hsha, rfl, rfl⟩ := h
    exact ⟨hashId, hmem, hlo, hhi, hsha⟩
  · intro h
    obtain ⟨hashId, hmem, hlo, hhi, hsha⟩ := h
    exact ⟨(hashId, tagId), ⟨hmem, hlo, hhi⟩, hash, hsha, rfl, rfl⟩

/-- The pairs a band stages are its mappings of tags with a service id. -/
theorem mem_stagedRows {hash : Hash} {id : Nat} :
    (∃ ids, (hash, ids) ∈ stagedRows db translate i ∧ id ∈ ids) ↔
      ∃ hashId tagId, (hashId, tagId) ∈ db.currentMappings ∧ hashId / idBand = i ∧
        db.sha256 hashId = some hash ∧ translate tagId = some id := by
  let mappings := db.streamPtrIdbandMappings (i * idBand) (i * idBand + idBand)
  let groups := (mappings.map fun m => (m.1, translate m.2)).foldl pushGroup []
  have hpairs : (hash, id) ∈ groups.flatMap (fun g => g.2.map fun id => (g.1, id)) ↔
      ∃ tagId, (hash, tagId) ∈ mappings ∧ translate tagId = some id := by
    rw [foldl_pushGroup_pairs]
    simp only [List.flatMap_nil, List.nil_append, List.mem_flatMap, List.mem_map, Prod.mk.injEq,
      Option.mem_toList]
    grind
  have hrows : (∃ ids, (hash, ids) ∈ stagedRows db translate i ∧ id ∈ ids) ↔
      (hash, id) ∈ groups.flatMap fun g => g.2.map fun id => (g.1, id) := by
    simp only [stagedRows, List.mem_map, List.mem_filter, List.mem_flatMap, Prod.mk.injEq,
      decide_eq_true_eq]
    constructor
    · intro h
      obtain ⟨ids, ⟨g, ⟨hg, _⟩, rfl, rfl⟩, hid⟩ := h
      exact ⟨g, hg, id, mem_sortDedup.1 hid, rfl, rfl⟩
    · intro h
      obtain ⟨g, hg, id', hid, rfl, rfl⟩ := h
      exact ⟨sortDedup g.2, ⟨g, ⟨hg, List.ne_nil_of_mem hid⟩, rfl, rfl⟩, mem_sortDedup.2 hid⟩
  have hband : ∀ hashId, (i * idBand ≤ hashId ∧ hashId < i * idBand + idBand) ↔
      hashId / idBand = i := by
    intro hashId
    simp only [idBand]
    omega
  rw [hrows, hpairs]
  simp only [mappings, mem_streamPtrIdbandMappings, ← hband]
  grind

end

end Bridge
end Naiad
