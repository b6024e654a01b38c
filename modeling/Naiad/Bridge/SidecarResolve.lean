import Naiad.Bridge.SidecarFollow
import Naiad.Bridge.SidecarSeed

/-!
# Naiad.Bridge.SidecarResolve

Passes and seeds of one sidecar in any order, each cut anywhere, and whether the ids of its map
have definitions.

* `Resolvable`: every id in the map or in the staging file is defined.
* `SidecarRun.Resolves`: when a run keeps it so.
* `sidecar_resolvable`: **the reads then fail on no id**.
-/

namespace Naiad
namespace Bridge

open Lib Netproto Server

/-! ## Runs -/

inductive SidecarRun
  | sync (relations : Option Signer) (ts : Int) (src : UpdateSource) (batchHashes : Nat)
  | seed (db : HydrusDb) (rebuild : Bool)

def SidecarRun.program (u : Unicode) : SidecarRun → SidecarM Unit
  | .sync relations ts src batchHashes => do
    let _ ← sidecarSyncOnce u relations ts src batchHashes
    return ()
  | .seed db rebuild => SidecarSeed.seed u db rebuild

/-- A run and the number of writes it is cut after. -/
def sidecarStep (u : Unicode) (node : SidecarNode) (act : SidecarRun × Nat) : SidecarNode :=
  (act.1.program u).cutAt act.2 node

/-! ## Definitions behind the ids -/

def SidecarDb.Defines (sc : SidecarDb) (id : Nat) : Prop := (sc.defsTags.lookup id).isSome = true

/-- Of each update of a pass in turn: a tag id that its rows leave on a hash is defined by then. -/
def AddsDefined (u : Unicode) (src : UpdateSource) :
    (Nat → Option Hash) → (Nat → Option String) → List MetadataEntry → Prop
  | _, _, [] => True
  | hashes, tags, entry :: entries =>
    ∀ decoded, entry.updateHashes.mapM src.fetchUpdate = .ok decoded → WellFormedDefs decoded →
      ∀ rows, gather (writeAll hashes (hashDefRows decoded)) decoded = .ok rows →
        (∀ sha id, lastWrite (rows.map rowWrite) (sha, id) = some true →
          (writeAll tags (tagDefRows u decoded) id).isSome = true) ∧
        AddsDefined u src (writeAll hashes (hashDefRows decoded))
          (writeAll tags (tagDefRows u decoded)) entries

/-- The ids of the bands a seed has left to stage are defined. -/
def BandsDefined (u : Unicode) (db : HydrusDb) (node : SidecarNode) : Prop :=
  ∀ translate, translation u db = .ok translate → ∀ i, node.bandSkipped i = false →
    ∀ row ∈ stagedRows db translate i, ∀ id ∈ row.2, node.sidecar.Defines id

/-- A pass leaves no undefined id on a hash; a seed stages none where it writes no definitions. -/
def SidecarRun.Resolves (u : Unicode) (node : SidecarNode) : SidecarRun → Prop
  | .sync _ _ src _ => ∀ entries, src.metadata node.sidecar.nextUpdateIndex = .ok entries →
      AddsDefined u src node.sidecar.defsHashes.lookup node.sidecar.defsTags.lookup
        (pendingEntries node.sidecar.nextUpdateIndex entries)
  | .seed db rebuild => rebuild = false → node.sidecar.seedDefsDone = true →
      node.sidecar.seedMergeDone = false → BandsDefined u db node

structure Resolvable (node : SidecarNode) : Prop where
  packed : node.sidecar.Packed
  stagedPacked : ∀ row ∈ node.staged.buckets, row.2 ≠ [] ∧ row.2.Pairwise (· < ·)
  defined : ∀ hash id, id ∈ node.sidecar.readTagSet hash → node.sidecar.Defines id
  stagedDefined : ∀ row ∈ node.staged.buckets, ∀ id ∈ row.2, node.sidecar.Defines id

theorem resolvable_empty : Resolvable .empty := by
  refine ⟨SidecarDb.packed_empty, ?_, ?_, ?_⟩
  · intro row hrow
    simp [SidecarNode.staged, SidecarNode.empty, Staging.empty] at hrow
  · intro hash id hid
    simp [SidecarNode.empty, SidecarDb.empty, SidecarDb.readTagSet] at hid
  · intro row hrow
    simp [SidecarNode.staged, SidecarNode.empty, Staging.empty] at hrow

section

variable {u : Unicode} {node : SidecarNode}

theorem isSome_writeAll (tags : Nat → Option String) (rows : List (Nat × String)) {id : Nat}
    (h : (tags id).isSome = true) : (writeAll tags rows id).isSome = true := by
  simp [writeAll_apply, h]

theorem SidecarDb.Defines.insertDefsTags {sc : SidecarDb} {id : Nat} (h : sc.Defines id)
    (rows : List (Nat × String)) : (sc.insertDefsTags rows).Defines id := by
  have hlookup : (sc.insertDefsTags rows).defsTags.lookup id =
      writeAll sc.defsTags.lookup rows id := lookup_insertAll rows _ id
  rw [SidecarDb.Defines, hlookup]
  exact isSome_writeAll _ rows h

theorem defines_of_inserted {sc : SidecarDb} {rows : List (Nat × String)} {row : Nat × String}
    (h : row ∈ rows) : (sc.insertDefsTags rows).Defines row.1 := by
  have hlookup : (sc.insertDefsTags rows).defsTags.lookup row.1 =
      writeAll sc.defsTags.lookup rows row.1 := lookup_insertAll rows _ row.1
  rw [SidecarDb.Defines, hlookup, writeAll_apply]
  cases hlast : lastWrite rows row.1 with
  | none => exact absurd rfl (lastWrite_eq_none.1 hlast row h)
  | some tag => rfl

/-- Files that hold the same map and the same staged rows, and no fewer definitions. -/
theorem Resolvable.grow {node' : SidecarNode} (h : Resolvable node)
    (hmap : node'.sidecar.bucketMap = node.sidecar.bucketMap)
    (hstaged : node'.staged.buckets = node.staged.buckets)
    (hdefs : ∀ id, node.sidecar.Defines id → node'.sidecar.Defines id) : Resolvable node' := by
  refine ⟨?_, ?_, ?_, ?_⟩
  · intro hash ids hl
    rw [hmap] at hl
    exact h.packed hash ids hl
  · rw [hstaged]
    exact h.stagedPacked
  · intro hash id hid
    rw [SidecarDb.readTagSet, hmap] at hid
    exact hdefs id (h.defined hash id hid)
  · rw [hstaged]
    intro row hrow id hid
    exact hdefs id (h.stagedDefined row hrow id hid)

theorem Resolvable.noStaging (h : Resolvable node) : Resolvable { node with staging := none } := by
  refine ⟨h.packed, ?_, h.defined, ?_⟩
  · simp [SidecarNode.staged, Staging.empty]
  · simp [SidecarNode.staged, Staging.empty]

/-! ## The seed -/

theorem resolvable_deleteStagingFiles :
    Prog.Triple Resolvable SidecarSeed.deleteStagingFiles (fun _ => Resolvable) Resolvable :=
  .put (fun _ hn => hn) fun _ hn => ⟨hn.noStaging, hn.noStaging⟩

theorem resolvable_clearSeed : Prog.Triple Resolvable SidecarSeed.clearSeed
    (fun _ node => Resolvable node ∧ node.sidecar.seedDefsDone = false) Resolvable := by
  unfold SidecarSeed.clearSeed
  refine Prog.Triple.bind (Q := fun _ => Resolvable) (.put (fun _ hn => hn) fun node hn => ?_)
    fun _ => ?_
  · have hcleared : Resolvable (node.setSidecar node.sidecar.clearBucketMap) := by
      refine ⟨?_, hn.stagedPacked, ?_, hn.stagedDefined⟩
      · intro hash ids hl
        cases hl
      · intro hash id hid
        simp [SidecarNode.setSidecar, SidecarDb.clearBucketMap, SidecarDb.readTagSet] at hid
    exact ⟨hcleared, hcleared⟩
  refine Prog.Triple.bind
    (Q := fun _ node => Resolvable node ∧ node.sidecar.seedDefsDone = false)
    (.put (fun _ hn => hn) fun node hn => ?_) fun _ => .put (fun _ hn => hn.1) fun node hn => ?_
  · have hmarkers : Resolvable (node.setSidecar node.sidecar.clearSeedMarkers) :=
      hn.grow rfl rfl fun _ hid => hid
    exact ⟨hmarkers, hmarkers, rfl⟩
  · exact ⟨hn.1.noStaging, hn.1.noStaging, hn.2⟩

/-- A tag with a service id is one of those whose definitions are streamed. -/
theorem mem_streamPtrTagIdMap {db : HydrusDb} {translate : Nat → Option Nat} {tagId id : Nat}
    (htranslate : translation u db = .ok translate) (h : translate tagId = some id) :
    ∃ tag, (id, tag) ∈ db.streamPtrTagIdMap u := by
  have hlast : lastWrite (db.streamPtrTagTranslation u) tagId = some id := by
    simp only [translation] at htranslate
    split at htranslate
    · cases htranslate
    · cases htranslate
      exact h
  obtain ⟨m, hm, hrow⟩ := List.mem_filterMap.1 (mem_of_lastWrite hlast)
  obtain ⟨raw, hraw, hparse⟩ := Option.bind_eq_some_iff.1 hrow
  cases ht : Tag.parse u raw with
  | error e => simp [ht] at hparse
  | ok tag =>
    simp only [ht, Option.some.injEq, Prod.mk.injEq] at hparse
    refine ⟨tag.display, List.mem_filterMap.2 ⟨m, hm, ?_⟩⟩
    simp [hraw, parseTagDef, ht, hparse.2]

theorem resolvable_defsPhase (db : HydrusDb) : Prog.Triple Resolvable (SidecarSeed.defsPhase u db)
    (fun _ node => Resolvable node ∧ BandsDefined u db node) Resolvable := by
  unfold SidecarSeed.defsPhase
  let hashChunks := chunksFrom defsBatch [] db.streamPtrHashIdMap
  let tagChunks := chunksFrom defsBatch [] (db.streamPtrTagIdMap u)
  refine Prog.Triple.bind (Q := fun _ => Resolvable)
    (.forEach (fun _ => Resolvable) hashChunks (fun _ hn => hn) fun _ chunk _ _ =>
      .put (fun _ hn => hn) fun node hn => ?_) fun _ => ?_
  · have hin : Resolvable (node.setSidecar (node.sidecar.insertDefsHashes chunk)) :=
      hn.grow rfl rfl fun _ hid => hid
    exact ⟨hin, hin⟩
  let D (rows : List (Nat × String)) (node : SidecarNode) : Prop :=
    Resolvable node ∧ ∀ row ∈ rows, node.sidecar.Defines row.1
  refine Prog.Triple.bind (Q := fun _ => D tagChunks.flatten)
    ((Prog.Triple.forEach (fun done => D done.flatten) tagChunks (fun _ hn => hn.1)
      fun done chunk _ _ => .put (fun _ hn => hn.1) fun node hn => ?_).conseq
        (fun node hn => ⟨hn, by simp⟩) (fun _ _ hn => hn) fun _ hn => hn) fun _ => ?_
  · have hin : Resolvable (node.setSidecar (node.sidecar.insertDefsTags chunk)) :=
      hn.1.grow rfl rfl fun _ hid => hid.insertDefsTags chunk
    refine ⟨hin, hin, ?_⟩
    intro row hrow
    simp only [List.flatten_append, List.flatten_cons, List.flatten_nil, List.append_nil,
      List.mem_append] at hrow
    rcases hrow with hrow | hrow
    · exact (hn.2 row hrow).insertDefsTags chunk
    · exact defines_of_inserted hrow
  refine .put (fun _ hn => hn.1) fun node hn => ?_
  have hdone : Resolvable (node.setSidecar { node.sidecar with seedDefsDone := true }) :=
    hn.1.grow rfl rfl fun _ hid => hid
  refine ⟨hdone, hdone, ?_⟩
  -- whatever a band stages was translated
  intro translate htranslate i _ row hrow id hid
  obtain ⟨_, tagId, _, _, _, hid'⟩ := mem_stagedRows.1 ⟨row.2, hrow, hid⟩
  obtain ⟨tag, htag⟩ := mem_streamPtrTagIdMap htranslate hid'
  have hflat : tagChunks.flatten = db.streamPtrTagIdMap u := chunksFrom_flatten defsBatch [] _
  rw [← hflat] at htag
  exact hn.2 (id, tag) htag

/-- A row of the merged map was staged or was there. -/
theorem lookup_mergeBuckets {sc : SidecarDb} {buckets : List (Hash × List Nat)} {hash : Hash}
    {ids : List Nat} (h : (sc.mergeBuckets buckets).bucketMap.lookup hash = some ids) :
    (hash, ids) ∈ buckets ∨ sc.bucketMap.lookup hash = some ids := by
  have hlookup : (sc.mergeBuckets buckets).bucketMap.lookup hash =
      writeAll sc.bucketMap.lookup (orderBy Prod.fst buckets) hash := lookup_insertAll _ _ hash
  rw [hlookup, writeAll_apply] at h
  cases hlast : lastWrite (orderBy Prod.fst buckets) hash with
  | none =>
    rw [hlast] at h
    exact .inr h
  | some ids' =>
    rw [hlast] at h
    cases h
    exact .inl (mem_orderBy.1 (mem_of_lastWrite hlast))

theorem stagedRows_packed {db : HydrusDb} {translate : Nat → Option Nat} {i : Nat} :
    ∀ row ∈ stagedRows db translate i, row.2 ≠ [] ∧ row.2.Pairwise (· < ·) := by
  intro row hrow
  obtain ⟨g, hg, rfl⟩ := List.mem_map.1 hrow
  have hne : g.2 ≠ [] := by simpa using (List.mem_filter.1 hg).2
  exact ⟨SidecarDb.sortDedup_ne_nil hne, sortDedup_strict g.2⟩

theorem resolvable_stageBand {db : HydrusDb} {translate : Nat → Option Nat} (i : Nat)
    (htranslate : translation u db = .ok translate) :
    Prog.Triple (fun node => Resolvable node ∧ BandsDefined u db node)
      (SidecarSeed.stageBand db translate i) (fun _ node => Resolvable node ∧ BandsDefined u db node)
      Resolvable := by
  unfold SidecarSeed.stageBand
  refine Prog.Triple.bind
    (Q := fun skipped node => (Resolvable node ∧ BandsDefined u db node) ∧
      node.bandSkipped i = skipped)
    (.read (fun _ hn => hn.1) ?_) fun skipped => ?_
  · intro node skipped hn hread
    cases hread
    exact ⟨hn, rfl⟩
  cases skipped with
  | true => exact .ret (fun _ hn => hn.1.1) fun _ hn => hn.1
  | false =>
    refine .put (fun _ hn => hn.1.1) fun node hn => ?_
    obtain ⟨⟨hn, hbands⟩, hskipped⟩ := hn
    have hrows := hbands translate htranslate i hskipped
    have hstaged : Resolvable
        { node with staging := some (node.staged.stage i (stagedRows db translate i)) } := by
      refine ⟨hn.packed, ?_, hn.defined, ?_⟩
      · intro row hrow
        rcases List.mem_append.1 hrow with hrow | hrow
        · exact hn.stagedPacked row hrow
        · exact stagedRows_packed row hrow
      · intro row hrow
        rcases List.mem_append.1 hrow with hrow | hrow
        · exact hn.stagedDefined row hrow
        · exact hrows row hrow
    refine ⟨hstaged, hstaged, ?_⟩
    intro translate' htranslate' j hj
    refine hbands translate' htranslate' j ?_
    simp only [SidecarNode.bandSkipped, Bool.or_eq_false_iff, decide_eq_false_iff_not] at hj ⊢
    refine ⟨hj.1, ?_⟩
    intro hmem
    exact hj.2 (List.mem_append_left [i] hmem)

theorem resolvable_mergeStaging :
    Prog.Triple Resolvable SidecarSeed.mergeStaging (fun _ => Resolvable) Resolvable := by
  unfold SidecarSeed.mergeStaging
  refine Prog.Triple.bind (Q := fun _ => Resolvable) (.put (fun _ hn => hn) fun node hn => ?_)
    fun _ => ?_
  · have hmerged : Resolvable
        (node.setSidecar (node.sidecar.mergeBuckets node.staged.buckets)) := by
      refine ⟨?_, hn.stagedPacked, ?_, hn.stagedDefined⟩
      · intro hash ids hl
        rcases lookup_mergeBuckets hl with hrow | hold
        · exact hn.stagedPacked (hash, ids) hrow
        · exact hn.packed hash ids hold
      · intro hash id hid
        rw [SidecarDb.readTagSet] at hid
        cases hl : (node.sidecar.mergeBuckets node.staged.buckets).bucketMap.lookup hash with
        | none => simp [SidecarNode.setSidecar, hl] at hid
        | some ids =>
          simp only [SidecarNode.setSidecar, hl, Option.getD_some] at hid
          rcases lookup_mergeBuckets hl with hrow | hold
          · exact hn.stagedDefined (hash, ids) hrow id hid
          · exact hn.defined hash id (by simpa [SidecarDb.readTagSet, hold] using hid)
    exact ⟨hmerged, hmerged⟩
  refine Prog.Triple.bind (Q := fun _ => Resolvable) (.put (fun _ hn => hn) fun node hn => ?_)
    fun _ => resolvable_deleteStagingFiles
  have hmarked : Resolvable (node.setSidecar { node.sidecar with seedMergeDone := true }) :=
    hn.grow rfl rfl fun _ hid => hid
  exact ⟨hmarked, hmarked⟩

theorem resolvable_mappingsPhase (db : HydrusDb) :
    Prog.Triple (fun node => Resolvable node ∧ BandsDefined u db node) (SidecarSeed.mappingsPhase u db)
      (fun _ => Resolvable) Resolvable := by
  let B (node : SidecarNode) : Prop := Resolvable node ∧ BandsDefined u db node
  unfold SidecarSeed.mappingsPhase
  cases db.maxCurrentHashId with
  | none => exact .ret (fun _ hn => hn.1) fun _ hn => hn.1
  | some maxHashId =>
    refine Prog.Triple.bind (Q := fun translate node => B node ∧ translation u db = .ok translate)
      (.read (fun _ hn => hn.1) fun node translate hn hread => ⟨hn, hread⟩) fun translate => ?_
    by_cases htranslate : translation u db = .ok translate
    rotate_left
    · exact ⟨fun node hn => absurd hn.2 htranslate, fun node _ _ hn => absurd hn.2 htranslate⟩
    refine Prog.Triple.bind (Q := fun _ => B) (.put (fun _ hn => hn.1.1) fun node hn => ?_)
      fun _ => ?_
    · have hopened : Resolvable { node with staging := some node.staged } :=
        hn.1.1.grow rfl rfl fun _ hid => hid
      exact ⟨hopened, hopened, hn.1.2⟩
    refine Prog.Triple.bind (Q := fun _ => B)
      (.forEach (fun _ => B) (List.range (maxHashId / idBand + 1)) (fun _ hn => hn.1)
        fun _ i _ _ => resolvable_stageBand i htranslate) fun _ => ?_
    exact resolvable_mergeStaging.conseq (fun _ hn => hn.1) (fun _ _ hn => hn) fun _ hn => hn

/-- A seed cut anywhere leaves the ids resolvable, if it stages none that is not defined. -/
theorem resolvable_seed (db : HydrusDb) (rebuild : Bool) :
    Prog.Triple
      (fun node => Resolvable node ∧ SidecarRun.Resolves u node (.seed db rebuild))
      (SidecarSeed.seed u db rebuild) (fun _ => Resolvable) Resolvable := by
  let K (node : SidecarNode) : Prop := Resolvable node ∧ (node.sidecar.seedDefsDone = true →
    node.sidecar.seedMergeDone = false → BandsDefined u db node)
  let L (node : SidecarNode) : Prop := Resolvable node ∧
    (node.sidecar.seedMergeDone = false → BandsDefined u db node)
  unfold SidecarSeed.seed
  refine Prog.Triple.bind (Q := fun _ => K) ?_ fun _ => ?_
  · cases rebuild with
    | true =>
      refine resolvable_clearSeed.conseq (fun _ hn => hn.1) (fun _ node hn => ⟨hn.1, ?_⟩) fun _ hn => hn
      intro hdone
      rw [hn.2] at hdone
      cases hdone
    | false => exact .ret (fun _ hn => hn.1) fun _ hn => ⟨hn.1, hn.2 rfl⟩
  unfold SidecarSeed.load
  refine Prog.Triple.bind (Q := fun _ => L) ?_ fun _ => ?_
  · unfold SidecarSeed.phaseD
    refine Prog.Triple.bind (Q := fun done node => K node ∧ node.sidecar.seedDefsDone = done)
      (.read (fun _ hn => hn.1) ?_) fun done => ?_
    · intro node done hn hread
      cases hread
      exact ⟨hn, rfl⟩
    cases done with
    | true => exact .ret (fun _ hn => hn.1.1) fun _ hn => ⟨hn.1.1, hn.1.2 hn.2⟩
    | false =>
      exact (resolvable_defsPhase db).conseq (fun _ hn => hn.1.1) (fun _ _ hn => ⟨hn.1, fun _ => hn.2⟩)
        fun _ hn => hn
  refine Prog.Triple.bind (Q := fun _ => Resolvable) ?_ fun _ => .put (fun _ hn => hn) ?_
  · unfold SidecarSeed.phaseM
    refine Prog.Triple.bind (Q := fun done node => L node ∧ node.sidecar.seedMergeDone = done)
      (.read (fun _ hn => hn.1) ?_) fun done => ?_
    · intro node done hn hread
      cases hread
      exact ⟨hn, rfl⟩
    cases done with
    | true =>
      exact resolvable_deleteStagingFiles.conseq (fun _ hn => hn.1.1) (fun _ _ hn => hn) fun _ hn => hn
    | false =>
      exact (resolvable_mappingsPhase db).conseq (fun _ hn => ⟨hn.1.1, hn.1.2 hn.2⟩)
        (fun _ _ hn => hn) fun _ hn => hn
  · intro node hn
    have hset : Resolvable (node.setSidecar (node.sidecar.setNextUpdateIndex db.nextIndex)) :=
      hn.grow rfl rfl fun _ hid => hid
    exact ⟨hset, hset⟩

/-! ## The pass -/

/-- The last mutation of a pair, of the hashes written. -/
theorem lastWrite_shaWrites (rows : List WireRow) (shas : List Hash) (k : Hash × Nat) :
    lastWrite (shaWrites rows shas) k =
      if k.1 ∈ shas then lastWrite (rows.map rowWrite) k else none := by
  have hone : ∀ sha, lastWrite ((muts rows sha).map (SidecarDb.pairWrite sha)) k =
      if k.1 = sha then lastWrite (rows.map rowWrite) k else none := by
    intro sha
    have hfilter := filter_shaWrites rows (List.nodup_singleton sha) k
    have hsingle : shaWrites rows [sha] = (muts rows sha).map (SidecarDb.pairWrite sha) := by
      simp [shaWrites]
    rw [hsingle] at hfilter
    rw [← lastWrite_filter, hfilter]
    by_cases hk : k.1 = sha
    · simp [hk, lastWrite_filter]
    · simp [hk]
  induction shas with
  | nil => rfl
  | cons sha shas ih =>
    have hcons : shaWrites rows (sha :: shas) =
        (muts rows sha).map (SidecarDb.pairWrite sha) ++ shaWrites rows shas := rfl
    rw [hcons, lastWrite_append, ih, hone]
    by_cases hsha : k.1 = sha
    · by_cases hk : sha ∈ shas
      · simp [hsha, hk]
      · simp [hsha, hk]
    · simp [hsha]

theorem Resolvable.applyShas {rows : List WireRow} (h : Resolvable node) (shas : List Hash)
    (hrows : ∀ sha id, lastWrite (rows.map rowWrite) (sha, id) = some true →
      node.sidecar.Defines id) :
    Resolvable (node.setSidecar (Bridge.applyShas rows node.sidecar shas)) := by
  obtain ⟨hpacked, hcurrent⟩ := SidecarDb.current_applyShas rows h.packed shas
  have hsame := SidecarDb.sameDefs_applyShas rows node.sidecar shas
  have hdefs : ∀ id, node.sidecar.Defines id →
      (Bridge.applyShas rows node.sidecar shas).Defines id := by
    intro id hid
    rw [SidecarDb.Defines, hsame.defsTags]
    exact hid
  refine ⟨hpacked, h.stagedPacked, ?_, fun row hrow id hid => hdefs id (h.stagedDefined row hrow id hid)⟩
  intro hash id hid
  refine hdefs id ?_
  have hk := congrFun hcurrent (hash, id)
  rw [writeAll_apply, lastWrite_shaWrites] at hk
  have htrue : (Bridge.applyShas rows node.sidecar shas).current (hash, id) = some true := by
    simpa [SidecarDb.current, SidecarNode.setSidecar] using hid
  rw [htrue] at hk
  cases hlast : (if hash ∈ shas then lastWrite (rows.map rowWrite) (hash, id) else none) with
  | some b =>
    rw [hlast] at hk
    cases hk
    split at hlast
    · exact hrows hash id hlast
    · cases hlast
  | none =>
    rw [hlast] at hk
    exact h.defined hash id (by simpa [SidecarDb.current] using hk.symm)

/-- `Resolvable`, with these definitions in. -/
structure ResolvableWith (hashes : Nat → Option Hash) (tags : Nat → Option String)
    (node : SidecarNode) : Prop where
  resolvable : Resolvable node
  hashes : node.sidecar.defsHashes.lookup = hashes
  tags : node.sidecar.defsTags.lookup = tags

variable {hashes : Nat → Option Hash} {tags : Nat → Option String}

theorem ResolvableWith.define (h : ResolvableWith hashes tags node) (decoded : List Update) :
    ResolvableWith (writeAll hashes (hashDefRows decoded)) (writeAll tags (tagDefRows u decoded))
      (node.setSidecar (node.sidecar.define u decoded)) := by
  refine ⟨h.resolvable.grow rfl rfl fun id hid => ?_, ?_, ?_⟩
  · exact hid.insertDefsTags (tagDefRows u decoded)
  · exact (SidecarDb.define_hashes u node.sidecar decoded).trans (by rw [h.hashes])
  · exact (SidecarDb.define_tags u node.sidecar decoded).trans (by rw [h.tags])

theorem ResolvableWith.applyShas {rows : List WireRow} (h : ResolvableWith hashes tags node)
    (shas : List Hash) (hrows : ∀ sha id, lastWrite (rows.map rowWrite) (sha, id) = some true →
      (tags id).isSome = true) :
    ResolvableWith hashes tags (node.setSidecar (Bridge.applyShas rows node.sidecar shas)) := by
  have hsame := SidecarDb.sameDefs_applyShas rows node.sidecar shas
  refine ⟨h.resolvable.applyShas shas fun sha id hlast => ?_, ?_, ?_⟩
  · have hid := hrows sha id hlast
    rw [← h.tags] at hid
    exact hid
  · exact (congrArg (fun t : Table Nat Hash => t.lookup) hsame.defsHashes).trans h.hashes
  · exact (congrArg (fun t : Table Nat String => t.lookup) hsame.defsTags).trans h.tags

theorem ResolvableWith.advance (h : ResolvableWith hashes tags node) (index : Nat) :
    ResolvableWith hashes tags (node.setSidecar (node.sidecar.setNextUpdateIndex index)) :=
  ⟨h.resolvable.grow rfl rfl fun _ hid => hid, h.hashes, h.tags⟩

/-- The relations of an index go to another store. -/
theorem resolvable_applySidecarRelations (relations : Option Signer) (ts : Int)
    (texts : Nat → Option String) (decoded : List Update) :
    Prog.Triple (ResolvableWith hashes tags)
      (applySidecarRelations u ts relations texts decoded)
      (fun _ => ResolvableWith hashes tags) Resolvable := by
  cases relations with
  | none => exact .ret (fun _ hn => hn.resolvable) fun _ hn => hn
  | some bridge =>
    refine .write (fun _ hn => hn.resolvable) fun node node' a hn happly => ?_
    cases hrel : node.repo.applyBridgeRelations ts (buildRelationSubs u bridge texts decoded) with
    | error e => simp [hrel] at happly
    | ok out =>
      simp only [hrel] at happly
      cases happly
      have hsame : Resolvable { node with repo := out.1 } :=
        hn.resolvable.grow rfl rfl fun _ hid => hid
      exact ⟨hsame, hsame, hn.hashes, hn.tags⟩

theorem resolvable_applyIndexBatched {src : UpdateSource} (relations : Option Signer) (ts : Int)
    (batchHashes : Nat) {entry : MetadataEntry} {entries : List MetadataEntry}
    (hadds : AddsDefined u src hashes tags (entry :: entries)) :
    Prog.Triple (ResolvableWith hashes tags)
      (applyIndexBatched u relations ts src batchHashes entry)
      (fun _ node => ∃ hashes' tags', ResolvableWith hashes' tags' node ∧
        AddsDefined u src hashes' tags' entries) Resolvable := by
  unfold applyIndexBatched
  -- the files
  refine Prog.Triple.bind (Q := fun decoded node => ResolvableWith hashes tags node ∧
      entry.updateHashes.mapM src.fetchUpdate = .ok decoded)
    (.read (fun _ hn => hn.resolvable) fun node decoded hn hf => ⟨hn, mapError_eq_ok.1 hf⟩)
    fun decoded => ?_
  by_cases hfetch : entry.updateHashes.mapM src.fetchUpdate = .ok decoded
  rotate_left
  · exact ⟨fun node hn => absurd hn.2 hfetch, fun node _ _ hn => absurd hn.2 hfetch⟩
  -- the definitions
  let R := ResolvableWith (writeAll hashes (hashDefRows decoded))
    (writeAll tags (tagDefRows u decoded))
  have hR : ∀ node, R node → Resolvable node := fun _ hn => hn.resolvable
  refine Prog.Triple.bind (Q := fun _ node => R node ∧ WellFormedDefs decoded)
    (.write (fun _ hn => hn.1.resolvable) fun node node' a hn hwrite => ?_) fun _ => ?_
  · cases hfold : decoded.foldlM (insertSidecarDefs u) node.sidecar with
    | error e => simp [hfold, Except.map] at hwrite
    | ok sc' =>
      simp only [hfold, Except.map, Except.ok.injEq, Prod.mk.injEq] at hwrite
      obtain ⟨rfl, -⟩ := hwrite
      obtain ⟨hwf, rfl⟩ := foldlM_insertSidecarDefs.1 hfold
      have hdefined := hn.1.define decoded (u := u)
      exact ⟨hdefined.resolvable, hdefined, hwf⟩
  by_cases hwf : WellFormedDefs decoded
  rotate_left
  · exact ⟨fun node hn => absurd hn.2 hwf, fun node _ _ hn => absurd hn.2 hwf⟩
  -- the rows
  refine Prog.Triple.bind (Q := fun sc node => R node ∧
      sc.defsHashes.lookup = writeAll hashes (hashDefRows decoded))
    (.read (fun _ hn => hn.1.resolvable) fun node sc hn hread => ?_) fun sc => ?_
  · cases hread
    exact ⟨hn.1, hn.1.hashes⟩
  by_cases hsc : sc.defsHashes.lookup = writeAll hashes (hashDefRows decoded)
  rotate_left
  · exact ⟨fun node hn => absurd hn.2 hsc, fun node _ _ hn => absurd hn.2 hsc⟩
  rw [hsc]
  refine Prog.Triple.bind (Q := fun rows node => R node ∧
      gather (writeAll hashes (hashDefRows decoded)) decoded = .ok rows)
    (.read (fun _ hn => hn.1.resolvable) fun node rows hn hread => ⟨hn.1, hread⟩) fun rows => ?_
  by_cases hrows : gather (writeAll hashes (hashDefRows decoded)) decoded = .ok rows
  rotate_left
  · exact ⟨fun node hn => absurd hn.2 hrows, fun node _ _ hn => absurd hn.2 hrows⟩
  obtain ⟨hdefined, hrest⟩ := hadds decoded hfetch hwf rows hrows
  -- the batches
  let chunks := chunksFrom (max 1 batchHashes) [] (order rows)
  refine Prog.Triple.bind (Q := fun _ => R)
    ((Prog.Triple.forEach (fun _ => R) chunks.dropLast hR fun _ chunk _ _ =>
      .put hR fun node hn => ?_).conseq (fun _ hn => hn.1) (fun _ _ hn => hn) fun _ hn => hn)
    fun _ => ?_
  · have hnext := hn.applyShas chunk hdefined
    exact ⟨hnext.resolvable, hnext⟩
  refine Prog.Triple.bind (resolvable_applySidecarRelations relations ts _ decoded) fun _ => ?_
  refine Prog.Triple.bind (Q := fun _ => R) (.put hR fun node hn => ?_)
    fun _ => .ret hR fun node hn => ⟨_, _, hn, hrest⟩
  have hlast := (hn.applyShas (chunks.getLast?.getD []) hdefined).advance (entry.updateIndex + 1)
  exact ⟨hlast.resolvable, hlast⟩

theorem resolvable_applySidecarEntries {src : UpdateSource} (relations : Option Signer) (ts : Int)
    (batchHashes : Nat) (entries : List MetadataEntry)
    (hadds : AddsDefined u src hashes tags entries) :
    Prog.Triple (ResolvableWith hashes tags)
      (applySidecarEntries u relations ts src batchHashes entries) (fun _ => Resolvable)
      Resolvable := by
  induction entries generalizing hashes tags with
  | nil => exact .ret (fun _ hn => hn.resolvable) fun _ hn => hn.resolvable
  | cons entry entries ih =>
    refine Prog.Triple.bind (resolvable_applyIndexBatched relations ts batchHashes hadds)
      fun applied => ?_
    refine Prog.Triple.bind (Q := fun _ => Resolvable) (.pointwise fun node hn => ?_)
      fun rest => .ret (fun _ hn => hn) fun _ hn => hn
    obtain ⟨hashes', tags', hwith, hrest⟩ := hn
    exact (ih hrest).conseq (fun _ heq => heq ▸ hwith) (fun _ _ hn => hn) fun _ hn => hn

/-- A pass cut anywhere leaves the ids resolvable, if it leaves none on a hash that is not
defined. -/
theorem resolvable_sync (relations : Option Signer) (ts : Int) (src : UpdateSource)
    (batchHashes : Nat) :
    Prog.Triple (fun node => Resolvable node ∧
        SidecarRun.Resolves u node (.sync relations ts src batchHashes))
      (sidecarSyncOnce u relations ts src batchHashes) (fun _ => Resolvable) Resolvable := by
  refine .pointwise fun node₀ hn₀ => ?_
  obtain ⟨hn₀, hadds⟩ := hn₀
  unfold sidecarSyncOnce
  refine Prog.Triple.bind (Q := fun since node => node = node₀ ∧
      since = node₀.sidecar.nextUpdateIndex)
    (.read (fun _ hn => hn ▸ hn₀) fun node since hn hread => ?_) fun since => ?_
  · cases hread
    rw [hn]
    exact ⟨rfl, rfl⟩
  refine Prog.Triple.bind (Q := fun entries node => (node = node₀ ∧
      since = node₀.sidecar.nextUpdateIndex) ∧ src.metadata since = .ok entries)
    (.read (fun _ hn => hn.1 ▸ hn₀) fun node entries hn hread => ⟨hn, mapError_eq_ok.1 hread⟩)
    fun entries => .pointwise fun node hn => ?_
  obtain ⟨⟨rfl, rfl⟩, hmeta⟩ := hn
  exact (resolvable_applySidecarEntries relations ts batchHashes _ (hadds entries hmeta)).conseq
    (fun _ heq => by subst heq; exact ⟨hn₀, rfl, rfl⟩) (fun _ _ hn => hn) fun _ hn => hn

/-! ## Any runs -/

theorem resolvable_step (act : SidecarRun × Nat) (h : Resolvable node)
    (hact : act.1.Resolves u node) : Resolvable (sidecarStep u node act) := by
  obtain ⟨sidecarRun, cut⟩ := act
  have htriple : Prog.Triple (fun node => Resolvable node ∧ sidecarRun.Resolves u node)
      (sidecarRun.program u) (fun _ => Resolvable) Resolvable := by
    cases sidecarRun with
    | sync relations ts src batchHashes =>
      exact (resolvable_sync relations ts src batchHashes).bind fun _ =>
        .ret (fun _ hn => hn) fun _ hn => hn
    | seed db rebuild => exact resolvable_seed db rebuild
  exact htriple.crash node ⟨h, hact⟩ _ (Prog.cutAt_mem_cuts _ cut node)

/-! ## The reads -/

variable {sc : SidecarDb}

theorem resolve_ne_missingTag {ids : List (Hash × Nat)} (h : ∀ p ∈ ids, sc.Defines p.2) (id : Nat) :
    sc.resolve ids ≠ .error (.missingTag id) := by
  induction ids with
  | nil => simp [SidecarDb.resolve]
  | cons p ids ih =>
    obtain ⟨tag, htag⟩ := Option.isSome_iff_exists.1 (h p List.mem_cons_self)
    have hrest := ih fun q hq => h q (List.mem_cons_of_mem _ hq)
    cases hr : sc.resolve ids with
    | error e => simpa [SidecarDb.resolve, htag, hr, Except.map] using hrest
    | ok pairs => simp [SidecarDb.resolve, htag, hr, Except.map]

theorem trueUp_ne_missingTag {ids : List (Hash × Nat)} (h : ∀ p ∈ ids, sc.Defines p.2)
    (budget spent id : Nat) : sc.trueUp budget spent ids ≠ .error (.missingTag id) := by
  induction ids generalizing spent with
  | nil => simp [SidecarDb.trueUp]
  | cons p ids ih =>
    obtain ⟨tag, htag⟩ := Option.isSome_iff_exists.1 (h p List.mem_cons_self)
    have hrest := ih (fun q hq => h q (List.mem_cons_of_mem _ hq)) (spent + pairCost (p.1, tag))
    by_cases hbudget : budget < spent + pairCost (p.1, tag)
    · simp [SidecarDb.trueUp, htag, hbudget]
    · cases hr : sc.trueUp budget (spent + pairCost (p.1, tag)) ids with
      | error e => simpa [SidecarDb.trueUp, htag, hbudget, hr, Except.map] using hrest
      | ok out => simp [SidecarDb.trueUp, htag, hbudget, hr, Except.map]

/-- The ids a row of a band names are those of the row's hash. -/
theorem defines_rowIds (h : ∀ hash id, id ∈ sc.readTagSet hash → sc.Defines id)
    {rows : List (Sigma fun _ : Hash => List Nat)} (hrows : ∀ e ∈ rows, e ∈ sc.bucketMap.entries) :
    ∀ p ∈ SidecarDb.rowIds rows, sc.Defines p.2 := by
  intro p hp
  obtain ⟨e, he, hp⟩ := List.mem_flatMap.1 hp
  obtain ⟨id, hid, rfl⟩ := List.mem_map.1 hp
  have hl : sc.bucketMap.lookup e.1 = some e.2 := Table.mem_entries.1 (hrows e he)
  exact h e.1 id (by simpa [SidecarDb.readTagSet, hl] using hid)

theorem mem_bandRows {lo : Hash} {prefixBits : Nat} {e : Sigma fun _ : Hash => List Nat}
    (he : e ∈ sc.bandRows lo prefixBits) : e ∈ sc.bucketMap.entries :=
  (List.mem_filter.1 (mem_orderBy.1 he)).1

theorem bucket_ne_missingTag (h : ∀ hash id, id ∈ sc.readTagSet hash → sc.Defines id)
    (loHex : String) (prefixBits budget id : Nat) :
    sc.bucket loHex prefixBits budget ≠ .error (.missingTag id) := by
  cases hlo : Hash.parse loHex with
  | none => simp [SidecarDb.bucket, hlo]
  | some lo =>
    have hids : ∀ p ∈ SidecarDb.rowIds (sc.bandRows lo prefixBits), sc.Defines p.2 :=
      defines_rowIds h fun e he => mem_bandRows he
    have htrue := trueUp_ne_missingTag hids budget 0 id
    simp only [SidecarDb.bucket, hlo]
    split
    · simp
    · cases hr : sc.trueUp budget 0 (SidecarDb.rowIds (sc.bandRows lo prefixBits)) with
      | error e =>
        rw [hr] at htrue
        simpa using htrue
      | ok out => simp

theorem digestRow_ne_missingTag (h : ∀ hash id, id ∈ sc.readTagSet hash → sc.Defines id)
    {row : Sigma fun _ : Hash => List Nat} (hrow : row ∈ sc.bucketMap.entries) (id : Nat) :
    sc.digestRow row ≠ .error (.missingTag id) := by
  have hids : ∀ p ∈ SidecarDb.rowIds [row], sc.Defines p.2 :=
    defines_rowIds h (by simpa using hrow)
  have hresolve := resolve_ne_missingTag hids id
  cases hr : sc.resolve (SidecarDb.rowIds [row]) with
  | error e =>
      rw [hr] at hresolve
      simpa [SidecarDb.digestRow, hr] using hresolve
  | ok pairs => simp [SidecarDb.digestRow, hr]

theorem mapM_digestRow_ne_missingTag (h : ∀ hash id, id ∈ sc.readTagSet hash → sc.Defines id)
    {page : List (Sigma fun _ : Hash => List Nat)} (hpage : ∀ e ∈ page, e ∈ sc.bucketMap.entries)
    (id : Nat) : page.mapM sc.digestRow ≠ .error (.missingTag id) := by
  induction page with
  | nil => simp [pure, Except.pure]
  | cons row page ih =>
    have hrow := digestRow_ne_missingTag h (hpage row List.mem_cons_self) id
    have hrest := ih fun e he => hpage e (List.mem_cons_of_mem _ he)
    cases hr : sc.digestRow row with
    | error e =>
      rw [hr] at hrow
      simpa [List.mapM_cons, hr, bind, Except.bind] using hrow
    | ok pairs =>
      cases hp : page.mapM sc.digestRow with
      | error e =>
      rw [hp] at hrest
      simpa [List.mapM_cons, hr, hp, bind, Except.bind] using hrest
      | ok out => simp [List.mapM_cons, hr, hp, bind, Except.bind, pure, Except.pure]

theorem digestPages_ne_missingTag (h : ∀ hash id, id ∈ sc.readTagSet hash → sc.Defines id)
    {pages : List (List (Sigma fun _ : Hash => List Nat))}
    (hpages : ∀ page ∈ pages, ∀ e ∈ page, e ∈ sc.bucketMap.entries) (id : Nat) :
    sc.digestPages pages ≠ .error (.missingTag id) := by
  induction pages with
  | nil => simp [SidecarDb.digestPages]
  | cons page pages ih =>
    have hpage := mapM_digestRow_ne_missingTag h (hpages page List.mem_cons_self) id
    have hrest := ih fun p hp => hpages p (List.mem_cons_of_mem _ hp)
    cases hm : page.mapM sc.digestRow with
    | error e =>
      rw [hm] at hpage
      simpa [SidecarDb.digestPages, hm] using hpage
    | ok pairs =>
      cases hr : sc.digestPages pages with
      | error e =>
      rw [hr] at hrest
      simpa [SidecarDb.digestPages, hm, hr, Except.map] using hrest
      | ok out => simp [SidecarDb.digestPages, hm, hr, Except.map]

theorem auditBandDigest_ne_missingTag (h : ∀ hash id, id ∈ sc.readTagSet hash → sc.Defines id)
    (loHex : String) (prefixBits id : Nat) :
    sc.auditBandDigest loHex prefixBits ≠ .error (.missingTag id) := by
  cases hlo : Hash.parse loHex with
  | none => simp [SidecarDb.auditBandDigest, hlo]
  | some lo =>
    let pages := chunksFrom SidecarDb.auditBatchHashes [] (sc.bandRows lo prefixBits)
    have hpages : ∀ page ∈ pages, ∀ e ∈ page, e ∈ sc.bucketMap.entries := by
      intro page hpage e he
      have hflat : pages.flatten = sc.bandRows lo prefixBits := chunksFrom_flatten _ [] _
      have hmem : e ∈ pages.flatten := List.mem_flatten.2 ⟨page, hpage, he⟩
      rw [hflat] at hmem
      exact mem_bandRows hmem
    have hdigest := digestPages_ne_missingTag h hpages id
    simpa [SidecarDb.auditBandDigest, hlo] using hdigest

end

/-- The ids of the map are defined, and no read of a band fails on one that is not. -/
structure Readable (sc : SidecarDb) : Prop where
  defined : ∀ hash ids, sc.bucketMap.lookup hash = some ids → ∀ id ∈ ids,
    ∃ tag, sc.defsTags.lookup id = some tag
  bucket : ∀ loHex prefixBits budget id,
    sc.bucket loHex prefixBits budget ≠ .error (.missingTag id)
  auditBandDigest : ∀ loHex prefixBits id,
    sc.auditBandDigest loHex prefixBits ≠ .error (.missingTag id)

theorem Resolvable.readable {node : SidecarNode} (h : Resolvable node) : Readable node.sidecar := by
  refine ⟨?_, bucket_ne_missingTag h.defined, auditBandDigest_ne_missingTag h.defined⟩
  intro hash ids hl id hid
  refine Option.isSome_iff_exists.1 (h.defined hash id ?_)
  simpa [SidecarDb.readTagSet, hl] using hid

/-- **`sidecar_resolvable`**: passes and seeds in any order, each cut anywhere, none of which leaves
an undefined id on a hash or stages one, leave a sidecar that can be read. -/
theorem sidecar_resolvable (u : Unicode) (acts : List (SidecarRun × Nat))
    (hacts : AllSteps (sidecarStep u) (fun node act => act.1.Resolves u node) .empty acts) :
    Readable (run (sidecarStep u) .empty acts).sidecar :=
  (hacts.invariant resolvable_empty fun _ act hn hact => resolvable_step act hn hact).readable

/-- One hash that the service calls 1, one tag that it calls 2, and the mapping of the two. -/
def sampleHydrusDb : HydrusDb where
  hashes := .insert 10 (Hash.fill 7).bytes ∅
  tags := .insert 20 ("", "samus") ∅
  hashIdMap := [(1, 10)]
  tagIdMap := [(2, 20)]
  currentMappings := [(10, 20)]
  updates := some [(0, 30)]
  updatesProcessed := [(30, true)]

/-- A seed cut after its definitions and ended by the next. -/
theorem sidecar_resolvable_seed :
    Readable (run (sidecarStep .plainText) .empty
      [(.seed sampleHydrusDb false, 3), (.seed sampleHydrusDb false, 9)]).sidecar := by
  refine sidecar_resolvable .plainText _ ⟨?_, ?_, trivial⟩
  · intro _ hdone
    exact absurd hdone (by decide)
  · intro _ _ _ translate htranslate i _ row hrow id hid
    obtain ⟨_, tagId, _, _, _, hid'⟩ := mem_stagedRows.1 ⟨row.2, hrow, hid⟩
    obtain ⟨tag, htag⟩ := mem_streamPtrTagIdMap htranslate hid'
    have hmap : sampleHydrusDb.streamPtrTagIdMap .plainText = [(2, "samus")] := by decide +kernel
    rw [hmap, List.mem_singleton] at htag
    cases htag
    have hdefined : (((SidecarSeed.seed .plainText sampleHydrusDb false).cutAt 3
        .empty).sidecar.defsTags.lookup 2).isSome = true := by decide +kernel
    exact hdefined

/-- The second tag of the index is no tag, and is dropped; its mapping is not. -/
def sampleUnparsed : UpdateSource where
  metadata := fun _ => .ok [⟨0, ["definitions", "content"]⟩]
  fetchUpdate := fun name =>
    if name = "definitions" then
      .ok (.definitions ⟨[(1, (Hash.fill 7).toHex)], [(2, "character:")]⟩)
    else .ok (.content ⟨[⟨2, [1], .add⟩], [], []⟩)

/-- A pass that ends, and leaves every band with the hash unreadable. -/
theorem sidecar_resolvable_fails :
    ((sidecarSyncOnce .plainText none 0 sampleUnparsed 7) .empty).result.toOption = some 1 ∧
      ¬ Readable (run (sidecarStep .plainText) .empty
        [(.sync none 0 sampleUnparsed 7, 9)]).sidecar := by
  refine ⟨by decide +kernel, fun h => ?_⟩
  exact h.auditBandDigest (Hash.fill 0).toHex 0 2 (by decide +kernel)

end Bridge
end Naiad
