import Naiad.Bridge.SidecarResolve
import Naiad.Bridge.SidecarSnapshot

/-!
# Naiad.Bridge.SidecarCompose

Seeds of one sidecar, plain or as rebuilds, from snapshots older and newer, mixed with passes over
an upstream that publishes more and more of its history, all cut anywhere.

* `SidecarSystem.step`: the runs, and the index as of which each leaves the map.
* `SidecarSystem.Composes`: when a run leaves it so.
* `seed_sync_compose`: **a seed that returns and a pass that returns leave in the map what the
  updates below the cursor write**.
-/

namespace Naiad
namespace Bridge

open Lib Netproto Server

/-! ## The seed -/

/-- What every run leaves in order. -/
structure Tidy (h : History) (k : Nat) (node : SidecarNode) : Prop where
  packed : node.sidecar.Packed
  idband : node.sidecar.seedIdbandDone = []
  cursor : node.sidecar.nextUpdateIndex ≤ h.cursorAt k

namespace SidecarSeed

variable {u : Unicode} {h : History} {k b : Nat} {db : HydrusDb}

/-- The definitions are all that phase D writes. -/
theorem triple_phaseD {F : SidecarNode → Prop} (db : HydrusDb)
    (hF : ∀ node hashes tags done, F node → F (node.setSidecar { node.sidecar with
      defsHashes := hashes, defsTags := tags, seedDefsDone := done })) :
    Prog.Triple F (phaseD u db) (fun _ => F) F := by
  have hwrite : ∀ f : SidecarDb → SidecarDb, (∀ node, F node → F (node.setSidecar (f node.sidecar))) →
      Prog.Triple F (onSidecar f) (fun _ => F) F :=
    fun f hf => .put (fun _ hn => hn) fun node hn => ⟨hf node hn, hf node hn⟩
  unfold phaseD
  refine Prog.Triple.bind (Q := fun _ => F) (.read (fun _ hn => hn) fun _ _ hn _ => hn)
    fun done => ?_
  cases done with
  | true => exact .ret (fun _ hn => hn) fun _ hn => hn
  | false =>
    refine Prog.Triple.bind (Q := fun _ => F) (.forEach (fun _ => F) _ (fun _ hn => hn)
      fun _ chunk _ _ => hwrite _ fun node hn => ?_) fun _ => ?_
    · exact hF node _ node.sidecar.defsTags node.sidecar.seedDefsDone hn
    refine Prog.Triple.bind (Q := fun _ => F) (.forEach (fun _ => F) _ (fun _ hn => hn)
      fun _ chunk _ _ => hwrite _ fun node hn => ?_) fun _ => hwrite _ fun node hn => ?_
    · exact hF node node.sidecar.defsHashes _ node.sidecar.seedDefsDone hn
    · exact hF node node.sidecar.defsHashes node.sidecar.defsTags true hn

/-- Over a finished seed only the cursor moves. -/
theorem triple_load_done (hnext : db.nextIndex ≤ h.cursorAt k) :
    Prog.Triple
      (fun node => Tidy h k node ∧ node.sidecar.seedMergeDone = true ∧ MapAt h k b node.sidecar)
      (load u db)
      (fun _ node => node.sidecar.nextUpdateIndex = db.nextIndex)
      (fun node => Tidy h k node ∧ MapAt h k b node.sidecar) := by
  let F (node : SidecarNode) : Prop :=
    Tidy h k node ∧ node.sidecar.seedMergeDone = true ∧ MapAt h k b node.sidecar
  have hC : ∀ node, F node → Tidy h k node ∧ MapAt h k b node.sidecar := fun _ hn => ⟨hn.1, hn.2.2⟩
  unfold load
  refine Prog.Triple.bind (Q := fun _ => F) ((triple_phaseD db fun node _ _ _ hn =>
    ⟨⟨hn.1.packed, hn.1.idband, hn.1.cursor⟩, hn.2⟩).conseq (fun _ hn => hn) (fun _ _ hn => hn) hC)
    fun _ => ?_
  refine Prog.Triple.bind (Q := fun _ => F) ?_ fun _ => .put hC fun node hn => ?_
  · unfold phaseM
    refine Prog.Triple.bind (Q := fun done node => F node ∧ node.sidecar.seedMergeDone = done)
      (.read hC fun node done hn hread => ?_) fun done => ?_
    · cases hread
      exact ⟨hn, rfl⟩
    cases done with
    | true =>
      refine .put (fun _ hn => hC _ hn.1) fun node hn => ?_
      have hdeleted : F { node with staging := none } :=
        ⟨⟨hn.1.1.packed, hn.1.1.idband, hn.1.1.cursor⟩, hn.1.2⟩
      exact ⟨hC _ hdeleted, hdeleted⟩
    | false =>
      refine ⟨fun node hn => ?_, fun node _ _ hn => ?_⟩
      · exact absurd (hn.1.2.1.symm.trans hn.2) (by simp)
      · exact absurd (hn.1.2.1.symm.trans hn.2) (by simp)
  · exact ⟨⟨⟨hn.1.packed, hn.1.idband, hnext⟩, hn.2.2⟩, rfl⟩

/-- Before the merge: the staged rows are the snapshot's. -/
structure Unmerged (u : Unicode) (h : History) (k : Nat) (db : HydrusDb) (node : SidecarNode) :
    Prop where
  tidy : Tidy h k node
  notDone : node.sidecar.seedMergeDone = false
  staged : StagedFrom u db node.staged
  stale : LeavesNoStale h k db node.sidecar

/-- The mark of the merge stands for a map that is right as of the snapshot. -/
def Marked (h : History) (k : Nat) (db : HydrusDb) (node : SidecarNode) : Prop :=
  Tidy h k node ∧ (node.sidecar.seedMergeDone = true → MapAt h k db.nextIndex node.sidecar)

theorem Unmerged.marked {node : SidecarNode} (hn : Unmerged u h k db node) : Marked h k db node := by
  refine ⟨hn.tidy, fun hdone => ?_⟩
  rw [hn.notDone] at hdone
  cases hdone

theorem triple_stageBand {translate : Nat → Option Nat} (i : Nat) (done : List Nat)
    (htranslate : translation u db = .ok translate) :
    Prog.Triple (fun node => Unmerged u h k db node ∧ ∀ j ∈ done, j ∈ node.staged.bandDone)
      (stageBand db translate i)
      (fun _ node => Unmerged u h k db node ∧ ∀ j ∈ done ++ [i], j ∈ node.staged.bandDone)
      (Marked h k db) := by
  unfold stageBand
  refine Prog.Triple.bind (Q := fun skipped node => (Unmerged u h k db node ∧
      ∀ j ∈ done, j ∈ node.staged.bandDone) ∧ node.bandSkipped i = skipped)
    (.read (fun _ hn => hn.1.marked) fun node skipped hn hread => ?_) fun skipped => ?_
  · cases hread
    exact ⟨hn, rfl⟩
  cases skipped with
  | true =>
    refine .ret (fun _ hn => hn.1.1.marked) fun node hn => ⟨hn.1.1, fun j hj => ?_⟩
    rcases List.mem_append.1 hj with hj | hj
    · exact hn.1.2 j hj
    · obtain rfl : j = i := by simpa using hj
      have hskipped := hn.2
      simpa [SidecarNode.bandSkipped, hn.1.1.tidy.idband] using hskipped
  | false =>
    refine .put (fun _ hn => hn.1.1.marked) fun node hn => ?_
    have hstaged : Unmerged u h k db
        { node with staging := some (node.staged.stage i (stagedRows db translate i)) } := by
      obtain ⟨⟨hpacked, hidband, hcursor⟩, hnot, hrows, hstale⟩ := hn.1.1
      refine ⟨⟨hpacked, hidband, hcursor⟩, hnot, ?_, hstale⟩
      intro translate' htranslate'
      obtain rfl : translate = translate' := by
        rw [htranslate] at htranslate'
        exact Except.ok.inj htranslate'
      have hcat : node.staged.buckets ++ stagedRows db translate i =
          (node.staged.bandDone ++ [i]).flatMap (stagedRows db translate) := by
        rw [hrows translate htranslate]
        simp
      exact hcat
    refine ⟨hstaged.marked, hstaged, fun j hj => ?_⟩
    rcases List.mem_append.1 hj with hj | hj
    · exact List.mem_append_left _ (hn.1.2 j hj)
    · exact List.mem_append_right _ hj

/-- Every band staged, the merge leaves the map right as of the snapshot. -/
theorem triple_mergeStaging {translate : Nat → Option Nat} (hs : SnapshotOf h k db)
    (ht : Translates u h k db) (htranslate : translation u db = .ok translate) :
    Prog.Triple (fun node => Unmerged u h k db node ∧
        ∀ m ∈ db.currentMappings, m.1 / idBand ∈ node.staged.bandDone)
      mergeStaging (fun _ node => Tidy h k node ∧ MapAt h k db.nextIndex node.sidecar)
      (Marked h k db) := by
  let G (node : SidecarNode) : Prop := Tidy h k node ∧ MapAt h k db.nextIndex node.sidecar
  have hG : ∀ node, G node → Marked h k db node := fun _ hn => ⟨hn.1, fun _ => hn.2⟩
  unfold mergeStaging
  refine Prog.Triple.bind (Q := fun _ => G) (.put (fun _ hn => hn.1.marked) fun node hn => ?_)
    fun _ => ?_
  · obtain ⟨⟨⟨hpacked, hidband, hcursor⟩, _, hrows, hstale⟩, hbands⟩ := hn
    obtain ⟨hpacked', hmap⟩ := mapAt_merge hs ht htranslate hpacked hbands hstale
    rw [← hrows translate htranslate] at hpacked' hmap
    have hmerged : G (node.setSidecar (node.sidecar.mergeBuckets node.staged.buckets)) :=
      ⟨⟨hpacked', hidband, hcursor⟩, hmap⟩
    exact ⟨hG _ hmerged, hmerged⟩
  refine Prog.Triple.bind (Q := fun _ => G) (.put hG fun node hn => ?_)
    fun _ => .put hG fun node hn => ?_
  · have hmarked : G (node.setSidecar { node.sidecar with seedMergeDone := true }) :=
      ⟨⟨hn.1.packed, hn.1.idband, hn.1.cursor⟩, hn.2⟩
    exact ⟨hG _ hmarked, hmarked⟩
  · have hdeleted : G { node with staging := none } :=
      ⟨⟨hn.1.packed, hn.1.idband, hn.1.cursor⟩, hn.2⟩
    exact ⟨hG _ hdeleted, hdeleted⟩

theorem triple_mappingsPhase (hs : SnapshotOf h k db) (ht : Translates u h k db) :
    Prog.Triple (Unmerged u h k db) (mappingsPhase u db)
      (fun _ node => Tidy h k node ∧ MapAt h k db.nextIndex node.sidecar) (Marked h k db) := by
  unfold mappingsPhase
  cases hmax : db.maxCurrentHashId with
  | none =>
    have hnone : db.currentMappings = [] := by
      simpa [HydrusDb.maxCurrentHashId] using hmax
    exact .ret (fun _ hn => hn.marked) fun _ hn => ⟨hn.tidy, mapAt_none hs ht hnone hn.stale⟩
  | some maxHashId =>
    have hband : ∀ m ∈ db.currentMappings, m.1 / idBand ∈ List.range (maxHashId / idBand + 1) := by
      intro m hm
      have hle : m.1 ≤ maxHashId :=
        (List.max?_eq_some_iff.1 hmax).2 m.1 (List.mem_map_of_mem hm)
      have := Nat.div_le_div_right (c := idBand) hle
      simp
      omega
    refine Prog.Triple.bind (Q := fun translate node => Unmerged u h k db node ∧
        translation u db = .ok translate)
      (.read (fun _ hn => hn.marked) fun node translate hn hread => ⟨hn, hread⟩) fun translate => ?_
    by_cases htranslate : translation u db = .ok translate
    rotate_left
    · exact ⟨fun node hn => absurd hn.2 htranslate, fun node _ _ hn => absurd hn.2 htranslate⟩
    refine Prog.Triple.bind (Q := fun _ => Unmerged u h k db)
      (.put (fun _ hn => hn.1.marked) fun node hn => ?_) fun _ => ?_
    · have hopened : Unmerged u h k db { node with staging := some node.staged } :=
        ⟨⟨hn.1.tidy.packed, hn.1.tidy.idband, hn.1.tidy.cursor⟩, hn.1.notDone, hn.1.staged,
          hn.1.stale⟩
      exact ⟨hopened.marked, hopened⟩
    let inv (done : List Nat) (node : SidecarNode) : Prop :=
      Unmerged u h k db node ∧ ∀ j ∈ done, j ∈ node.staged.bandDone
    refine Prog.Triple.bind (Q := fun _ => inv (List.range (maxHashId / idBand + 1)))
      ((Prog.Triple.forEach inv (List.range (maxHashId / idBand + 1)) (fun _ hn => hn.1.marked)
        fun done i _ _ => triple_stageBand i done htranslate).conseq (fun _ hn => ⟨hn, by simp⟩)
        (fun _ _ hn => hn) fun _ hn => hn) fun _ => ?_
    exact (triple_mergeStaging hs ht htranslate).conseq
      (fun _ hn => ⟨hn.1, fun m hm => hn.2 _ (hband m hm)⟩) (fun _ _ hn => hn) fun _ hn => hn

/-- **`triple_load`**: a load that merges leaves the map right as of its snapshot, and the cursor
there. -/
theorem triple_load (hs : SnapshotOf h k db) (ht : Translates u h k db) :
    Prog.Triple (Unmerged u h k db) (load u db)
      (fun _ node => node.sidecar.nextUpdateIndex = db.nextIndex ∧
        MapAt h k db.nextIndex node.sidecar) (Marked h k db) := by
  unfold load
  refine Prog.Triple.bind (Q := fun _ => Unmerged u h k db)
    ((triple_phaseD db fun node _ _ _ hn => ⟨⟨hn.tidy.packed, hn.tidy.idband, hn.tidy.cursor⟩,
      hn.notDone, hn.staged, hn.stale⟩).conseq (fun _ hn => hn) (fun _ _ hn => hn)
      fun _ hn => hn.marked) fun _ => ?_
  refine Prog.Triple.bind
    (Q := fun _ node => Tidy h k node ∧ MapAt h k db.nextIndex node.sidecar) ?_
    fun _ => .put (fun _ hn => ⟨hn.1, fun _ => hn.2⟩) fun node hn => ?_
  · unfold phaseM
    refine Prog.Triple.bind (Q := fun done node => Unmerged u h k db node ∧ done = false)
      (.read (fun _ hn => hn.marked) fun node done hn hread => ?_) fun done => ?_
    · cases hread
      exact ⟨hn, hn.notDone⟩
    cases done with
    | true => exact ⟨fun node hn => absurd hn.2 (by simp), fun node _ _ hn => absurd hn.2 (by simp)⟩
    | false =>
      exact (triple_mappingsPhase hs ht).conseq (fun _ hn => hn.1) (fun _ _ hn => hn) fun _ hn => hn
  · have htidy : Tidy h k (node.setSidecar (node.sidecar.setNextUpdateIndex db.nextIndex)) :=
      ⟨hn.1.packed, hn.1.idband, hs.nextIndex_le⟩
    exact ⟨⟨htidy, fun _ => hn.2⟩, rfl, hn.2⟩

/-! ## A rebuild -/

theorem seed_rebuild (u : Unicode) (db : HydrusDb) : seed u db true =
    (Prog.put fun node => node.setSidecar node.sidecar.clearBucketMap) >>= fun _ =>
      (Prog.put fun node => node.setSidecar node.sidecar.clearSeedMarkers) >>= fun _ =>
        deleteStagingFiles >>= fun _ => load u db := by
  have hseed : seed u db true = clearSeed >>= fun _ => load u db := rfl
  rw [hseed, clearSeed, Prog.bind_assoc]
  rfl

/-- A rebuild behind its two deletes. -/
def cleared (node : SidecarNode) : SidecarNode :=
  node.setSidecar node.sidecar.clearBucketMap.clearSeedMarkers

theorem cutAt_seed_rebuild (u : Unicode) (db : HydrusDb) (n : Nat) (node : SidecarNode) :
    (seed u db true).cutAt (n + 2) node =
      (deleteStagingFiles >>= fun _ => load u db).cutAt n (cleared node) := by
  rw [seed_rebuild, Prog.cutAt_put_bind, Prog.cutAt_put_bind]
  rfl

theorem cutAt_seed_rebuild_one (u : Unicode) (db : HydrusDb) (node : SidecarNode) :
    (seed u db true).cutAt 1 node = node.setSidecar node.sidecar.clearBucketMap := by
  rw [seed_rebuild, Prog.cutAt_put_bind, Prog.cutAt_zero]

theorem returns_rebuild {node node' : SidecarNode} {a : Unit}
    (hret : (seed u db true).Returns node a node') :
    (deleteStagingFiles >>= fun _ => load u db).Returns (cleared node) a node' := by
  rw [seed_rebuild] at hret
  obtain ⟨_, _, hfirst, hret⟩ := Prog.bind_returns.1 hret
  obtain ⟨_, _, hsecond, hret⟩ := Prog.bind_returns.1 hret
  obtain ⟨_, rfl⟩ := hfirst
  obtain ⟨_, rfl⟩ := hsecond
  exact hret

theorem seed_plain (u : Unicode) (db : HydrusDb) : seed u db false = load u db := rfl

theorem Tidy.cleared {node : SidecarNode} (hn : Tidy h k node) : Tidy h k (cleared node) := by
  refine ⟨?_, rfl, hn.cursor⟩
  intro sha ids hl
  cases hl

/-- What a rebuild does behind its two deletes. -/
theorem triple_rebuild (hs : SnapshotOf h k db) (ht : Translates u h k db) (node : SidecarNode)
    (hn : Tidy h k node) :
    Prog.Triple (fun node' => node' = SidecarSeed.cleared node)
      (deleteStagingFiles >>= fun _ => load u db)
      (fun _ node => node.sidecar.nextUpdateIndex = db.nextIndex ∧
        MapAt h k db.nextIndex node.sidecar) (Marked h k db) := by
  have hmarked : Marked h k db (SidecarSeed.cleared node) := by
    refine ⟨Tidy.cleared hn, fun hdone => ?_⟩
    cases hdone
  refine Prog.Triple.bind (Q := fun _ => Unmerged u h k db)
    (.put (fun _ heq => heq ▸ hmarked) fun node' heq => ?_) fun _ => triple_load hs ht
  subst heq
  have hunmerged : Unmerged u h k db { SidecarSeed.cleared node with staging := none } := by
    obtain ⟨hpacked, hidband, hcursor⟩ := Tidy.cleared hn
    refine ⟨⟨hpacked, hidband, hcursor⟩, rfl, ?_, ?_⟩
    · intro translate _
      rfl
    · intro sha _ id hid
      simp [SidecarSeed.cleared, SidecarNode.setSidecar, SidecarDb.clearBucketMap,
        SidecarDb.clearSeedMarkers, SidecarDb.readTagSet] at hid
  exact ⟨hunmerged.marked, hunmerged⟩

end SidecarSeed

/-! ## The pass -/

/-- A pass sets no mark of a seed. -/
theorem idband_sidecarSyncOnce (u : Unicode) (relations : Option Signer) (ts : Int)
    (src : UpdateSource) (batchHashes : Nat) :
    Prog.Triple (fun node => node.sidecar.seedIdbandDone = [])
      (sidecarSyncOnce u relations ts src batchHashes)
      (fun _ node => node.sidecar.seedIdbandDone = [])
      (fun node => node.sidecar.seedIdbandDone = []) := by
  let F (node : SidecarNode) : Prop := node.sidecar.seedIdbandDone = []
  have hread : ∀ {A : Type} (f : SidecarNode → Except SidecarError A),
      Prog.Triple F (Prog.read f) (fun _ => F) F :=
    fun f => .read (fun _ hn => hn) fun _ _ hn _ => hn
  have hput : ∀ f : SidecarDb → SidecarDb, (∀ sc, (f sc).seedIdbandDone = sc.seedIdbandDone) →
      Prog.Triple F (onSidecar f) (fun _ => F) F := by
    intro f hf
    refine .put (fun _ hn => hn) fun node hn => ?_
    have hnext : F (node.setSidecar (f node.sidecar)) := (hf node.sidecar).trans hn
    exact ⟨hnext, hnext⟩
  have hindex : ∀ entry, Prog.Triple F (applyIndexBatched u relations ts src batchHashes entry)
      (fun _ => F) F := by
    intro entry
    unfold applyIndexBatched
    refine (hread _).bind fun decoded => ?_
    refine Prog.Triple.bind (Q := fun _ => F) (.write (fun _ hn => hn)
      fun node node' a hn hwrite => ?_) fun _ => ?_
    · cases hfold : decoded.foldlM (insertSidecarDefs u) node.sidecar with
      | error e => simp [hfold, Except.map] at hwrite
      | ok sc' =>
        simp only [hfold, Except.map, Except.ok.injEq, Prod.mk.injEq] at hwrite
        obtain ⟨rfl, -⟩ := hwrite
        obtain ⟨_, rfl⟩ := foldlM_insertSidecarDefs.1 hfold
        exact ⟨hn, hn⟩
    refine (hread _).bind fun sc => (hread _).bind fun rows => ?_
    have hshas : ∀ shas sc, (applyShas rows sc shas).seedIdbandDone = sc.seedIdbandDone :=
      fun shas sc => (SidecarDb.sameDefs_applyShas rows sc shas).seedIdbandDone
    refine Prog.Triple.bind (Q := fun _ => F) (.forEach (fun _ => F) _ (fun _ hn => hn)
      fun _ chunk _ _ => hput _ (hshas chunk)) fun _ => ?_
    refine Prog.Triple.bind (Q := fun _ => F) ?_ fun _ => ?_
    · cases relations with
      | none => exact .ret (fun _ hn => hn) fun _ hn => hn
      | some bridge =>
        refine .write (fun _ hn => hn) fun node node' a hn happly => ?_
        cases hrel : node.repo.applyBridgeRelations ts
            (buildRelationSubs u bridge sc.defsTags.lookup decoded) with
        | error e => simp [hrel] at happly
        | ok out =>
          simp only [hrel] at happly
          cases happly
          exact ⟨hn, hn⟩
    · exact Prog.Triple.bind (Q := fun _ => F) (hput _ fun sc => hshas _ sc)
        fun _ => .ret (fun _ hn => hn) fun _ hn => hn
  have hentries : ∀ entries, Prog.Triple F
      (applySidecarEntries u relations ts src batchHashes entries) (fun _ => F) F := by
    intro entries
    induction entries with
    | nil => exact .ret (fun _ hn => hn) fun _ hn => hn
    | cons entry entries ih =>
      exact (hindex entry).bind fun _ => ih.bind fun _ => .ret (fun _ hn => hn) fun _ hn => hn
  exact (hread _).bind fun since => (hread _).bind fun entries => hentries _

/-! ## The system -/

/-- The files, how many updates are published, whether the last seed run returned, and the index as
of which the map is whole, where it is. -/
structure SidecarSystem where
  node : SidecarNode
  published : Nat
  seeded : Bool
  base : Option Nat

inductive SidecarAct
  | publish (more : Nat)
  | run (sidecarRun : SidecarRun) (cut : Nat)

/-- Over a finished seed a plain run only moves the cursor: its snapshot may not be ahead of the
map. A run that merges needs a snapshot whose tags translate; a plain one goes on with what is
staged and leaves what it does not replace. -/
structure SeedComposes (u : Unicode) (h : History) (s : SidecarSystem) (db : HydrusDb)
    (rebuild : Bool) : Prop where
  translates : rebuild = true ∨ s.node.sidecar.seedMergeDone = false →
    Translates u h s.published db
  notAhead : rebuild = false → s.node.sidecar.seedMergeDone = true →
    ∃ b, s.base = some b ∧ db.nextIndex ≤ b
  staged : rebuild = false → s.node.sidecar.seedMergeDone = false → StagedFrom u db s.node.staged
  stale : rebuild = false → s.node.sidecar.seedMergeDone = false →
    LeavesNoStale h s.published db s.node.sidecar

namespace SidecarSystem

def empty : SidecarSystem := ⟨.empty, 0, false, some 0⟩

/-- Where a seed is cut: before its first write, or over a finished one, the map stands as it did,
and behind the merge as of the snapshot. A rebuild cut between its two deletes leaves the mark of
the merge behind. -/
def baseCut (s : SidecarSystem) (db : HydrusDb) (rebuild : Bool) (cut : Nat) (node : SidecarNode) :
    Option Nat :=
  if cut = 0 ∨ (rebuild = false ∧ s.node.sidecar.seedMergeDone = true) then s.base
  else if rebuild = true ∧ cut = 1 then none
  else if node.sidecar.seedMergeDone = true then some db.nextIndex
  else none

def step (u : Unicode) (s : SidecarSystem) : SidecarAct → SidecarSystem
  | .publish more => { s with published := s.published + more }
  | .run (.sync relations ts src batchHashes) cut =>
    let node := (sidecarSyncOnce u relations ts src batchHashes).cutAt cut s.node
    { s with
      node := node
      base := s.base.map fun b =>
        if s.node.sidecar.nextUpdateIndex ≤ b then node.sidecar.nextUpdateIndex else b }
  | .run (.seed db rebuild) cut =>
    let node := (SidecarSeed.seed u db rebuild).cutAt cut s.node
    let ended := (SidecarSeed.seed u db rebuild).endsBy cut s.node
    { s with
      node := node
      seeded := ended
      base := if ended then some db.nextIndex else s.baseCut db rebuild cut node }

/-- What an upstream of this history and clients of it can present. -/
def Possible (h : History) (s : SidecarSystem) : SidecarAct → Prop
  | .publish _ => True
  | .run (.sync _ _ src _) _ => Serves h s.published src
  | .run (.seed db _) _ => SnapshotOf h s.published db

/-- A pass resolves the hash ids of the updates it applies as the history does. -/
def Composes (u : Unicode) (h : History) (s : SidecarSystem) : SidecarAct → Prop
  | .publish _ => True
  | .run (.sync _ _ _ _) _ => h.ResolvesAlike s.node.sidecar.defsHashes.lookup
      (h.hashesBelow s.node.sidecar.nextUpdateIndex)
      (h.published s.node.sidecar.nextUpdateIndex s.published)
  | .run (.seed db rebuild) _ => SeedComposes u h s db rebuild

/-- If the last seed run returned, a pass that returns leaves the map and the cursor that every
update below the cursor leaves. -/
def Composed (u : Unicode) (h : History) (s : SidecarSystem) : Prop :=
  s.seeded = true → ∀ relations ts src batchHashes cut applied node' sc,
    Possible h s (.run (.sync relations ts src batchHashes) cut) →
    Composes u h s (.run (.sync relations ts src batchHashes) cut) →
    (sidecarSyncOnce u relations ts src batchHashes).Returns s.node applied node' →
    SidecarDb.empty.applyAll u h (h.below node'.sidecar.nextUpdateIndex) = .ok sc →
    ∀ hash, node'.sidecar.bucketMap.lookup hash = sc.bucketMap.lookup hash

structure Inv (h : History) (s : SidecarSystem) : Prop where
  tidy : Tidy h s.published s.node
  base : ∀ b, s.base = some b → b ≤ h.cursorAt s.published ∧ MapAt h s.published b s.node.sidecar
  seeded : s.seeded = true → s.base = some s.node.sidecar.nextUpdateIndex

section

variable {u : Unicode} {h : History} {s : SidecarSystem}

theorem inv_empty (h : History) : Inv h empty := by
  refine ⟨⟨SidecarDb.packed_empty, rfl, Nat.zero_le _⟩, ?_, ?_⟩
  · intro b hb
    cases hb
    refine ⟨Nat.zero_le _, fun pair _ => ?_⟩
    have hbelow : h.below 0 = [] := by simp [History.below]
    rw [History.contents, History.writesBelow, hbelow]
    rfl
  · intro hseeded
    cases hseeded

theorem Inv.publish (hs : Inv h s) (more : Nat) : Inv h (step u s (.publish more)) := by
  have hle : s.published ≤ s.published + more := Nat.le_add_right _ _
  have hmono := History.cursorAt_mono (h := h) hle
  refine ⟨⟨hs.tidy.packed, hs.tidy.idband, hs.tidy.cursor.trans hmono⟩, ?_, hs.seeded⟩
  intro b hb
  obtain ⟨hbound, hmap⟩ := hs.base b hb
  exact ⟨hbound.trans hmono, hmap.publish hle⟩

/-- Where a pass begins. -/
theorem Inv.progress (hs : Inv h s) : SidecarNode.Progress u h s.node.sidecar
    s.node.sidecar.nextUpdateIndex [] (h.published s.node.sidecar.nextUpdateIndex s.published)
    s.node :=
  ⟨hs.tidy.packed, rfl, s.node.sidecar, rfl, hs.tidy.packed, .of_alike (.refl _) _⟩

/-- Any base is moved by a pass as `MapAt.sync` says. -/
theorem Inv.sync (hs : Inv h s) {relations : Option Signer} {ts : Int} {src : UpdateSource}
    {batchHashes cut : Nat} (hsrc : Serves h s.published src)
    (halike : h.ResolvesAlike s.node.sidecar.defsHashes.lookup
      (h.hashesBelow s.node.sidecar.nextUpdateIndex)
      (h.published s.node.sidecar.nextUpdateIndex s.published)) :
    Inv h (step u s (.run (.sync relations ts src batchHashes) cut)) := by
  have hcut := Prog.cutAt_mem_cuts (sidecarSyncOnce u relations ts src batchHashes) cut s.node
  obtain ⟨done, todo, hpub, hp⟩ := (SidecarNode.triple_sidecarSyncOnce relations ts batchHashes hsrc
    (List.nil_append _).symm).crash s.node hs.progress _ hcut
  rw [List.nil_append] at hpub
  obtain ⟨_, hmax, _, _⟩ := between_of_progress hpub.symm hs.tidy.cursor
  rw [← hp.cursor] at hmax
  have hidband := (idband_sidecarSyncOnce u relations ts src batchHashes).crash s.node
    hs.tidy.idband _ hcut
  have hbase : ∀ b, s.base = some b →
      MapAt h s.published (if s.node.sidecar.nextUpdateIndex ≤ b then
        ((sidecarSyncOnce u relations ts src batchHashes).cutAt cut s.node).sidecar.nextUpdateIndex
        else b) ((sidecarSyncOnce u relations ts src batchHashes).cutAt cut s.node).sidecar := by
    intro b hb
    rw [hp.cursor]
    exact (hs.base b hb).2.sync hs.tidy.packed hpub.symm hs.tidy.cursor (hs.base b hb).1 halike hp
  refine ⟨⟨hp.packed, hidband, hmax⟩, ?_, ?_⟩
  · intro b' hb'
    obtain ⟨b, hb, rfl⟩ := Option.map_eq_some_iff.1 hb'
    refine ⟨?_, hbase b hb⟩
    split
    · exact hmax
    · exact (hs.base b hb).1
  · intro hseeded
    have hb := hs.seeded hseeded
    simp [step, hb]

/-- What an action has to leave for the invariant to hold of it. -/
theorem inv_step_seed {db : HydrusDb} {rebuild : Bool} {cut : Nat}
    (htidy : Tidy h s.published ((SidecarSeed.seed u db rebuild).cutAt cut s.node))
    (hended : ∀ node', (SidecarSeed.seed u db rebuild).Returns s.node () node' →
      node'.sidecar.nextUpdateIndex = db.nextIndex ∧
        MapAt h s.published db.nextIndex node'.sidecar)
    (hnext : db.nextIndex ≤ h.cursorAt s.published)
    (hbase : ∀ b, s.baseCut db rebuild cut ((SidecarSeed.seed u db rebuild).cutAt cut s.node) =
      some b → b ≤ h.cursorAt s.published ∧
        MapAt h s.published b ((SidecarSeed.seed u db rebuild).cutAt cut s.node).sidecar) :
    Inv h (step u s (.run (.seed db rebuild) cut)) := by
  cases hends : (SidecarSeed.seed u db rebuild).endsBy cut s.node with
  | true =>
    obtain ⟨_, hret⟩ := Prog.returns_of_endsBy hends
    obtain ⟨hcursor, hmap⟩ := hended _ hret
    refine ⟨htidy, ?_, ?_⟩
    · intro b hb
      simp only [step, hends, if_true, Option.some.injEq] at hb
      subst hb
      exact ⟨hnext, hmap⟩
    · intro _
      simp [step, hends, hcursor]
  | false =>
    refine ⟨htidy, ?_, ?_⟩
    · intro b hb
      simp only [step, hends, Bool.false_eq_true, if_false] at hb
      exact hbase b hb
    · intro hseeded
      simp [step, hends] at hseeded

theorem Inv.seed_plain (hs : Inv h s) {db : HydrusDb} {cut : Nat}
    (hsnap : SnapshotOf h s.published db) (hcomp : SeedComposes u h s db false) :
    Inv h (step u s (.run (.seed db false) cut)) := by
  have hcut := Prog.cutAt_mem_cuts (SidecarSeed.load u db) cut s.node
  cases hdone : s.node.sidecar.seedMergeDone with
  | true =>
    obtain ⟨b, hb, hle⟩ := hcomp.notAhead rfl hdone
    obtain ⟨hbound, hmap⟩ := hs.base b hb
    have htriple := SidecarSeed.triple_load_done (b := b) (u := u) hsnap.nextIndex_le
    obtain ⟨htidy, hmap'⟩ := htriple.crash s.node ⟨hs.tidy, hdone, hmap⟩ _ hcut
    refine inv_step_seed htidy ?_ hsnap.nextIndex_le ?_
    · intro node' hret
      have hmem : node' ∈ (SidecarSeed.load u db).cuts s.node := by
        rw [← hret.2]
        exact Prog.final_mem_cuts _ _
      exact ⟨htriple.post s.node _ node' ⟨hs.tidy, hdone, hmap⟩ hret,
        (htriple.crash s.node ⟨hs.tidy, hdone, hmap⟩ node' hmem).2.earlier hle hbound⟩
    · intro b' hb'
      have hsame : s.base = some b' := by
        simpa [baseCut, hdone] using hb'
      rw [hb] at hsame
      cases hsame
      exact ⟨hbound, hmap'⟩
  | false =>
    have hunmerged : SidecarSeed.Unmerged u h s.published db s.node :=
      ⟨hs.tidy, hdone, hcomp.staged rfl hdone, hcomp.stale rfl hdone⟩
    have htriple := SidecarSeed.triple_load hsnap (hcomp.translates (.inr hdone))
    obtain ⟨htidy, hmarked⟩ := htriple.crash s.node hunmerged _ hcut
    refine inv_step_seed htidy (fun node' hret => htriple.post s.node _ node' hunmerged hret)
      hsnap.nextIndex_le ?_
    intro b hb
    cases cut with
    | zero => exact hs.base b (by simpa [baseCut] using hb)
    | succ n =>
      simp only [baseCut, hdone] at hb
      simp only [Nat.add_eq_zero_iff, Nat.succ_ne_self, and_false, Bool.false_eq_true, or_self,
        if_false, false_and] at hb
      split at hb
      · rename_i hmerged
        cases hb
        exact ⟨hsnap.nextIndex_le, hmarked hmerged⟩
      · cases hb

theorem Inv.seed_rebuild (hs : Inv h s) {db : HydrusDb} {cut : Nat}
    (hsnap : SnapshotOf h s.published db) (hcomp : SeedComposes u h s db true) :
    Inv h (step u s (.run (.seed db true) cut)) := by
  have htriple := SidecarSeed.triple_rebuild hsnap (hcomp.translates (.inl rfl)) s.node hs.tidy
  have hended : ∀ node', (SidecarSeed.seed u db true).Returns s.node () node' →
      node'.sidecar.nextUpdateIndex = db.nextIndex ∧
        MapAt h s.published db.nextIndex node'.sidecar :=
    fun node' hret => htriple.post _ _ node' rfl (SidecarSeed.returns_rebuild hret)
  match cut with
  | 0 =>
    refine inv_step_seed hs.tidy hended hsnap.nextIndex_le ?_
    intro b hb
    exact hs.base b (by simpa [baseCut] using hb)
  | 1 =>
    refine inv_step_seed ?_ hended hsnap.nextIndex_le ?_
    · rw [SidecarSeed.cutAt_seed_rebuild_one]
      refine ⟨?_, hs.tidy.idband, hs.tidy.cursor⟩
      intro sha ids hl
      cases hl
    · intro b hb
      simp [baseCut] at hb
  | n + 2 =>
    have hcut := Prog.cutAt_mem_cuts
      (SidecarSeed.deleteStagingFiles >>= fun _ => SidecarSeed.load u db) n
      (SidecarSeed.cleared s.node)
    rw [← SidecarSeed.cutAt_seed_rebuild] at hcut
    obtain ⟨htidy, hmarked⟩ := htriple.crash _ rfl _ hcut
    refine inv_step_seed htidy hended hsnap.nextIndex_le ?_
    intro b hb
    simp only [baseCut] at hb
    simp only [Nat.add_eq_zero_iff, OfNat.ofNat_ne_zero, and_false, Bool.true_eq_false, false_and,
      or_self, if_false, true_and] at hb
    split at hb
    · rename_i hone
      omega
    · split at hb
      · rename_i hmerged
        cases hb
        exact ⟨hsnap.nextIndex_le, hmarked hmerged⟩
      · cases hb

/-- **`inv_step`**: every run that composes keeps the invariant, wherever it is cut. -/
theorem inv_step (hs : Inv h s) {act : SidecarAct} (hposs : Possible h s act)
    (hcomp : Composes u h s act) : Inv h (step u s act) := by
  cases act with
  | publish more => exact hs.publish more
  | run sidecarRun cut =>
    cases sidecarRun with
    | sync relations ts src batchHashes => exact hs.sync hposs hcomp
    | seed db rebuild =>
      cases rebuild with
      | false => exact hs.seed_plain hposs hcomp
      | true => exact hs.seed_rebuild hposs hcomp

theorem Inv.composed (hs : Inv h s) : Composed u h s := by
  intro hseeded relations ts src batchHashes cut applied node' sc hsrc halike hret hsc
  have hb := hs.seeded hseeded
  have hpub : h.published s.node.sidecar.nextUpdateIndex s.published =
      h.published s.node.sidecar.nextUpdateIndex s.published ++ [] := by simp
  have hp : SidecarNode.Progress u h s.node.sidecar s.node.sidecar.nextUpdateIndex
      (h.published s.node.sidecar.nextUpdateIndex s.published) [] node' :=
    (SidecarNode.triple_sidecarSyncOnce relations ts batchHashes hsrc (List.nil_append _).symm).post
      s.node applied node' hs.progress hret
  have hmap := (hs.base _ hb).2.sync hs.tidy.packed hpub hs.tidy.cursor hs.tidy.cursor halike hp
  rw [if_pos (le_refl _), ← hp.cursor] at hmap
  -- nothing published is left to write
  obtain ⟨_, _, _, hrest⟩ := between_of_progress hpub hs.tidy.cursor
  rw [← hp.cursor] at hrest
  have hnone : h.writes node'.sidecar.nextUpdateIndex s.published = [] := by
    rw [History.writes, hrest]
    rfl
  obtain ⟨hpacked, hcurrent⟩ := contents_of_applyAll hsc
  refine SidecarDb.lookup_eq_of_current hp.packed hpacked ?_
  rw [hcurrent]
  funext pair
  exact hmap pair (by rw [hnone]; rfl)

end

end SidecarSystem

/-- **`seed_sync_compose`**: after any runs that compose, a seed that has returned and then a pass
that returns leave what the updates below the cursor leave. -/
theorem seed_sync_compose (u : Unicode) (h : History) (acts : List SidecarAct)
    (hacts : AllSteps (SidecarSystem.step u)
      (fun s act => s.Possible h act ∧ s.Composes u h act) .empty acts) :
    (run (SidecarSystem.step u) .empty acts).Composed u h :=
  (hacts.invariant (SidecarSystem.inv_empty h)
    fun _ _ hs hact => SidecarSystem.inv_step hs hact.1 hact.2).composed

/-! ## Two snapshots of one history -/

/-- Two updates, each of which defines a tag and maps it to the one hash. -/
def sampleTwo : History where
  entries := [⟨0, ["d0", "c0"]⟩, ⟨1, ["d1", "c1"]⟩]
  content := fun name =>
    if name = "d0" then .ok (.definitions ⟨[(1, (Hash.fill 7).toHex)], [(2, "samus")]⟩)
    else if name = "c0" then .ok (.content ⟨[⟨2, [1], .add⟩], [], []⟩)
    else if name = "d1" then .ok (.definitions ⟨[], [(3, "ridley")]⟩)
    else .ok (.content ⟨[⟨3, [1], .add⟩], [], []⟩)
  ascending := by simp

/-- A client that has processed the first update, or both. -/
def sampleClient (both : Bool) : HydrusDb where
  hashes := .insert 10 (Hash.fill 7).bytes ∅
  tags := .insert 21 ("", "ridley") (.insert 20 ("", "samus") ∅)
  hashIdMap := [(1, 10)]
  tagIdMap := if both then [(2, 20), (3, 21)] else [(2, 20)]
  currentMappings := if both then [(10, 20), (10, 21)] else [(10, 20)]
  updates := some [(0, 30), (1, 31)]
  updatesProcessed := [(30, true), (31, both)]

theorem sampleClient_sha256 (both : Bool) (hashId : Nat) :
    (sampleClient both).sha256 hashId = if hashId = 10 then some (Hash.fill 7) else none := by
  by_cases hid : hashId = 10
  · subst hid
    simp only [sampleClient, HydrusDb.sha256, AList.lookup_insert]
    simp
  · simp only [sampleClient, HydrusDb.sha256, AList.lookup_insert_ne hid]
    simp [hid]

theorem snapshotOf_sampleClient (both : Bool) : SnapshotOf sampleTwo 2 (sampleClient both) := by
  refine ⟨?_, ?_, ?_, ?_, ?_⟩
  · cases both with
    | false => exact ⟨1, by simp, by decide +kernel⟩
    | true => exact ⟨2, by simp, by decide +kernel⟩
  · intro a b sha ha hb
    simp only [sampleClient_sha256] at ha hb
    grind
  · intro id a b ha hb
    cases both <;> simp [sampleClient] at ha hb <;> omega
  · cases both with
    | false => decide +kernel
    | true => decide +kernel
  · intro k _
    obtain ⟨sha, tagId⟩ := k
    cases both with
    | false =>
      have hws : (sampleClient false).clientWrites
          (sampleTwo.writesBelow (sampleClient false).nextIndex) = [((Hash.fill 7, 20), true)] := by
        decide +kernel
      rw [hws, writeAll_apply, lastWrite_singleton, HydrusDb.mapped]
      simp only [sampleClient_sha256]
      simp [sampleClient]
      grind
    | true =>
      have hws : (sampleClient true).clientWrites
          (sampleTwo.writesBelow (sampleClient true).nextIndex) =
            [((Hash.fill 7, 20), true)] ++ [((Hash.fill 7, 21), true)] := by
        decide +kernel
      rw [hws, writeAll_apply, lastWrite_append, lastWrite_singleton, lastWrite_singleton,
        HydrusDb.mapped]
      simp only [sampleClient_sha256]
      simp [sampleClient]
      grind

theorem translates_sampleClient (both : Bool) :
    Translates .plainText sampleTwo 2 (sampleClient both) := by
  have hwrites : sampleTwo.writes 0 2 = [((Hash.fill 7, 2), true), ((Hash.fill 7, 3), true)] := by
    decide +kernel
  refine ⟨?_, ?_⟩
  · cases both with
    | false => decide +kernel
    | true => decide +kernel
  · intro w hw tagId id htag hmem
    have hkey := mem_of_lastWrite htag
    cases both <;> simp [sampleClient] at hkey hmem <;> grind

/-- A seed from the older snapshot and a rebuild from the newer. -/
theorem seed_sync_compose_rebuild :
    let s := run (SidecarSystem.step .plainText) .empty
      [.publish 2, .run (.seed (sampleClient false) false) 9,
        .run (.seed (sampleClient true) true) 12]
    s.seeded = true ∧ s.Composed .plainText sampleTwo := by
  refine ⟨by decide +kernel, seed_sync_compose .plainText sampleTwo _ ⟨⟨trivial, trivial⟩, ⟨?_, ?_⟩,
    ⟨?_, ?_⟩, trivial⟩⟩
  · exact snapshotOf_sampleClient false
  · refine ⟨fun _ => translates_sampleClient false, fun _ hdone => ?_, fun _ _ _ _ => rfl, ?_⟩
    · exact absurd hdone (by decide)
    · intro _ _ sha _ id hid
      simp [SidecarSystem.step, SidecarSystem.empty, SidecarNode.empty, SidecarDb.empty,
        SidecarDb.readTagSet] at hid
  · exact snapshotOf_sampleClient true
  · refine ⟨fun _ => translates_sampleClient true, ?_, ?_, ?_⟩
    · simp
    · simp
    · simp

def sampleTwoSource : UpdateSource := ⟨fun _ => .ok sampleTwo.entries, sampleTwo.content⟩

/-- The files after a seed from the older snapshot and a plain one from the newer. -/
def sampleAhead : SidecarSystem :=
  run (SidecarSystem.step .plainText) .empty
    [.publish 2, .run (.seed (sampleClient false) false) 9, .run (.seed (sampleClient true) false) 2]

/-- The second seed returns with the cursor past an update that is not in the map. -/
theorem seed_sync_compose_fails :
    AllSteps (SidecarSystem.step .plainText) (fun s act => s.Possible sampleTwo act) .empty
      [.publish 2, .run (.seed (sampleClient false) false) 9,
        .run (.seed (sampleClient true) false) 2] ∧
    ¬ sampleAhead.Composed .plainText sampleTwo := by
  refine ⟨⟨trivial, snapshotOf_sampleClient false, snapshotOf_sampleClient true, trivial⟩, ?_⟩
  intro hcomposed
  have hserves : Serves sampleTwo 2 sampleTwoSource :=
    ⟨fun _ _ h => by cases h; exact .refl _, fun _ _ h => h⟩
  have hpublished : sampleTwo.published sampleAhead.node.sidecar.nextUpdateIndex
      sampleAhead.published = [] := by decide +kernel
  let pass := sidecarSyncOnce .plainText none 0 sampleTwoSource 1
  have hres : ((pass sampleAhead.node).result).toOption = some 0 := by decide +kernel
  have hmap : (pass.final sampleAhead.node).sidecar.bucketMap.lookup (Hash.fill 7) = some [2] := by
    decide +kernel
  have hspec : (SidecarDb.empty.applyAll .plainText sampleTwo (sampleTwo.below
      (pass.final sampleAhead.node).sidecar.nextUpdateIndex)).toOption.map
        (fun sc => sc.bucketMap.lookup (Hash.fill 7)) = some (some [2, 3]) := by decide +kernel
  cases hret : (pass sampleAhead.node).result with
  | error e => simp [hret, Except.toOption] at hres
  | ok applied =>
    cases hsc : SidecarDb.empty.applyAll .plainText sampleTwo (sampleTwo.below
        (pass.final sampleAhead.node).sidecar.nextUpdateIndex) with
    | error e => simp [hsc, Except.toOption] at hspec
    | ok sc =>
      have heq := hcomposed (by decide +kernel) none 0 sampleTwoSource 1 0 applied
        (pass.final sampleAhead.node) sc hserves
        (by rw [SidecarSystem.Composes, hpublished]; trivial) ⟨hret, rfl⟩ hsc (Hash.fill 7)
      rw [hmap] at heq
      simp [hsc, Except.toOption, ← heq] at hspec

end Bridge
end Naiad
