import Naiad.Bridge.Load

/-!
# Naiad.Bridge.Finish

The rest of a seed: what comes before phase 1, the phases after it, and the end of a run.

* `triple_laterPhases`: the later phases leave the mappings alone; a phase done once is not done
  again.
* `triple_rebuild`: **a rebuild that ends holds the snapshot's mappings with the submissions log on
  top**.
-/

namespace Naiad
namespace Bridge

open Lib Netproto Server

/-! ## The phases after the mappings -/

/-- What the later phases leave alone. -/
structure Kept (node₁ node : BridgeNode) : Prop where
  serving : Serving node₁.repo.toRepoStore → Serving node.repo.toRepoStore
  statuses : node.repo.statuses = node₁.repo.statuses
  submissions : node.repo.submissions = node₁.repo.submissions
  seedCkpt : node.repo.seedCkpt = node₁.repo.seedCkpt
  rebuildInProgress : node.repo.rebuildInProgress = node₁.repo.rebuildInProgress
  seedPhaseMappings : node.state.seedPhaseMappings = node₁.state.seedPhaseMappings

theorem Kept.refl (node : BridgeNode) : Kept node node :=
  ⟨id, rfl, rfl, rfl, rfl, rfl⟩

theorem Kept.trans {node₁ node₂ node₃ : BridgeNode} (h : Kept node₁ node₂)
    (h' : Kept node₂ node₃) : Kept node₁ node₃ :=
  ⟨fun hs => h'.serving (h.serving hs), h'.statuses.trans h.statuses,
    h'.submissions.trans h.submissions, h'.seedCkpt.trans h.seedCkpt,
    h'.rebuildInProgress.trans h.rebuildInProgress,
    h'.seedPhaseMappings.trans h.seedPhaseMappings⟩

/-- A write of the state database that leaves the flag of phase 1. -/
theorem Kept.of_state {node₁ node : BridgeNode} {st : StateDb} (h : Kept node₁ node)
    (hst : st.seedPhaseMappings = node.state.seedPhaseMappings) :
    Kept node₁ { node with state := st } :=
  h.trans ⟨id, rfl, rfl, rfl, rfl, hst⟩

/-- The state database once the later phases are through: each is skipped when it was done. -/
structure PhasesDone (snap : Snapshot) (st₁ st : StateDb) : Prop where
  hashes : st.defsHashes.lookup = if st₁.seedPhaseDefs then st₁.defsHashes.lookup
    else writeAll st₁.defsHashes.lookup snap.hashDefs
  tags : st.defsTags.lookup = if st₁.seedPhaseDefs then st₁.defsTags.lookup
    else writeAll st₁.defsTags.lookup snap.tagDefs
  cursor : st.nextUpdateIndex = if st₁.seedPhaseCursor then st₁.nextUpdateIndex
    else snap.nextIndex
  done : st.seedPhaseCursor = true

section

variable {snap : Snapshot} {node₁ : BridgeNode}

/-- A step of the state database. -/
theorem triple_onState {P Q : BridgeNode → Prop} (g : StateDb → StateDb)
    (hkept : ∀ node, P node → Kept node₁ node)
    (hflag : ∀ st, (g st).seedPhaseMappings = st.seedPhaseMappings)
    (hpost : ∀ node, P node → Q { node with state := g node.state }) :
    Prog.Triple P (onState g) (fun _ => Q) (Kept node₁) :=
  .put hkept fun node hn => ⟨(hkept node hn).of_state (hflag node.state), hpost node hn⟩

theorem triple_unlessDone {P Q : BridgeNode → Prop} {done : StateDb → Bool}
    {phase : BridgeM Unit} {C : BridgeNode → Prop} (hC : ∀ node, P node → C node)
    (hskip : ∀ node, P node → done node.state = true → Q node)
    (hrun : Prog.Triple (fun node => P node ∧ done node.state = false) phase (fun _ => Q) C) :
    Prog.Triple P (unlessDone done phase) (fun _ => Q) C := by
  unfold unlessDone
  refine Prog.Triple.bind (Q := fun isDone node => P node ∧ done node.state = isDone)
    (.read hC ?_) fun isDone => ?_
  · intro node isDone hn hread
    cases hread
    exact ⟨hn, rfl⟩
  · cases isDone with
    | true => exact .ret (fun node hn => hC node hn.1) fun node hn => hskip node hn.1 hn.2
    | false => exact hrun

/-- The definitions of some chunks are in. -/
structure Importing (node₁ : BridgeNode) (rows : List (Nat × String)) (node : BridgeNode) :
    Prop where
  kept : Kept node₁ node
  hashes : node.state.defsHashes.lookup = writeAll node₁.state.defsHashes.lookup rows
  tags : node.state.defsTags = node₁.state.defsTags
  next : node.state.nextIndex = node₁.state.nextIndex
  cursor : node.state.seedPhaseCursor = node₁.state.seedPhaseCursor

/-- The definitions are in, the cursor is where it was. -/
structure Defined (snap : Snapshot) (node₁ node : BridgeNode) : Prop where
  kept : Kept node₁ node
  hashes : node.state.defsHashes.lookup = if node₁.state.seedPhaseDefs
    then node₁.state.defsHashes.lookup
    else writeAll node₁.state.defsHashes.lookup snap.hashDefs
  tags : node.state.defsTags.lookup = if node₁.state.seedPhaseDefs
    then node₁.state.defsTags.lookup else writeAll node₁.state.defsTags.lookup snap.tagDefs
  next : node.state.nextIndex = node₁.state.nextIndex
  cursor : node.state.seedPhaseCursor = node₁.state.seedPhaseCursor

theorem triple_defsPhase (hdefs : node₁.state.seedPhaseDefs = false) :
    Prog.Triple (fun node => node = node₁) (defsPhase snap) (fun _ => Defined snap node₁)
      (Kept node₁) := by
  unfold defsPhase
  have hloop : Prog.Triple (Importing node₁ [])
      (Prog.forEach (fun chunk => onState fun st => st.insertDefsHashes chunk)
        (chunksFrom chunkSize [] snap.hashDefs))
      (fun _ => Importing node₁ snap.hashDefs) (Kept node₁) := by
    refine (Prog.Triple.forEach (fun chunks => Importing node₁ chunks.flatten) _
      (fun node hn => hn.kept) fun done chunk _ _ => ?_).conseq (fun _ hn => hn) ?_ fun _ hn => hn
    · refine triple_onState _ (fun node hn => hn.kept) (fun _ => rfl) fun node hn => ?_
      refine ⟨hn.kept.of_state rfl, ?_, hn.tags, hn.next, hn.cursor⟩
      funext id
      simp only [StateDb.insertDefsHashes, lookup_insertAll, hn.hashes]
      simp [writeAll_append]
    · intro _ node hn
      rw [chunksFrom_flatten] at hn
      exact hn
  refine (hloop.conseq ?_ (fun _ _ hn => hn) fun _ hn => hn).bind fun _ => ?_
  · intro node hn
    rw [hn]
    exact ⟨.refl _, rfl, rfl, rfl, rfl⟩
  have hdone : ∀ node, Importing node₁ snap.hashDefs node →
      Defined snap node₁ { node with state := node.state.insertDefsTags snap.tagDefs } := by
    intro node hn
    refine ⟨hn.kept.of_state rfl, ?_, ?_, hn.next, hn.cursor⟩
    · rw [hdefs]
      exact hn.hashes
    · rw [hdefs]
      funext id
      simp [StateDb.insertDefsTags, lookup_insertAll, hn.tags]
  refine Prog.Triple.bind (Q := fun _ => Defined snap node₁)
    (triple_onState (fun st => st.insertDefsTags snap.tagDefs) (fun node hn => hn.kept)
      (fun _ => rfl) hdone) fun _ => ?_
  refine triple_onState _ (fun node hn => hn.kept) (fun _ => rfl) fun node hn => ?_
  exact ⟨hn.kept.of_state rfl, hn.hashes, hn.tags, hn.next, hn.cursor⟩

theorem triple_relationsPhase {P : BridgeNode → Prop} (bridge : Signer) (ts : Int)
    (hkept : ∀ node, P node → Kept node₁ node)
    (hframe : ∀ node node', P node → Kept node node' → node'.state = node.state → P node')
    (hflag : ∀ node, P node →
      P { node with state := { node.state with seedPhaseRelations := true } }) :
    Prog.Triple P (relationsPhase snap bridge ts) (fun _ => P) (Kept node₁) := by
  unfold relationsPhase
  refine (Prog.Triple.forEach (fun _ => P) _ hkept fun _ chunk _ _ => ?_).bind fun _ => ?_
  · refine .write hkept ?_
    intro node node' a hn happly
    cases hrel : node.repo.applyBridgeRelations ts chunk with
    | error e => simp [hrel] at happly
    | ok out =>
      obtain ⟨db, changed⟩ := out
      simp only [hrel] at happly
      cases happly
      have hk : Kept node { node with repo := db } := by
        rcases (relationStatuses_applyBridgeRelations hrel).1 with hstore | ⟨author, hstore⟩
        · refine ⟨fun hs => ?_, ?_, ?_, ?_, ?_, rfl⟩
          · exact hstore ▸ hs
          · exact congrArg RepoStore.statuses hstore
          · exact congrArg RepoStore.submissions hstore
          · exact congrArg RepoStore.seedCkpt hstore
          · exact congrArg RepoStore.rebuildInProgress hstore
        · have hw := wrote_ensureAccount node.repo.toRepoStore author ts
          refine ⟨fun hs => ?_, ?_, ?_, ?_, ?_, rfl⟩
          · change Serving db.toRepoStore
            rw [hstore]
            exact ⟨(evolves_ensureAccount hs.sound 0 author ts).sound,
              hw.hashUniqueIndex.trans hs.hashUniqueIndex⟩
          · change db.toRepoStore.statuses = _
            rw [hstore]
            exact hw.statuses
          · change db.toRepoStore.submissions = _
            rw [hstore, hw.submissions, List.append_nil]
          · change db.toRepoStore.seedCkpt = _
            rw [hstore]
            unfold RepoStore.ensureAccount
            split <;> rfl
          · change db.toRepoStore.rebuildInProgress = _
            rw [hstore]
            unfold RepoStore.ensureAccount
            split <;> rfl
      exact ⟨(hkept node hn).trans hk, hframe node _ hn hk rfl⟩
  · exact triple_onState _ hkept (fun _ => rfl) hflag

/-- The three later phases in turn. -/
def laterPhases (snap : Snapshot) (bridge : Signer) (ts : Int) : BridgeM Unit := do
  unlessDone StateDb.seedPhaseDefs (defsPhase snap)
  unlessDone StateDb.seedPhaseCursor (cursorPhase snap)
  unlessDone StateDb.seedPhaseRelations (relationsPhase snap bridge ts)

theorem triple_laterPhases (bridge : Signer) (ts : Int) :
    Prog.Triple (fun node => node = node₁) (laterPhases snap bridge ts)
      (fun _ node => Kept node₁ node ∧ PhasesDone snap node₁.state node.state) (Kept node₁) := by
  have hrefl : ∀ node, node = node₁ → Kept node₁ node := by
    intro node hn
    rw [hn]
    exact .refl _
  let Positioned (node : BridgeNode) : Prop :=
    Kept node₁ node ∧ PhasesDone snap node₁.state node.state
  unfold laterPhases
  refine Prog.Triple.bind (Q := fun _ => Defined snap node₁)
    (triple_unlessDone hrefl ?_ ?_) fun _ => ?_
  · intro node hn hskip
    subst hn
    exact ⟨.refl _, by simp [hskip], by simp [hskip], rfl, rfl⟩
  · by_cases hdefs : node₁.state.seedPhaseDefs = false
    · exact (triple_defsPhase hdefs).conseq (fun _ hn => hn.1) (fun _ _ hn => hn) fun _ hn => hn
    · refine ⟨fun node hn => absurd ?_ hdefs, fun node _ _ hn => absurd ?_ hdefs⟩
      · rw [← hn.1]
        exact hn.2
      · rw [← hn.1]
        exact hn.2
  refine Prog.Triple.bind (Q := fun _ => Positioned)
    (triple_unlessDone (fun node hn => hn.kept) ?_ ?_) fun _ => ?_
  · intro node hn hskip
    have hc : node₁.state.seedPhaseCursor = true := hn.cursor.symm.trans hskip
    refine ⟨hn.kept, hn.hashes, hn.tags, ?_, hskip⟩
    rw [if_pos hc]
    exact congrArg (fun i => i.getD 0) hn.next
  · unfold cursorPhase
    refine Prog.Triple.bind (Q := fun _ node => Defined snap node₁
        { node with state := { node.state with nextIndex := node₁.state.nextIndex } } ∧
        node.state.seedPhaseCursor = false ∧ node.state.nextUpdateIndex = snap.nextIndex)
      (.put (fun node hn => hn.1.kept) fun node hn => ?_) fun _ => ?_
    · obtain ⟨hd, hskip⟩ := hn
      exact ⟨hd.kept.of_state rfl, ⟨hd.kept.of_state rfl, hd.hashes, hd.tags, rfl, hd.cursor⟩,
        hskip, rfl⟩
    · refine .put (fun node hn => ?_) fun node hn => ?_
      · exact hn.1.kept.trans (Kept.refl _ |>.of_state rfl)
      · obtain ⟨hd, hskip, hnext⟩ := hn
        have hc : node₁.state.seedPhaseCursor = false := hd.cursor.symm.trans hskip
        have hk : Kept node₁
            { node with state := { node.state with seedPhaseCursor := true } } :=
          hd.kept.trans (Kept.refl _ |>.of_state rfl)
        refine ⟨hk, hk, hd.hashes, hd.tags, ?_, rfl⟩
        rw [hc]
        exact hnext
  refine triple_unlessDone (fun node hn => hn.1) (fun node hn _ => hn) ?_
  refine (triple_relationsPhase (P := Positioned) bridge ts (fun node hn => hn.1) ?_ ?_).conseq
    (fun _ hn => hn.1) (fun _ _ hn => hn) fun _ hn => hn
  · intro node node' hn hk hst
    refine ⟨hn.1.trans hk, ?_⟩
    rw [hst]
    exact hn.2
  · intro node hn
    exact ⟨hn.1.of_state rfl, hn.2.hashes, hn.2.tags, hn.2.cursor, hn.2.done⟩

/-! ## The ends of a run -/

/-- The log is on top of the mappings of `node₂`, and the marker is off. -/
structure Replayed (node₂ node : BridgeNode) : Prop where
  serving : Serving node.repo.toRepoStore
  statuses : node.repo.statuses =
    writeAll node₂.repo.statuses (node₂.repo.submissions.filterMap logWrite)
  submissions : node.repo.submissions = node₂.repo.submissions
  seedCkpt : node.repo.seedCkpt = node₂.repo.seedCkpt
  state : node.state = node₂.state

/-- A rebuild at its end with the marker still on. -/
structure Marked (node₂ node : BridgeNode) : Prop where
  serving : Serving node.repo.toRepoStore
  submissions : node.repo.submissions = node₂.repo.submissions
  seedCkpt : node.repo.seedCkpt = node₂.repo.seedCkpt
  rebuildInProgress : node.repo.rebuildInProgress = node₂.repo.rebuildInProgress
  state : node.state = node₂.state

theorem replayed_replay {node₂ : BridgeNode} (hs : Serving node₂.repo.toRepoStore) :
    Replayed node₂ (node₂.setStore node₂.repo.replaySubmissions) ∧
      Marked node₂ (node₂.setStore node₂.repo.replaySubmissions) := by
  obtain ⟨hsound, hw, hmap⟩ := wrote_replaySubmissions hs.sound
  have hserving : Serving node₂.repo.replaySubmissions :=
    ⟨hsound, hw.hashUniqueIndex.trans hs.hashUniqueIndex⟩
  have hlog : node₂.repo.replaySubmissions.submissions = node₂.repo.submissions := by
    rw [hw.submissions, List.append_nil]
  obtain ⟨_, _, _, hrest⟩ := hmap
  have hck : node₂.repo.replaySubmissions.seedCkpt = node₂.repo.seedCkpt := by rw [hrest]
  have hmark : node₂.repo.replaySubmissions.rebuildInProgress = node₂.repo.rebuildInProgress := by
    rw [hrest]
  exact ⟨⟨hserving, hw.statuses, hlog, hck, rfl⟩, hserving, hlog, hck, hmark, rfl⟩

/-- The metadata keys are no part of what a store must be to serve. -/
theorem serving_meta {s : RepoStore} (hs : Serving s) (generation : Option String)
    (count : Option Nat) (marker : Bool) :
    Serving { s with
      storeGeneration := generation
      distinctHashCount := count
      rebuildInProgress := marker } :=
  ⟨sound_of_tables hs.sound rfl rfl rfl, hs.hashUniqueIndex⟩

/-- The end of a rebuild up to the marker. -/
def replayLog (generation : String) : BridgeM Unit := do
  onStore RepoStore.replaySubmissions
  onStore fun s => { s with storeGeneration := some generation }
  onStore fun s => s.writeDistinctHashCount s.distinctHashCountScan

def clearMarker : BridgeM Unit := onStore fun s => { s with rebuildInProgress := false }

theorem finishRebuild_eq (generation : String) :
    finishRebuild generation = replayLog generation >>= fun _ => clearMarker := by
  unfold finishRebuild replayLog clearMarker
  simp only [Prog.bind_assoc]

theorem triple_replayLog {node₂ : BridgeNode} (generation : String)
    (hs : Serving node₂.repo.toRepoStore) :
    Prog.Triple (fun node => node = node₂) (replayLog generation)
      (fun _ node => Replayed node₂ node ∧ Marked node₂ node) (Marked node₂) := by
  let P (node : BridgeNode) : Prop := Replayed node₂ node ∧ Marked node₂ node
  have hmeta : ∀ node g c, P node → P (node.setStore { node.repo.toRepoStore with
      storeGeneration := g, distinctHashCount := c }) := by
    intro node g c hn
    obtain ⟨hr, hm⟩ := hn
    have hserving := serving_meta hr.serving g c node.repo.rebuildInProgress
    exact ⟨⟨hserving, hr.statuses, hr.submissions, hr.seedCkpt, hr.state⟩,
      hserving, hm.submissions, hm.seedCkpt, hm.rebuildInProgress, hm.state⟩
  unfold replayLog
  refine Prog.Triple.bind (Q := fun _ => P) (.put (fun node hn => ?_) fun node hn => ?_)
    fun _ => ?_
  · rw [hn]
    exact ⟨hs, rfl, rfl, rfl, rfl⟩
  · rw [hn]
    have hdone := replayed_replay hs
    exact ⟨hdone.2, hdone⟩
  refine Prog.Triple.bind (Q := fun _ => P) (.put (fun node hn => hn.2) fun node hn => ?_)
    fun _ => ?_
  · have hnext := hmeta node (some generation) node.repo.distinctHashCount hn
    exact ⟨hnext.2, hnext⟩
  refine .put (fun node hn => hn.2) fun node hn => ?_
  have hnext := hmeta node node.repo.storeGeneration (some node.repo.distinctHashCountScan) hn
  exact ⟨hnext.2, hnext⟩

theorem replayed_clearMarker {node₂ node : BridgeNode} (h : Replayed node₂ node) :
    Replayed node₂ (node.setStore { node.repo.toRepoStore with rebuildInProgress := false }) :=
  ⟨serving_meta h.serving node.repo.storeGeneration node.repo.distinctHashCount false, h.statuses,
    h.submissions, h.seedCkpt, h.state⟩

theorem triple_finishRebuild {node₂ : BridgeNode} (generation : String)
    (hs : Serving node₂.repo.toRepoStore) :
    Prog.Triple (fun node => node = node₂) (finishRebuild generation)
      (fun _ node => Replayed node₂ node ∧ node.repo.rebuildInProgress = false)
      (fun _ => True) := by
  rw [finishRebuild_eq]
  refine ((triple_replayLog generation hs).conseq (fun _ hn => hn) (fun _ _ hn => hn)
    fun _ _ => trivial).bind fun _ => ?_
  exact .put (fun _ _ => trivial) fun node hn => ⟨trivial, replayed_clearMarker hn.1, rfl⟩

theorem triple_finishPlain {node₂ : BridgeNode} (generation : String) :
    Prog.Triple (fun node => node = node₂) (finishPlain generation)
      (fun _ => Kept node₂) (Kept node₂) := by
  have hmeta : ∀ node g c, Kept node₂ node → Kept node₂ (node.setStore { node.repo.toRepoStore with
      storeGeneration := g, distinctHashCount := c }) := by
    intro node g c hn
    exact hn.trans ⟨fun hs => serving_meta hs g c node.repo.rebuildInProgress, rfl, rfl, rfl, rfl,
      rfl⟩
  unfold finishPlain
  refine Prog.Triple.bind (Q := fun _ => Kept node₂) (.put (fun node hn => ?_) fun node hn => ?_)
    fun _ => ?_
  · rw [hn]
    exact .refl _
  · rw [hn]
    have hnext := hmeta node₂ (node₂.repo.storeGeneration.or (some generation))
      node₂.repo.distinctHashCount (.refl _)
    exact ⟨hnext, hnext⟩
  refine .put (fun node hn => hn) fun node hn => ?_
  have hnext : Kept node₂ (node.setStore node.repo.backfillDistinctHashCount) := by
    unfold RepoStore.backfillDistinctHashCount
    split
    · exact hmeta node node.repo.storeGeneration (some node.repo.distinctHashCountScan) hn
    · exact hn
  exact ⟨hnext, hnext⟩

/-! ## Before phase 1 -/

namespace BridgeNode

/-- The checkpoint of this snapshot, if there is one. -/
def validCkpt (snap : Snapshot) (node : BridgeNode) : Option SeedCheckpoint :=
  node.repo.seedCkpt.filter fun ck => ck.serviceId = snap.serviceId ∧ ck.fp = snap.fingerprint

def mark (node : BridgeNode) : BridgeNode :=
  node.setStore { node.repo.toRepoStore with rebuildInProgress := true }

def clear (node : BridgeNode) : BridgeNode := node.setStore node.repo.clearMirroredMappings

def unflag (node : BridgeNode) : BridgeNode :=
  { node with state := node.state.resetSeedPhaseMappings }

def forget (node : BridgeNode) : BridgeNode :=
  node.setStore { node.repo.toRepoStore with seedCkpt := none }

/-- A rebuild of this snapshot was begun and its checkpoint is there. -/
def resumes (snap : Snapshot) (node : BridgeNode) : Bool :=
  node.repo.rebuildInProgress && (node.validCkpt snap).isSome

end BridgeNode

/-- The four writes of a full clear. -/
theorem startOver_eq (node : BridgeNode) :
    (do
      onStore fun s => { s with rebuildInProgress := true }
      onStore RepoStore.clearMirroredMappings
      onState StateDb.resetSeedPhaseMappings
      onStore fun s => { s with seedCkpt := none }
      pure none : BridgeM (Option SeedCheckpoint)) node =
      ⟨[node.mark, node.mark.clear, node.mark.clear.unflag, node.mark.clear.unflag.forget],
        .ok none⟩ := rfl

/-- What comes before phase 1: nothing if a run is resumed, a full clear if a rebuild is not, and an
error if a plain seed meets a rebuild that was begun. -/
theorem prepare_eq (rebuild : Bool) (node : BridgeNode) :
    prepare snap rebuild node =
      if node.repo.rebuildInProgress = true ∧ rebuild = false then
        ⟨[], .error .rebuildInterrupted⟩
      else if rebuild = false ∨ node.resumes snap = true then ⟨[], .ok (node.validCkpt snap)⟩
      else ⟨[node.mark, node.mark.clear, node.mark.clear.unflag,
        node.mark.clear.unflag.forget], .ok none⟩ := by
  unfold prepare
  rw [Prog.bind_ok (a := node.repo.toRepoStore) rfl]
  simp only [Prog.read, List.nil_append, Prog.final, List.getLastD_nil]
  cases rebuild with
  | false =>
    cases hm : node.repo.rebuildInProgress with
    | true => rfl
    | false => rfl
  | true =>
    have hres : node.resumes snap = true ↔ node.repo.rebuildInProgress = true ∧
        (node.repo.seedCkpt.filter fun ck =>
          ck.serviceId = snap.serviceId ∧ ck.fp = snap.fingerprint).isSome = true := by
      simp [BridgeNode.resumes, BridgeNode.validCkpt]
    simp only [Bool.true_eq_false, and_false, if_false, false_or, hres]
    split
    · rfl
    · exact startOver_eq node

/-! ## A run after its preparation -/

/-- A run from phase 1 on, with the checkpoint it goes on with and what it ends with. -/
def bodyWith (snap : Snapshot) (bridge : Signer) (ts : Int) (rebuild : Bool)
    (valid : Option SeedCheckpoint) (fin : BridgeM Unit) : BridgeM Unit := do
  unlessDone StateDb.seedPhaseMappings do
    checkFingerprint rebuild valid
    mappingsPhase snap valid
  laterPhases snap bridge ts
  fin

def finish (rebuild : Bool) (generation : String) : BridgeM Unit :=
  if rebuild then finishRebuild generation else finishPlain generation

theorem seedRun_eq (bridge : Signer) (ts : Int) (generation : String) (rebuild : Bool) :
    seedRun snap bridge ts generation rebuild = prepare snap rebuild >>= fun valid =>
      bodyWith snap bridge ts rebuild valid (finish rebuild generation) := by
  unfold seedRun bodyWith laterPhases finish
  simp only [Prog.bind_assoc]

/-- Phase 1 is behind: it was done before, or it is done now. -/
def Mapped (snap : Snapshot) (valid : Option SeedCheckpoint) (node₁ node : BridgeNode) : Prop :=
  if node₁.state.seedPhaseMappings then node = node₁
  else PhaseDone snap node₁ (choosePlan snap valid node₁.repo.toRepoStore) node

/-- The run from `node₁` on is through, its end as `E` says. -/
def BodyDone (snap : Snapshot) (valid : Option SeedCheckpoint)
    (E : BridgeNode → BridgeNode → Prop) (node₁ node : BridgeNode) : Prop :=
  ∃ a b, Mapped snap valid node₁ a ∧ Kept a b ∧ PhasesDone snap a.state b.state ∧ E b node

/-- Where the run from `node₁` on can be cut: in phase 1, in a later phase, or in its end. -/
inductive BodyCut (snap : Snapshot) (valid : Option SeedCheckpoint)
    (X : BridgeNode → BridgeNode → Prop) (node₁ node : BridgeNode) : Prop
  | mapping : node₁.state.seedPhaseMappings = false →
    PhaseCut snap node₁ (choosePlan snap valid node₁.repo.toRepoStore) node →
    BodyCut snap valid X node₁ node
  | later (a : BridgeNode) : Mapped snap valid node₁ a → Kept a node →
    BodyCut snap valid X node₁ node
  | ending (a b : BridgeNode) : Mapped snap valid node₁ a → Kept a b → X b node →
    BodyCut snap valid X node₁ node

theorem Mapped.serving {valid : Option SeedCheckpoint} {a : BridgeNode}
    (hs : node₁.state.seedPhaseMappings = true → Serving node₁.repo.toRepoStore)
    (h : Mapped snap valid node₁ a) : Serving a.repo.toRepoStore := by
  unfold Mapped at h
  split at h
  · rename_i hflag
    rw [h]
    exact hs hflag
  · exact h.serving

/-- A run from phase 1 on, phase 1 done as `D` says, and cut as `M` says in phase 1, in a later
phase, or in its end. -/
theorem triple_bodyWith_of (bridge : Signer) (ts : Int) (rebuild : Bool)
    (valid : Option SeedCheckpoint) {fin : BridgeM Unit} {E X : BridgeNode → BridgeNode → Prop}
    {D M C : BridgeNode → Prop}
    (hs : node₁.state.seedPhaseMappings = true → Serving node₁.repo.toRepoStore)
    (hphase : node₁.state.seedPhaseMappings = false →
      Prog.Triple (fun node => node = node₁) (mappingsPhase snap valid)
        (fun _ node => PhaseDone snap node₁ (choosePlan snap valid node₁.repo.toRepoStore) node ∧
          D node) M)
    (hfin : ∀ b : BridgeNode, Serving b.repo.toRepoStore →
      Prog.Triple (fun node => node = b) fin (fun _ => E b) (X b))
    (hmapping : ∀ node, node₁.state.seedPhaseMappings = false → M node → C node)
    (hlater : ∀ a node, Mapped snap valid node₁ a →
      (node₁.state.seedPhaseMappings = false → D a) → Kept a node → C node)
    (hending : ∀ a b node, Mapped snap valid node₁ a →
      (node₁.state.seedPhaseMappings = false → D a) → Kept a b → X b node → C node) :
    Prog.Triple (fun node => node = node₁) (bodyWith snap bridge ts rebuild valid fin)
      (fun _ node => ∃ a b, Mapped snap valid node₁ a ∧
        (node₁.state.seedPhaseMappings = false → D a) ∧ Kept a b ∧
        PhasesDone snap a.state b.state ∧ E b node) C := by
  have hfirst : ∀ node, node = node₁ → C node := by
    intro node hn
    subst hn
    cases hflag : node.state.seedPhaseMappings with
    | true =>
      refine hlater node node ?_ (fun hoff => ?_) (.refl _)
      · rw [Mapped, hflag]
        rfl
      · rw [hflag] at hoff
        cases hoff
    | false =>
      exact hmapping node hflag ((hphase hflag).crash node rfl node List.mem_cons_self)
  unfold bodyWith
  refine Prog.Triple.bind (Q := fun _ node => Mapped snap valid node₁ node ∧
    (node₁.state.seedPhaseMappings = false → D node)) (triple_unlessDone hfirst ?_ ?_) fun _ => ?_
  · intro node hn hflag
    subst hn
    refine ⟨?_, fun hoff => ?_⟩
    · rw [Mapped, hflag]
      rfl
    · rw [hflag] at hoff
      cases hoff
  · by_cases hflag : node₁.state.seedPhaseMappings = false
    · unfold checkFingerprint
      refine Prog.Triple.bind (Q := fun _ node => node = node₁)
        (.read (fun node hn => hfirst node hn.1) fun node a hn _ => hn.1) fun _ => ?_
      refine (hphase hflag).conseq (fun _ hn => hn) ?_ fun node hn => hmapping node hflag hn
      intro _ node hn
      refine ⟨?_, fun _ => hn.2⟩
      rw [Mapped, hflag]
      exact hn.1
    · refine ⟨fun node hn => absurd ?_ hflag, fun node _ _ hn => absurd ?_ hflag⟩
      · rw [← hn.1]
        exact hn.2
      · rw [← hn.1]
        exact hn.2
  refine .pointwise fun a ha => ?_
  obtain ⟨ha, hd⟩ := ha
  refine ((triple_laterPhases bridge ts).conseq (fun _ hn => hn) (fun _ _ hn => hn)
    fun node hn => hlater a node ha hd hn).bind fun _ => ?_
  refine .pointwise fun b hb => ?_
  obtain ⟨hkept, hphases⟩ := hb
  exact (hfin b (hkept.serving (ha.serving hs))).conseq (fun _ hn => hn)
    (fun _ node hn => ⟨a, b, ha, hd, hkept, hphases, hn⟩)
    fun node hn => hending a b node ha hd hkept hn

/-- **`triple_bodyWith`**: a run from phase 1 on. -/
theorem triple_bodyWith (bridge : Signer) (ts : Int) (rebuild : Bool)
    (valid : Option SeedCheckpoint) {fin : BridgeM Unit} {E X : BridgeNode → BridgeNode → Prop}
    (hs : node₁.state.seedPhaseMappings = true → Serving node₁.repo.toRepoStore)
    (hstart : node₁.state.seedPhaseMappings = false → Startable snap valid node₁)
    (hfin : ∀ b : BridgeNode, Serving b.repo.toRepoStore →
      Prog.Triple (fun node => node = b) fin (fun _ => E b) (X b)) :
    Prog.Triple (fun node => node = node₁) (bodyWith snap bridge ts rebuild valid fin)
      (fun _ => BodyDone snap valid E node₁) (BodyCut snap valid X node₁) := by
  refine (triple_bodyWith_of (D := fun _ => True) bridge ts rebuild valid hs (fun hflag => ?_) hfin
    (fun _ hflag hn => .mapping hflag hn) (fun a _ ha _ hn => .later a ha hn)
    fun a b _ ha _ hkept hn => .ending a b ha hkept hn).conseq (fun _ hn => hn) ?_ fun _ hn => hn
  · exact (triple_mappingsPhase (hstart hflag)).conseq (fun _ hn => hn)
      (fun _ _ hn => ⟨hn, trivial⟩) fun _ hn => hn
  · intro _ node hn
    obtain ⟨a, b, ha, _, hkept, hphases, hend⟩ := hn
    exact ⟨a, b, ha, hkept, hphases, hend⟩

/-- The end of a run is behind. -/
def Ended (rebuild : Bool) (node₂ node : BridgeNode) : Prop :=
  if rebuild then Replayed node₂ node ∧ node.repo.rebuildInProgress = false else Kept node₂ node

theorem triple_finish (rebuild : Bool) (generation : String) (b : BridgeNode)
    (hs : Serving b.repo.toRepoStore) :
    Prog.Triple (fun node => node = b) (finish rebuild generation) (fun _ => Ended rebuild b)
      (fun _ => True) := by
  cases rebuild with
  | true =>
    exact (triple_finishRebuild generation hs).conseq (fun _ hn => hn) (fun _ _ hn => hn)
      fun _ _ => trivial
  | false =>
    exact (triple_finishPlain generation).conseq (fun _ hn => hn) (fun _ _ hn => hn)
      fun _ _ => trivial

/-- What a run leaves that returns. -/
theorem bodyDone_of_returns {bridge : Signer} {ts : Int} {generation : String} {rebuild : Bool}
    {valid : Option SeedCheckpoint} {node : BridgeNode}
    (hs : node₁.state.seedPhaseMappings = true → Serving node₁.repo.toRepoStore)
    (hstart : node₁.state.seedPhaseMappings = false → Startable snap valid node₁)
    (h : (bodyWith snap bridge ts rebuild valid (finish rebuild generation)).Returns node₁ ()
      node) :
    BodyDone snap valid (Ended rebuild) node₁ node :=
  (triple_bodyWith bridge ts rebuild valid hs hstart (triple_finish rebuild generation)).post
    node₁ () node rfl h

/-! ## A rebuild from the start -/

/-- What a rebuild leaves that was not resumed. -/
structure Rebuilt (snap : Snapshot) (node₀ node : BridgeNode) : Prop where
  serving : Serving node.repo.toRepoStore
  statuses : node.repo.statuses = writeAll
    (writeAll (fun _ => none) (snap.items.filterMap bulkWrite))
    (node₀.repo.submissions.filterMap logWrite)
  submissions : node.repo.submissions = node₀.repo.submissions
  seedCkpt : node.repo.seedCkpt = none
  rebuildInProgress : node.repo.rebuildInProgress = false
  phases : PhasesDone snap node₀.state node.state

theorem items_of_none (s : RepoStore) :
    SeedPlan.items snap (choosePlan snap none s) = snap.items := by
  unfold choosePlan
  simp only
  split
  · rfl
  · split
    · rfl
    · rfl

theorem startable_forget {node : BridgeNode} (ht : node.repo.repoTags.Unique) :
    Startable snap none node.mark.clear.unflag.forget where
  tags := ht
  unique := fun _ => IdTable.unique_empty
  sound := fun _ => sound_of_tables (sound_clearMirroredMappings ht) rfl rfl rfl
  index := by simp
  ordered := by simp

theorem statuses_forget (node : BridgeNode) :
    node.mark.clear.unflag.forget.repo.statuses = fun _ => none :=
  statuses_clearMirroredMappings node.mark.repo.toRepoStore

/-- **`rebuilt_of_returns`**: a rebuild that starts over and ends leaves the snapshot's mappings with
the submissions log on top. -/
theorem rebuilt_of_returns {bridge : Signer} {ts : Int} {generation : String}
    {node₀ node : BridgeNode} (hres : node₀.resumes snap = false)
    (ht : node₀.repo.repoTags.Unique)
    (h : (seedRun snap bridge ts generation true).Returns node₀ () node) :
    Rebuilt snap node₀ node := by
  rw [seedRun_eq] at h
  obtain ⟨valid, n₁, hprep, hbody⟩ := Prog.bind_returns.1 h
  have hp : prepare snap true node₀ = _ := prepare_eq true node₀
  rw [hres] at hp
  simp only [Bool.true_eq_false, and_false, Bool.false_eq_true, or_self, if_false] at hp
  obtain ⟨hok, hfin⟩ := hprep
  rw [hp] at hok
  cases hok
  have hn₁ : n₁ = node₀.mark.clear.unflag.forget := by
    rw [← hfin, Prog.final, hp]
    rfl
  subst hn₁
  have hflag : node₀.mark.clear.unflag.forget.state.seedPhaseMappings = false := rfl
  obtain ⟨a, b, ha, hkept, hphases, hend⟩ :=
    bodyDone_of_returns (by simp [hflag]) (fun _ => startable_forget ht) hbody
  rw [Mapped, hflag] at ha
  have ha : PhaseDone snap node₀.mark.clear.unflag.forget _ a := ha
  obtain ⟨hreplayed, hmarker⟩ := hend
  have hlog : a.repo.submissions = node₀.repo.submissions := ha.apart.submissions
  have hst : a.state = { node₀.state with seedPhaseMappings := true } := ha.apart.state
  refine ⟨hreplayed.serving, ?_, ?_, ?_, hmarker, ?_⟩
  · rw [hreplayed.statuses, hkept.statuses, hkept.submissions, ha.statuses, items_of_none, hlog,
      statuses_forget]
  · rw [hreplayed.submissions, hkept.submissions, hlog]
  · rw [hreplayed.seedCkpt, hkept.seedCkpt, ha.ckpt]
  · rw [hreplayed.state]
    rw [hst] at hphases
    exact ⟨hphases.hashes, hphases.tags, hphases.cursor, hphases.done⟩

/-- What a plain seed leaves that found no checkpoint. -/
structure Seeded (snap : Snapshot) (node₀ node : BridgeNode) : Prop where
  serving : Serving node.repo.toRepoStore
  statuses : node.repo.statuses = if node₀.state.seedPhaseMappings then node₀.repo.statuses
    else writeAll node₀.repo.statuses (snap.items.filterMap bulkWrite)
  submissions : node.repo.submissions = node₀.repo.submissions
  seedCkpt : node.repo.seedCkpt = none
  rebuildInProgress : node.repo.rebuildInProgress = false

/-- A plain seed that returns has gone through its phases from the start. -/
theorem returns_bodyWith {bridge : Signer} {ts : Int} {generation : String}
    {node₀ node : BridgeNode} (hck : node₀.repo.seedCkpt = none)
    (h : (seedRun snap bridge ts generation false).Returns node₀ () node) :
    node₀.repo.rebuildInProgress = false ∧
      (bodyWith snap bridge ts false none (finish false generation)).Returns node₀ () node := by
  rw [seedRun_eq] at h
  obtain ⟨valid, n₁, hprep, hbody⟩ := Prog.bind_returns.1 h
  have hp : prepare snap false node₀ = _ := prepare_eq false node₀
  obtain ⟨hok, hfin⟩ := hprep
  cases hm : node₀.repo.rebuildInProgress with
  | true =>
    rw [hm] at hp
    rw [hp] at hok
    cases hok
  | false =>
    have hp : prepare snap false node₀ = ⟨[], .ok (node₀.validCkpt snap)⟩ := by simpa [hm] using hp
    have hvalid : valid = none := by
      rw [hp] at hok
      cases hok
      simp [BridgeNode.validCkpt, hck]
    subst hvalid
    obtain rfl : n₁ = node₀ := by
      rw [← hfin, Prog.final, hp]
      rfl
    exact ⟨rfl, hbody⟩

theorem startable_of_serving {node₀ : BridgeNode} (hs : Serving node₀.repo.toRepoStore) :
    Startable snap none node₀ :=
  ⟨hs.sound.tags, fun _ => hs.sound.hashes, fun _ => hs.sound, by simp, by simp⟩

theorem seeded_of_returns {bridge : Signer} {ts : Int} {generation : String}
    {node₀ node : BridgeNode} (hs : Serving node₀.repo.toRepoStore)
    (hck : node₀.repo.seedCkpt = none)
    (h : (seedRun snap bridge ts generation false).Returns node₀ () node) :
    Seeded snap node₀ node := by
  obtain ⟨hm, hbody⟩ := returns_bodyWith hck h
  obtain ⟨a, b, ha, hkept, _, hend⟩ :=
    bodyDone_of_returns (fun _ => hs) (fun _ => startable_of_serving hs) hbody
  have hend : Kept b node := hend
  have hall := hkept.trans hend
  have hsa := ha.serving fun _ => hs
  unfold Mapped at ha
  split at ha
  · rename_i hflag
    subst ha
    refine ⟨hall.serving hsa, ?_, hall.submissions, hall.seedCkpt.trans hck,
      hall.rebuildInProgress.trans hm⟩
    rw [if_pos hflag]
    exact hall.statuses
  · rename_i hflag
    refine ⟨hall.serving hsa, ?_, hall.submissions.trans ha.apart.submissions,
      hall.seedCkpt.trans ha.ckpt, ?_⟩
    · rw [if_neg hflag, hall.statuses, ha.statuses, items_of_none]
    · exact hall.rebuildInProgress.trans (ha.apart.rebuildInProgress.trans hm)

/-- The end of a plain seed does not touch the state database. -/
theorem state_finishPlain (generation : String) (b : BridgeNode) :
    Prog.Triple (fun node => node = b) (finish false generation)
      (fun _ node => node.state = b.state) (fun _ => True) := by
  have honStore : ∀ f : RepoStore → RepoStore, Prog.Triple (fun node => node.state = b.state)
      (onStore f) (fun _ node => node.state = b.state) fun _ => True :=
    fun f => .put (fun _ _ => trivial) fun _ hn => ⟨trivial, hn⟩
  change Prog.Triple _ (finishPlain generation) _ _
  refine Prog.Triple.bind (Q := fun _ node => node.state = b.state) ?_ fun _ => honStore _
  exact (honStore _).conseq (fun _ hn => congrArg BridgeNode.state hn) (fun _ _ hn => hn)
    fun _ hn => hn

/-- The state database after a plain seed. -/
theorem phases_of_returns {bridge : Signer} {ts : Int} {generation : String}
    {node₀ node : BridgeNode} (hs : Serving node₀.repo.toRepoStore)
    (hck : node₀.repo.seedCkpt = none)
    (h : (seedRun snap bridge ts generation false).Returns node₀ () node) :
    PhasesDone snap node₀.state node.state := by
  obtain ⟨_, hbody⟩ := returns_bodyWith hck h
  obtain ⟨a, b, ha, _, hphases, hend⟩ := (triple_bodyWith bridge ts false none (fun _ => hs)
    (fun _ => startable_of_serving hs) fun b _ => state_finishPlain generation b).post
      node₀ () node rfl hbody
  have hend : node.state = b.state := hend
  rw [hend]
  unfold Mapped at ha
  split at ha
  · rw [ha] at hphases
    exact hphases
  · have hst : a.state = { node₀.state with seedPhaseMappings := true } := ha.apart.state
    rw [hst] at hphases
    exact ⟨hphases.hashes, hphases.tags, hphases.cursor, hphases.done⟩

end

end Bridge
end Naiad
