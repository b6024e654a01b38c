import Naiad.Bridge.State
import Naiad.Server.HashCount

/-!
# Naiad.Bridge.Sync

A pass of the bridge over the updates the upstream has published: the definitions of an update
index, its mappings in chunks, its relations, and the cursor that moves on once it is applied.

* `syncOnce_counted`: to the statuses and the count of the store a pass, cut anywhere, is a
  `SyncPass`.
-/

namespace Naiad
namespace Bridge

open Lib Netproto Server

inductive UpdateAction
  | add
  | delete
deriving DecidableEq

structure MappingUpdate where
  tagId : Nat
  hashIds : List Nat
  action : UpdateAction
deriving DecidableEq

structure RelationUpdate where
  fromId : Nat
  toId : Nat
  action : UpdateAction
deriving DecidableEq

structure DefinitionsUpdate where
  hashes : List (Nat × String)
  tags : List (Nat × String)
deriving DecidableEq

structure ContentUpdate where
  mappings : List MappingUpdate
  siblings : List RelationUpdate
  parents : List RelationUpdate
deriving DecidableEq

inductive Update
  | definitions (d : DefinitionsUpdate)
  | content (c : ContentUpdate)
deriving DecidableEq

structure MetadataEntry where
  updateIndex : Nat
  updateHashes : List String
deriving DecidableEq

/-- The upstream as one pass sees it: what it answers, or that it does not. -/
structure UpdateSource where
  metadata : Nat → Except BridgeError (List MetadataEntry)
  fetchUpdate : String → Except BridgeError Update

/-! ## One update index -/

/-- The contents of the decoded files, in their order. -/
def contents (decoded : List Update) : List ContentUpdate :=
  decoded.filterMap fun u =>
    match u with
    | .definitions _ => none
    | .content c => some c

def insertDefs : Update → BridgeM Unit
  | .definitions d => do
    onState fun st => st.insertDefsHashes d.hashes
    onState fun st => st.insertDefsTags d.tags
  | .content _ => pure ()

/-- The items of one hash id of a mapping row. -/
def resolveHashId (hashes : Nat → Option String) (tag : String) (isDelete : Bool) (id : Nat) :
    Except BridgeError (String × String × Bool) :=
  match hashes id with
  | none => .error (.unresolvedHashId id)
  | some sha => .ok (sha, tag, isDelete)

def resolveMapping (tags hashes : Nat → Option String) (row : MappingUpdate) :
    Except BridgeError (List (String × String × Bool)) :=
  match tags row.tagId with
  | none => .error (.unresolvedTagId row.tagId)
  | some tag => row.hashIds.mapM (resolveHashId hashes tag (row.action = .delete))

/-- The batch of an index: an id without a definition fails the index. -/
def resolveMappings (tags hashes : Nat → Option String) (decoded : List Update) :
    Except BridgeError (List (String × String × Bool)) := do
  let batches ← ((contents decoded).flatMap ContentUpdate.mappings).mapM
    (resolveMapping tags hashes)
  return batches.flatten

/-- A row with an endpoint that has no definition or is no tag is dropped. -/
def buildRelationSub (u : Unicode) (bridge : Signer) (kind : RelKind) (tags : Nat → Option String)
    (rel : RelationUpdate) : Option RelationSubmission :=
  match tags rel.fromId, tags rel.toId with
  | some fromRaw, some toRaw =>
    match Tag.parse u fromRaw, Tag.parse u toRaw with
    | .ok fromTag, .ok toTag =>
      some (bridge.signRelation (if rel.action = .add then .add else .remove) kind fromTag toTag)
    | _, _ => none
  | _, _ => none

/-- Siblings then parents, file by file. -/
def buildRelationSubs (u : Unicode) (bridge : Signer) (tags : Nat → Option String)
    (decoded : List Update) : List RelationSubmission :=
  (contents decoded).flatMap fun c =>
    c.siblings.filterMap (buildRelationSub u bridge .sibling tags) ++
      c.parents.filterMap (buildRelationSub u bridge .parent tags)

/-- `chunks(n)` of what is left, `chunk` being the chunk begun. -/
def chunksFrom {A : Type} (n : Nat) (chunk : List A) : List A → List (List A)
  | [] => if chunk = [] then [] else [chunk]
  | a :: as =>
    if n ≤ chunk.length + 1 then (chunk ++ [a]) :: chunksFrom n [] as
    else chunksFrom n (chunk ++ [a]) as

theorem chunksFrom_flatten {A : Type} (n : Nat) (chunk as : List A) :
    (chunksFrom n chunk as).flatten = chunk ++ as := by
  induction as generalizing chunk with
  | nil =>
    unfold chunksFrom
    split
    · simp [*]
    · simp
  | cons a as ih =>
    unfold chunksFrom
    split
    · simp [ih]
    · simp [ih]

def applyChunk (chunk : List (String × String × Bool)) : BridgeM Unit :=
  tryStore fun s =>
    match s.applyMappingsBulk chunk with
    | .error e => .error e
    | .ok st => .ok (st.store, ())

def applyRelations (ts : Int) (subs : List RelationSubmission) : BridgeM Unit :=
  .write fun node =>
    match node.repo.applyBridgeRelations ts subs with
    | .error e => .error (.store e)
    | .ok (db, _) => .ok ({ node with repo := db }, ())

/-- The count is refreshed once a pass has applied mappings; a failure of it is only logged. -/
def refreshCount (applied : Nat) (refreshed : Bool) : BridgeM Unit :=
  if 0 < applied ∧ refreshed = true then onStore RepoStore.refreshDistinctHashCount
  else pure ()

section

variable (u : Unicode) (bridge : Signer) (ts : Int) (src : UpdateSource)

def applyIndex (entry : MetadataEntry) : BridgeM Nat := do
  let decoded ← Prog.read fun _ => entry.updateHashes.mapM src.fetchUpdate
  Prog.forEach insertDefs decoded
  let state ← Prog.read fun node => .ok node.state
  let batch ← Prog.read fun _ =>
    resolveMappings state.defsTags.lookup state.defsHashes.lookup decoded
  Prog.forEach applyChunk (chunksFrom 50000 [] batch)
  applyRelations ts (buildRelationSubs u bridge state.defsTags.lookup decoded)
  onState fun st => st.setNextUpdateIndex (entry.updateIndex + 1)
  return batch.length

/-- The entries in turn; the number of mappings applied. -/
def applyEntries : List MetadataEntry → BridgeM Nat
  | [] => return 0
  | entry :: entries => do
    let applied ← applyIndex u bridge ts src entry
    let rest ← applyEntries entries
    return applied + rest

/-- The entries not yet applied, in the order of their indexes. -/
def pendingEntries (since : Nat) (entries : List MetadataEntry) : List MetadataEntry :=
  orderBy MetadataEntry.updateIndex (entries.filter fun e => since ≤ e.updateIndex)

/-- One pass; `refreshed` tells whether the refresh of the count goes through. -/
def syncOnce (refreshed : Bool) : BridgeM Nat := do
  let since ← Prog.read fun node => .ok node.state.nextUpdateIndex
  let entries ← Prog.read fun _ => src.metadata since
  let applied ← applyEntries u bridge ts src (pendingEntries since entries)
  refreshCount applied refreshed
  return applied

end

/-! ## The pass as the store sees it -/

section

variable {u : Unicode} {bridge : Signer} {ts : Int} {src : UpdateSource} {s : RepoStore}

/-- The statuses and the count of `s` once `items` are loaded. -/
structure Loaded (s : RepoStore) (items : List (String × String × Bool)) (node : BridgeNode) :
    Prop where
  serving : Serving node.repo.toRepoStore
  statuses : node.repo.statuses = writeAll s.statuses (items.filterMap bulkWrite)
  count : node.repo.distinctHashCount = s.distinctHashCount

/-- Some items are loaded, `n` of them. -/
def LoadedSome (s : RepoStore) (n : Nat) (node : BridgeNode) : Prop :=
  ∃ items, items.length = n ∧ Loaded s items node

def LoadedAny (s : RepoStore) (node : BridgeNode) : Prop := ∃ items, Loaded s items node

theorem LoadedSome.any {n : Nat} {node : BridgeNode} (h : LoadedSome s n node) :
    LoadedAny s node := by
  obtain ⟨items, _, hl⟩ := h
  exact ⟨items, hl⟩

theorem loaded_onState {P : BridgeNode → Prop} (f : StateDb → StateDb)
    (hP : ∀ node, P node → LoadedAny s node)
    (hframe : ∀ node state, P node → P { node with state := state }) :
    Prog.Triple P (onState f) (fun _ => P) (LoadedAny s) :=
  .put hP fun node hn => ⟨hP _ (hframe node _ hn), hframe node _ hn⟩

theorem loaded_insertDefs (n : Nat) (f : Update) :
    Prog.Triple (LoadedSome s n) (insertDefs f) (fun _ => LoadedSome s n) (LoadedAny s) := by
  have hframe : ∀ node state, LoadedSome s n node → LoadedSome s n { node with state := state } := by
    intro node state hn
    obtain ⟨items, hlen, hl⟩ := hn
    exact ⟨items, hlen, hl.serving, hl.statuses, hl.count⟩
  cases f with
  | content c => exact .ret (fun _ hn => hn.any) fun _ hn => hn
  | definitions d =>
    exact (loaded_onState _ (fun _ hn => hn.any) hframe).bind fun _ =>
      loaded_onState _ (fun _ hn => hn.any) hframe

theorem loaded_applyChunk (items chunk : List (String × String × Bool)) :
    Prog.Triple (Loaded s items) (applyChunk chunk) (fun _ => Loaded s (items ++ chunk))
      (LoadedAny s) := by
  refine .write (fun node hn => ⟨items, hn⟩) ?_
  intro node node' a hn happly
  obtain ⟨st, hst, hw, hl⟩ :=
    wrote_applyMappingsBulk hn.serving.sound hn.serving.hashUniqueIndex chunk
  simp only [hst] at happly
  cases happly
  have hloaded : Loaded s (items ++ chunk) (node.setStore st.store) := by
    refine ⟨⟨(evolves_applyMappingsBulk hn.serving.sound hst).sound, ?_⟩, ?_, ?_⟩
    · exact hw.hashUniqueIndex.trans hn.serving.hashUniqueIndex
    · rw [List.filterMap_append, writeAll_append, ← hn.statuses]
      exact hw.statuses
    · exact hl.distinctHashCount.trans hn.count
  exact ⟨⟨_, hloaded⟩, hloaded⟩

theorem loaded_applyRelations (n : Nat) (subs : List RelationSubmission) :
    Prog.Triple (LoadedSome s n) (applyRelations ts subs) (fun _ => LoadedSome s n)
      (LoadedAny s) := by
  refine .write (fun node hn => hn.any) ?_
  intro node node' a hn happly
  cases hrel : node.repo.applyBridgeRelations ts subs with
  | error e => simp [hrel] at happly
  | ok out =>
    obtain ⟨db, changed⟩ := out
    simp only [hrel] at happly
    cases happly
    obtain ⟨items, hlen, hl⟩ := hn
    have hloaded : LoadedSome s n { node with repo := db } := by
      rcases (relationStatuses_applyBridgeRelations hrel).1 with hstore | ⟨author, hstore⟩
      · refine ⟨items, hlen, ?_, ?_, ?_⟩
        · exact hstore ▸ hl.serving
        · exact hstore ▸ hl.statuses
        · exact hstore ▸ hl.count
      · refine ⟨items, hlen, ⟨?_, ?_⟩, ?_, ?_⟩
        · change db.toRepoStore.Sound
          rw [hstore]
          exact (evolves_ensureAccount hl.serving.sound 0 author ts).sound
        · change db.toRepoStore.hashUniqueIndex = true
          rw [hstore, RepoStore.ensureAccount_index]
          exact hl.serving.hashUniqueIndex
        · change db.toRepoStore.statuses = _
          rw [hstore, (wrote_ensureAccount _ author ts).statuses]
          exact hl.statuses
        · change db.toRepoStore.distinctHashCount = _
          rw [hstore, ← hl.count]
          unfold RepoStore.ensureAccount
          split <;> rfl
    exact ⟨hloaded.any, hloaded⟩

theorem loaded_applyIndex (n : Nat) (entry : MetadataEntry) :
    Prog.Triple (LoadedSome s n) (applyIndex u bridge ts src entry)
      (fun applied => LoadedSome s (n + applied)) (LoadedAny s) := by
  have hany : ∀ n node, LoadedSome s n node → LoadedAny s node := fun _ _ hn => hn.any
  unfold applyIndex
  refine Prog.Triple.bind (.read (hany n) fun _ _ hn _ => hn) fun decoded => ?_
  refine (Prog.Triple.forEach (fun _ => LoadedSome s n) decoded (hany n)
    fun _ f _ _ => loaded_insertDefs n f).bind fun _ => ?_
  refine Prog.Triple.bind (.read (hany n) fun _ _ hn _ => hn) fun state => ?_
  refine Prog.Triple.bind (.read (hany n) fun _ _ hn _ => hn) fun batch => ?_
  -- the chunks load the batch
  have hchunks : Prog.Triple (LoadedSome s n) (Prog.forEach applyChunk (chunksFrom 50000 [] batch))
      (fun _ => LoadedSome s (n + batch.length)) (LoadedAny s) := by
    have hloop : ∀ items, Prog.Triple (Loaded s items)
        (Prog.forEach applyChunk (chunksFrom 50000 [] batch))
        (fun _ => Loaded s (items ++ (chunksFrom 50000 [] batch).flatten)) (LoadedAny s) := by
      intro items
      refine (Prog.Triple.forEach (fun done => Loaded s (items ++ done.flatten)) _
        (fun node hn => ⟨_, hn⟩) ?_).conseq (fun node hn => ?_) (fun _ _ hn => hn) (fun _ hn => hn)
      · intro done chunk rest _
        refine (loaded_applyChunk _ chunk).conseq (fun _ hn => hn) (fun _ node hn => ?_)
          (fun _ hn => hn)
        simpa using hn
      · simpa using hn
    constructor
    · intro node hn node' hcut
      obtain ⟨items, _, hl⟩ := hn
      exact (hloop items).crash node hl node' hcut
    · intro node a node' hn hret
      obtain ⟨items, hlen, hl⟩ := hn
      refine ⟨_, ?_, (hloop items).post node a node' hl hret⟩
      rw [chunksFrom_flatten]
      simp [hlen]
  refine hchunks.bind fun _ => ?_
  refine (loaded_applyRelations (n + batch.length) _).bind fun _ => ?_
  refine (loaded_onState _ (hany (n + batch.length)) ?_).bind fun _ => ?_
  · intro node state hn
    obtain ⟨items, hlen, hl⟩ := hn
    exact ⟨items, hlen, hl.serving, hl.statuses, hl.count⟩
  · exact .ret (hany _) fun _ hn => hn

theorem loaded_applyEntries (n : Nat) (entries : List MetadataEntry) :
    Prog.Triple (LoadedSome s n) (applyEntries u bridge ts src entries)
      (fun applied => LoadedSome s (n + applied)) (LoadedAny s) := by
  induction entries generalizing n with
  | nil => exact .ret (fun _ hn => hn.any) fun _ hn => hn
  | cons entry entries ih =>
    refine (loaded_applyIndex n entry).bind fun applied => ?_
    refine (ih (n + applied)).bind fun rest => ?_
    refine .ret (fun _ hn => hn.any) fun _ hn => ?_
    rw [← Nat.add_assoc]
    exact hn

/-- The store of a bridge as a `SyncPass` from `s` leaves it, to the statuses and the count. -/
def CountedAs (s : RepoStore) (pass : SyncPass) (node : BridgeNode) : Prop :=
  node.repo.statuses = (s.syncPass pass).statuses ∧
    node.repo.distinctHashCount = (s.syncPass pass).distinctHashCount

theorem Loaded.counted (hs : Serving s) {items : List (String × String × Bool)} {node : BridgeNode}
    (hl : Loaded s items node) : CountedAs s ⟨[items], false, false⟩ node := by
  obtain ⟨_, _, hw, hc⟩ := wrote_applyChunks [items] hs.sound hs.hashUniqueIndex
  have hpass : s.syncPass ⟨[items], false, false⟩ = (s.applyChunks [items]).1 := by
    simp [RepoStore.syncPass, SyncPass.refreshes]
  rw [CountedAs, hpass, hw.statuses, hc.distinctHashCount, hl.statuses, hl.count]
  simp

/-- **`syncOnce_counted`**: a pass of the bridge, wherever it is cut, is a pass of the store. -/
theorem syncOnce_counted (hs : Serving s) {node node' : BridgeNode} {refreshed : Bool}
    (hnode : node.repo.toRepoStore = s)
    (hcut : node' ∈ (syncOnce u bridge ts src refreshed).cuts node) :
    ∃ pass, CountedAs s pass node' := by
  have hstart : LoadedSome s 0 node := ⟨[], rfl, hnode ▸ hs, by simp [hnode], by simp [hnode]⟩
  have hany : ∀ node, LoadedAny s node → ∃ pass, CountedAs s pass node := by
    intro node hn
    obtain ⟨items, hl⟩ := hn
    exact ⟨_, hl.counted hs⟩
  have htriple : Prog.Triple (LoadedSome s 0) (syncOnce u bridge ts src refreshed)
      (fun _ _ => True) (fun node => ∃ pass, CountedAs s pass node) := by
    unfold syncOnce
    refine Prog.Triple.bind (.read (fun _ hn => hany _ hn.any) fun _ _ hn _ => hn) fun since => ?_
    refine Prog.Triple.bind (.read (fun _ hn => hany _ hn.any) fun _ _ hn _ => hn) fun es => ?_
    refine ((loaded_applyEntries 0 _).conseq (fun _ hn => hn) (fun _ _ hn => hn) hany).bind
      fun applied => ?_
    refine Prog.Triple.bind (Q := fun _ node => ∃ pass, CountedAs s pass node) ?_
      fun _ => .ret (fun _ hn => hn) fun _ _ => trivial
    unfold refreshCount
    split
    · rename_i happlied
      refine .put (fun _ hn => hany _ hn.any) fun node hn => ?_
      obtain ⟨items, hlen, hl⟩ := hn
      have hcounted : CountedAs s ⟨[items], true, true⟩
          (node.setStore node.repo.refreshDistinctHashCount) := by
        obtain ⟨hok, hs', hw, hc⟩ := wrote_applyChunks [items] hs.sound hs.hashUniqueIndex
        have hpass : s.syncPass ⟨[items], true, true⟩ =
            (s.applyChunks [items]).1.refreshDistinctHashCount := by
          have hpos : 0 < items.length := by omega
          simp [RepoStore.syncPass, SyncPass.refreshes, hok, List.length_pos_iff.1 hpos]
        have hst : node.repo.statuses = (s.applyChunks [items]).1.statuses := by
          rw [hw.statuses, hl.statuses]
          simp
        rw [CountedAs, hpass, RepoStore.statuses_refresh]
        refine ⟨?_, ?_⟩
        · exact (RepoStore.statuses_refresh _).trans hst
        · exact RepoStore.refresh_count_congr hs' hl.serving.sound hst
            (hl.count.trans hc.distinctHashCount.symm)
      exact ⟨⟨_, hcounted⟩, _, hcounted⟩
    · exact .ret (fun _ hn => hany _ hn.any) fun _ hn => hany _ hn.any
  exact htriple.crash node hstart node' hcut

end

end Bridge
end Naiad
