import Naiad.Bridge.Rebuild
import Naiad.Lib.Run

/-!
# Naiad.Bridge.SeedRuns

Runs of the seed one after the other, plain or rebuilding, each cut somewhere, until one returns.
What a run finds is told by three marks: the checkpoint and the marker of a rebuild beside the
mappings, the flag of phase 1 in the other database, and whether the hash index is there.

* `Onward`: what phase 1 never undoes, wherever it is cut.
* `Owing`: what the next run still has to load completes what it finds, and what it will not load
  is there.
* `Between`: what a store is between runs.
-/

namespace Naiad
namespace Bridge

open Lib Netproto Server

/-! ## What phase 1 never undoes -/

/-- The rows a plan streams of each table. -/
def SeedPlan.rows (snap : Snapshot) : SeedPlan → SeedPass → List SeedRow
  | .resumeCurrent h, .current => snap.stream .current (some h)
  | .resumeCurrent _, .deleted => snap.deleted
  | .runDeleted _, .current => []
  | .runDeleted start, .deleted => snap.stream .deleted start
  | .freshDeferred, pass => snap.rows pass
  | .selfHealThenIndexed, _ => []
  | .indexed, _ => []

/-- A checkpoint at a row that is streamed. -/
def CheckpointAt (snap : Snapshot) (rows : SeedPass → List SeedRow) (ck : SeedCheckpoint) : Prop :=
  ∃ pass, ∃ row ∈ rows pass, ck = snap.checkpoint pass row.hashId

/-- Rows are only added, a hash once stored twice stays so, a checkpoint is the one there was or
stands at a row streamed, and the submissions are left alone. -/
structure Onward (snap : Snapshot) (rows : SeedPass → List SeedRow) (node₀ node : BridgeNode) :
    Prop where
  grows : Grows node₀.repo.toRepoStore node.repo.toRepoStore
  unique : node.repo.repoHashes.Unique → node₀.repo.repoHashes.Unique
  mark : ∀ ck, node.repo.seedCkpt = some ck →
    node₀.repo.seedCkpt = some ck ∨ CheckpointAt snap rows ck
  submissions : node.repo.submissions = node₀.repo.submissions

/-- The same, with the caches rooted in the rows there are. -/
def Rooting (snap : Snapshot) (rows : SeedPass → List SeedRow) (node₀ : BridgeNode)
    (carry : SeedCarry) (node : BridgeNode) : Prop :=
  Rooted (carry.load node) ∧ Onward snap rows node₀ node

section

variable {snap : Snapshot} {rows : SeedPass → List SeedRow} {node₀ : BridgeNode}

theorem Onward.refl (node : BridgeNode) : Onward snap rows node node :=
  ⟨.refl _, id, fun _ h => .inl h, rfl⟩

/-- A write of the store that leaves the tables, and the checkpoint or none. -/
theorem Rooting.setStore {carry : SeedCarry} {node : BridgeNode}
    (h : Rooting snap rows node₀ carry node) {s : RepoStore}
    (hh : s.repoHashes = node.repo.repoHashes) (ht : s.repoTags = node.repo.repoTags)
    (hm : s.repoMappings = node.repo.repoMappings)
    (hsub : s.submissions = node.repo.submissions)
    (hck : s.seedCkpt = node.repo.seedCkpt ∨ s.seedCkpt = none) :
    Rooting snap rows node₀ carry (node.setStore s) := by
  obtain ⟨hr, ho⟩ := h
  refine ⟨⟨?_, ?_, ?_, ?_⟩, ⟨⟨?_, ?_, ?_⟩, ?_, ?_, hsub.trans ho.submissions⟩⟩
  · exact ht ▸ hr.tags
  · exact hh ▸ hr.hashIds
  · exact ht ▸ hr.tagIds
  · exact hh ▸ hr.carryId
  · exact hh ▸ ho.grows.hashes
  · exact ht ▸ ho.grows.tags
  · exact hm ▸ ho.grows.mappings
  · intro hu
    exact ho.unique (hh ▸ hu)
  · intro ck hsome
    have hsome : s.seedCkpt = some ck := hsome
    rcases hck with hck | hck
    · exact ho.mark ck (hck ▸ hsome)
    · rw [hck] at hsome
      cases hsome

theorem triple_flush_onward (deferred : Bool) {ckpt : Option SeedCheckpoint}
    (hck : ∀ ck, ckpt = some ck → CheckpointAt snap rows ck)
    (items : List (String × String × Bool)) (carry : SeedCarry) :
    Prog.Triple (Rooting snap rows node₀ carry) (flush deferred ckpt items carry)
      (Rooting snap rows node₀) (Onward snap rows node₀) := by
  rw [flush_eq]
  refine .write (fun _ hn => hn.2) ?_
  intro node node' carry' hn happly
  split at happly
  · cases happly
  · rename_i s a hs
    cases happly
    simp only at hs
    split at hs
    · cases hs
    · rename_i st hst
      cases hs
      obtain ⟨hroot, ho⟩ := hn
      have himpl := hst
      rw [show node.repo.toRepoStore = (carry.load node).store from rfl] at himpl
      obtain ⟨hrooted, hgrows, _⟩ := rooted_applyMappingsImpl hroot himpl
      obtain ⟨_, st₁, hitems, heq⟩ := applyMappingsImpl_eq_ok hst
      obtain ⟨_, _, _, hremap⟩ := remapped_applyItems hitems
      have honward : Onward snap rows node₀ (node.setStore st.store) := by
        refine ⟨ho.grows.trans hgrows, ?_, ?_, ?_⟩
        · intro hu
          exact ho.unique (carried_applyMappingsImpl hst hu).1
        rotate_left
        · refine Eq.trans ?_ ho.submissions
          change st.store.submissions = _
          rw [heq]
          simp only [hremap]
        · intro ck hsome
          have hor : ckpt.or node.repo.seedCkpt = some ck := by
            have hsome : st.store.seedCkpt = some ck := hsome
            rw [heq] at hsome
            simpa only [hremap] using hsome
          cases ckpt with
          | none => exact ho.mark ck hor
          | some c =>
            cases hor
            exact .inr (hck ck rfl)
      exact ⟨honward, ⟨hrooted.tags, hrooted.hashIds, hrooted.tagIds, hrooted.carryId⟩, honward⟩

theorem triple_runRows_onward (pass : SeedPass) (deferred : Bool) (todo : List SeedRow)
    (buf : List (String × String × Bool)) (prev : Nat) (carry : SeedCarry)
    (htodo : ∀ row ∈ todo, row ∈ rows pass)
    (hprev : buf = [] ∨ ∃ row ∈ rows pass, row.hashId = prev) :
    Prog.Triple (Rooting snap rows node₀ carry) (runRows snap pass deferred todo buf prev carry)
      (Rooting snap rows node₀) (Onward snap rows node₀) := by
  have hflush : ∀ carry, buf ≠ [] → Prog.Triple (Rooting snap rows node₀ carry)
      (flush deferred (some (snap.checkpoint pass prev)) buf carry) (Rooting snap rows node₀)
      (Onward snap rows node₀) := by
    intro carry hne
    refine triple_flush_onward deferred (fun ck hck => ?_) buf carry
    cases hck
    obtain ⟨row, hrow, rfl⟩ := hprev.resolve_left hne
    exact ⟨pass, row, hrow, rfl⟩
  induction todo generalizing buf prev carry with
  | nil =>
    simp only [runRows]
    split
    · exact .ret (fun _ hn => hn.2) fun _ hn => hn
    · rename_i hne
      exact hflush carry hne
  | cons row todo ih =>
    have hrow := htodo row List.mem_cons_self
    have hrest : ∀ r ∈ todo, r ∈ rows pass := fun r hr => htodo r (List.mem_cons_of_mem _ hr)
    have hnext : ∀ buf' carry, Prog.Triple (Rooting snap rows node₀ carry)
        (runRows snap pass deferred todo buf' row.hashId carry) (Rooting snap rows node₀)
        (Onward snap rows node₀) := by
      intro buf' carry
      refine ih buf' row.hashId carry hrest (.inr ⟨row, hrow, rfl⟩) ?_
      intro carry _
      refine triple_flush_onward deferred (fun ck hck => ?_) buf' carry
      cases hck
      exact ⟨pass, row, hrow, rfl⟩
    simp only [runRows]
    split
    · rename_i hfull
      have hne : buf ≠ [] := by
        intro hnil
        rw [hnil] at hfull
        simp [chunkSize] at hfull
      exact (hflush carry hne).bind fun carry' => hnext _ carry'
    · exact hnext _ carry

theorem triple_runPass_onward (pass : SeedPass) (deferred : Bool) (start : Option Nat)
    (carry : SeedCarry) (hrows : ∀ row ∈ snap.stream pass start, row ∈ rows pass) :
    Prog.Triple (Rooting snap rows node₀ carry) (runPass snap pass deferred start carry)
      (Rooting snap rows node₀) (Onward snap rows node₀) :=
  triple_runRows_onward pass deferred _ [] 0 carry hrows (.inl rfl)

theorem triple_runChunks_onward (chunks : List (List (String × String × Bool)))
    (carry : SeedCarry) :
    Prog.Triple (Rooting snap rows node₀ carry) (runChunks chunks carry)
      (Rooting snap rows node₀) (Onward snap rows node₀) := by
  induction chunks generalizing carry with
  | nil => exact .ret (fun _ hn => hn.2) fun _ hn => hn
  | cons chunk chunks ih =>
    exact (triple_flush_onward false (by simp) chunk carry).bind ih

theorem triple_dropIndex_onward (carry : SeedCarry) :
    Prog.Triple (Rooting snap rows node₀ carry) dropHashUniqueIndex
      (fun _ => Rooting snap rows node₀ carry) (Onward snap rows node₀) := by
  refine .put (fun _ hn => hn.2) fun node hn => ?_
  have hnext := hn.setStore (s := { node.repo.toRepoStore with hashUniqueIndex := false }) rfl rfl
    rfl rfl (.inl rfl)
  exact ⟨hnext.2, hnext⟩

theorem triple_buildIndex_onward (carry : SeedCarry) :
    Prog.Triple (Rooting snap rows node₀ carry) buildHashUniqueIndex
      (fun _ => Rooting snap rows node₀ carry) (Onward snap rows node₀) := by
  refine .write (fun _ hn => hn.2) ?_
  intro node node' a hn hbuild
  split at hbuild
  · cases hbuild
    have hnext := hn.setStore (s := { node.repo.toRepoStore with hashUniqueIndex := true }) rfl rfl
      rfl rfl (.inl rfl)
    exact ⟨hnext.2, hnext⟩
  · cases hbuild

theorem triple_runPlan_onward (plan : SeedPlan) (carry : SeedCarry) :
    Prog.Triple (Rooting snap (plan.rows snap) node₀ carry) (runPlan snap plan carry)
      (Rooting snap (plan.rows snap) node₀) (Onward snap (plan.rows snap) node₀) := by
  cases plan with
  | freshDeferred =>
    refine (triple_dropIndex_onward carry).bind fun _ => ?_
    refine (triple_runPass_onward .current true none carry fun _ hr => hr).bind fun carry => ?_
    refine (triple_buildIndex_onward carry).bind fun _ => ?_
    exact triple_runPass_onward .deleted false none carry fun _ hr => hr
  | resumeCurrent h =>
    refine (triple_runPass_onward .current true (some h) carry fun _ hr => hr).bind fun carry => ?_
    refine (triple_buildIndex_onward carry).bind fun _ => ?_
    exact triple_runPass_onward .deleted false none carry fun _ hr => hr
  | runDeleted start => exact triple_runPass_onward .deleted false start carry fun _ hr => hr
  | selfHealThenIndexed =>
    refine (triple_buildIndex_onward carry).bind fun _ => ?_
    exact triple_runChunks_onward _ carry
  | indexed => exact triple_runChunks_onward _ carry

theorem triple_mappingsPhase_onward (ckpt : Option SeedCheckpoint)
    (htags : node₀.repo.repoTags.Unique) :
    Prog.Triple (fun node => node = node₀) (mappingsPhase snap ckpt) (fun _ _ => True)
      (Onward snap ((choosePlan snap ckpt node₀.repo.toRepoStore).rows snap) node₀) := by
  let plan := choosePlan snap ckpt node₀.repo.toRepoStore
  have hroot : Rooted ((⟨.empty, node₀.repo.mappingCursor⟩ : SeedCarry).load node₀) :=
    ⟨htags, fun k id hl => by simp [SeedCarry.load, InternCaches.empty] at hl,
      fun t id hl => by simp [SeedCarry.load, InternCaches.empty] at hl,
      fun k id hc => by simp [SeedCarry.load, InternCaches.empty] at hc⟩
  unfold mappingsPhase
  refine Prog.Triple.bind
    (Q := fun carry node => node = node₀ ∧ Rooting snap (plan.rows snap) node₀ carry node)
    (.read (fun node hn => hn ▸ .refl node) ?_) fun carry => ?_
  · intro node carry hn hread
    subst hn
    cases hread
    exact ⟨rfl, hroot, .refl node⟩
  refine Prog.Triple.bind
    (Q := fun p node => p = plan ∧ Rooting snap (plan.rows snap) node₀ carry node)
    (.read (fun node hn => hn.2.2) ?_) fun p => ?_
  · intro node p hn hread
    obtain ⟨rfl, hrooting⟩ := hn
    cases hread
    exact ⟨rfl, hrooting⟩
  by_cases hp : p = plan
  rotate_left
  · exact ⟨fun node hn => absurd hn.1 hp, fun node _ _ hn => absurd hn.1 hp⟩
  subst hp
  refine Prog.Triple.bind (Q := fun carry => Rooting snap (plan.rows snap) node₀ carry)
    ((triple_runPlan_onward plan carry).conseq (fun _ hn => hn.2) (fun _ _ hn => hn) fun _ hn => hn)
    fun carry => ?_
  refine Prog.Triple.bind (Q := fun _ => Rooting snap (plan.rows snap) node₀ carry)
    (.put (fun _ hn => hn.2) fun node hn => ?_) fun _ => ?_
  · have hnext := hn.setStore (s := { node.repo.toRepoStore with seedCkpt := none }) rfl rfl rfl
      rfl (.inr rfl)
    exact ⟨hnext.2, hnext⟩
  · refine .put (fun _ hn => hn.2) fun node hn => ⟨?_, trivial⟩
    exact ⟨hn.2.grows, hn.2.unique, hn.2.mark, hn.2.submissions⟩

end

/-! ## What a run still has to load -/

/-- The items a run from this checkpoint loads. -/
def owedItems (snap : Snapshot) (ck : Option SeedCheckpoint) (index : Bool) :
    List (String × String × Bool) :=
  match ck with
  | none => snap.items
  | some c =>
    match c.pass with
    | .current =>
      if index then passItems .deleted snap.deleted
      else passItems .current (snap.stream .current (some c.highWater)) ++
        passItems .deleted snap.deleted
    | .deleted => passItems .deleted (snap.stream .deleted (some c.highWater))

/-- The rows it takes for loaded: those up to the mark, and with the index there all current ones. -/
def Behind (ck : SeedCheckpoint) (index : Bool) : SeedPass → SeedRow → Prop
  | .current, row => ck.pass = .deleted ∨ index = true ∨ row.hashId ≤ ck.highWater
  | .deleted, row => ck.pass = .deleted ∧ row.hashId ≤ ck.highWater

/-- What a snapshot and the submissions log on top of it come to. -/
def restoredStatuses (snap : Snapshot) (log : List LoggedSubmission) :
    Hash × String → Option MappingStatus :=
  writeAll (writeAll (fun _ => none) (snap.items.filterMap bulkWrite)) (log.filterMap logWrite)

/-- The log on top of these statuses restores the store. -/
def Completes (snap : Snapshot) (log : List LoggedSubmission)
    (f : Hash × String → Option MappingStatus) : Prop :=
  writeAll f (log.filterMap logWrite) = restoredStatuses snap log

/-- Phase 1 is not done: what the next run loads completes what is there. -/
structure Owing (snap : Snapshot) (log : List LoggedSubmission) (node : BridgeNode) : Prop where
  flag : node.state.seedPhaseMappings = false
  startable : Startable snap node.repo.seedCkpt node
  ofSnapshot : ∀ ck, node.repo.seedCkpt = some ck → ∃ pass hw, ck = snap.checkpoint pass hw
  behind : ∀ ck, node.repo.seedCkpt = some ck → ∀ pass, ∀ row ∈ snap.rows pass,
    Behind ck node.repo.hashUniqueIndex pass row →
    Present node.repo.toRepoStore (row.item (SeedPass.isDelete pass))
  debt : node.repo.repoHashes.Unique → Completes snap log
    (writeAll node.repo.statuses
      ((owedItems snap node.repo.seedCkpt node.repo.hashUniqueIndex).filterMap bulkWrite))

section

variable {snap : Snapshot} {log : List LoggedSubmission} {node₀ node : BridgeNode}

theorem items_choosePlan (ck : Option SeedCheckpoint) (s : RepoStore) :
    (choosePlan snap ck s).items snap = owedItems snap ck s.hashUniqueIndex := by
  cases ck with
  | none => exact items_of_none s
  | some c =>
    obtain ⟨v, pass, highWater, serviceId, fp⟩ := c
    cases pass with
    | current =>
      cases h : s.hashUniqueIndex with
      | false => simp [choosePlan, owedItems, SeedPlan.items, h]
      | true => simp [choosePlan, owedItems, SeedPlan.items, Snapshot.stream, Snapshot.rows, h]
    | deleted => rfl

theorem snapshot_items (snap : Snapshot) :
    snap.items = passItems .current snap.current ++ passItems .deleted snap.deleted := rfl

/-- Loading the whole snapshot again changes nothing that is not settled. -/
theorem Completes.again {f : Hash × String → Option MappingStatus} (h : Completes snap log f) :
    Completes snap log (writeAll f (snap.items.filterMap bulkWrite)) := by
  funext k
  have hk := congrFun h k
  rw [restoredStatuses, writeAll_apply, writeAll_apply, writeAll_apply] at hk
  rw [restoredStatuses, writeAll_apply, writeAll_apply, writeAll_apply, writeAll_apply]
  cases hlog : lastWrite (log.filterMap logWrite) k with
  | some v => rfl
  | none =>
    cases hsnap : lastWrite (snap.items.filterMap bulkWrite) k with
    | some v => rfl
    | none => simpa [hlog, hsnap] using hk

/-- The rows of a pass from `start`, cut at a mark no lower than it: the rest is what lies past the
mark, and a row up to it was written or lay before the start. -/
theorem stream_cut {pass : SeedPass} {start : Option Nat} {pre rest : List SeedRow} {hw : Nat}
    (hall : snap.stream pass start = pre ++ rest) (hstart : ∀ h, start = some h → h ≤ hw)
    (hpre : ∀ r ∈ pre, r.hashId ≤ hw) (hrest : ∀ r ∈ rest, hw < r.hashId) :
    snap.stream pass (some hw) = rest ∧ ∀ row ∈ snap.rows pass, row.hashId ≤ hw →
      (∃ h, start = some h ∧ row.hashId ≤ h) ∨ row ∈ pre := by
  have hcut : (pre ++ rest).filter (fun row => hw < row.hashId) = rest := by
    rw [List.filter_append, List.filter_eq_nil_iff.2, List.filter_eq_self.2, List.nil_append]
    · exact fun r hr => by simpa using hrest r hr
    · intro r hr
      have hle := hpre r hr
      simpa using hle
  have hmem : ∀ row ∈ pre ++ rest, row.hashId ≤ hw → row ∈ pre := by
    intro row hrow hle
    rcases List.mem_append.1 hrow with h | h
    · exact h
    · have hlt := hrest row h
      omega
  cases start with
  | none =>
    have hrows : snap.rows pass = pre ++ rest := hall
    refine ⟨by rw [Snapshot.stream, hrows, hcut], ?_⟩
    intro row hrow hle
    rw [hrows] at hrow
    exact .inr (hmem row hrow hle)
  | some h =>
    have hle := hstart h rfl
    refine ⟨?_, ?_⟩
    · rw [← hcut, ← hall, Snapshot.stream, Snapshot.stream, List.filter_filter]
      refine List.filter_congr fun row _ => ?_
      rw [← Bool.decide_and]
      exact decide_eq_decide.2 ⟨fun hlt => ⟨hlt, by omega⟩, fun hlt => hlt.1⟩
    · intro row hrow hrowle
      by_cases hh : row.hashId ≤ h
      · exact .inl ⟨h, rfl, hh⟩
      · refine .inr (hmem row ?_ hrowle)
        rw [← hall, Snapshot.stream, List.mem_filter]
        exact ⟨hrow, by simpa using hh⟩

/-- A cut of phase 1 still owes what completes it. -/
theorem Owing.of_loading (h₀ : Owing snap log node₀) {rows : SeedPass → List SeedRow}
    (ho : Onward snap rows node₀ node) {deferred : Bool} {done : List (String × String × Bool)}
    {ck : Option SeedCheckpoint} {carry : SeedCarry}
    (hl : Loading node₀ node₀.repo.statuses deferred done ck carry node)
    (hsnap : ∀ c, ck = some c → snap.hashOrdered = true ∧ ∃ pass hw, c = snap.checkpoint pass hw)
    (hdeleted : ∀ c, ck = some c → c.pass = .deleted → deferred = false)
    (hbehind : ∀ c, ck = some c → ∀ pass, ∀ row ∈ snap.rows pass, Behind c (!deferred) pass row →
      row.item (SeedPass.isDelete pass) ∈ done ∨ ∃ c₀, node₀.repo.seedCkpt = some c₀ ∧
        Behind c₀ node₀.repo.hashUniqueIndex pass row)
    (hdebt : Completes snap log (writeAll node₀.repo.statuses
        ((owedItems snap node₀.repo.seedCkpt node₀.repo.hashUniqueIndex).filterMap bulkWrite)) →
      Completes snap log (writeAll (writeAll node₀.repo.statuses (done.filterMap bulkWrite))
        ((owedItems snap ck (!deferred)).filterMap bulkWrite))) :
    Owing snap log node where
  flag := by
    rw [hl.apart.state]
    exact h₀.flag
  startable := by
    refine ⟨hl.rooted.tags, ?_, fun hu => (hl.carried hu).sound, ?_, ?_⟩
    · intro hi
      rw [hl.index] at hi
      exact hl.unique (by simpa using hi)
    · intro c hc hpass
      rw [hl.ckpt] at hc
      rw [hl.index, hdeleted c hc hpass]
      rfl
    · intro hsome
      obtain ⟨c, hc⟩ := Option.isSome_iff_exists.1 hsome
      rw [hl.ckpt] at hc
      exact (hsnap c hc).1
  ofSnapshot c hc := by
    rw [hl.ckpt] at hc
    exact (hsnap c hc).2
  behind c hc pass row hrow hb := by
    rw [hl.ckpt] at hc
    rw [hl.index] at hb
    rcases hbehind c hc pass row hrow hb with hdone | ⟨c₀, hc₀, hb₀⟩
    · exact hl.present _ hdone
    · exact (h₀.behind c₀ hc₀ pass row hrow hb₀).grows ho.grows
  debt hu := by
    rw [hl.statuses hu, hl.ckpt, hl.index]
    exact hdebt (h₀.debt (ho.unique hu))

/-! ## Phase 1, cut -/

/-- When the items done and those owed now are those owed before. -/
theorem completes_of_append {f : Hash × String → Option MappingStatus}
    {done owed owed₀ : List (String × String × Bool)} (h : done ++ owed = owed₀)
    (hdebt : Completes snap log (writeAll f (owed₀.filterMap bulkWrite))) :
    Completes snap log
      (writeAll (writeAll f (done.filterMap bulkWrite)) (owed.filterMap bulkWrite)) := by
  rw [← writeAll_append, ← List.filterMap_append, h]
  exact hdebt

theorem checkpoint_inj {pass pass' : SeedPass} {hw hw' : Nat}
    (h : snap.checkpoint pass hw = snap.checkpoint pass' hw') : pass = pass' ∧ hw = hw' := by
  simpa [Snapshot.checkpoint] using h

/-- Nothing loaded yet: what is owed is owed as before. -/
theorem Owing.of_nothing (h₀ : Owing snap log node₀) {rows : SeedPass → List SeedRow}
    (ho : Onward snap rows node₀ node) {deferred : Bool} {carry : SeedCarry}
    (hl : Loading node₀ node₀.repo.statuses deferred [] node₀.repo.seedCkpt carry node)
    (hindex : node₀.repo.seedCkpt = none ∨ node₀.repo.hashUniqueIndex = !deferred) :
    Owing snap log node := by
  refine h₀.of_loading ho hl ?_ ?_ ?_ ?_
  · intro c hc
    exact ⟨h₀.startable.ordered (by rw [hc]; rfl), h₀.ofSnapshot c hc⟩
  · intro c hc hpass
    have hon := h₀.startable.index c hc hpass
    rcases hindex with hnone | hindex
    · rw [hc] at hnone
      cases hnone
    · rw [hindex] at hon
      simpa using hon
  · intro c hc pass row hrow hb
    rcases hindex with hnone | hindex
    · rw [hc] at hnone
      cases hnone
    · exact .inr ⟨c, hc, hindex ▸ hb⟩
  · refine completes_of_append ?_
    rcases hindex with hnone | hindex
    · rw [hnone]
      rfl
    · rw [hindex]
      rfl

/-- The current pass starts at the checkpoint of the current pass, if there is one. -/
structure StartsCurrent (snap : Snapshot) (node₀ : BridgeNode) (start : Option Nat) : Prop where
  ordered : snap.hashOrdered = true
  ckpt : node₀.repo.seedCkpt = start.map (snap.checkpoint .current)
  index : start = none ∨ node₀.repo.hashUniqueIndex = false

theorem StartsCurrent.owed {start : Option Nat} (hs : StartsCurrent snap node₀ start) :
    owedItems snap node₀.repo.seedCkpt node₀.repo.hashUniqueIndex =
      passItems .current (snap.stream .current start) ++ passItems .deleted snap.deleted := by
  rw [hs.ckpt]
  rcases hs.index with rfl | hindex
  · rfl
  · rw [hindex]
    cases start with
    | none => rfl
    | some h => rfl

/-- The rows before the start are behind the checkpoint the run was resumed from. -/
theorem StartsCurrent.behind {start : Option Nat} (hs : StartsCurrent snap node₀ start)
    {row : SeedRow} {h : Nat} (hstart : start = some h) (hle : row.hashId ≤ h) :
    ∃ c₀, node₀.repo.seedCkpt = some c₀ ∧
      Behind c₀ node₀.repo.hashUniqueIndex .current row :=
  ⟨snap.checkpoint .current h, by rw [hs.ckpt, hstart]; rfl, .inr (.inr hle)⟩

/-- A row of the current table is streamed, or lies before the start. -/
theorem StartsCurrent.mem {start : Option Nat} (hs : StartsCurrent snap node₀ start)
    {row : SeedRow} (hrow : row ∈ snap.current) :
    row ∈ snap.stream .current start ∨ ∃ c₀, node₀.repo.seedCkpt = some c₀ ∧
      Behind c₀ node₀.repo.hashUniqueIndex .current row := by
  cases hstart : start with
  | none => exact .inl hrow
  | some h =>
    by_cases hle : row.hashId ≤ h
    · exact .inr (hs.behind hstart hle)
    · refine .inl (List.mem_filter.2 ⟨hrow, ?_⟩)
      simpa using hle

/-- A mark a pass has left is not before its start. -/
theorem start_le {rows : SeedPass → List SeedRow} (ho : Onward snap rows node₀ node)
    {pass : SeedPass} {start : Option Nat} {hw : Nat}
    (hrows : rows pass = snap.stream pass start)
    (hbefore : ∀ hw', node₀.repo.seedCkpt = some (snap.checkpoint pass hw') → start = some hw')
    (hck : node.repo.seedCkpt = some (snap.checkpoint pass hw)) :
    ∀ h, start = some h → h ≤ hw := by
  intro h hstart
  rcases ho.mark _ hck with hold | ⟨pass', row, hrow, heq⟩
  · have hsame := hbefore hw hold
    rw [hstart] at hsame
    cases hsame
    exact le_refl _
  · obtain ⟨rfl, rfl⟩ := checkpoint_inj heq
    rw [hrows, hstart, Snapshot.stream, List.mem_filter] at hrow
    have hlt : h < row.hashId := by simpa using hrow.2
    exact Nat.le_of_lt hlt

theorem mem_passItems {pass : SeedPass} {row : SeedRow} {all : List SeedRow} (h : row ∈ all) :
    row.item (SeedPass.isDelete pass) ∈ passItems pass all :=
  List.mem_map_of_mem h

/-- Cut in the current pass. -/
theorem Owing.of_currentPass (h₀ : Owing snap log node₀) {rows : SeedPass → List SeedRow}
    (ho : Onward snap rows node₀ node) {start : Option Nat} (hs : StartsCurrent snap node₀ start)
    (hrows : rows .current = snap.stream .current start)
    (hcut : PassingSome snap node₀ node₀.repo.statuses true .current [] node₀.repo.seedCkpt
      (snap.stream .current start) node) : Owing snap log node := by
  obtain ⟨pre, rest, carry, hall, ck', hmark, hl⟩ := hcut
  rcases hmark with ⟨rfl, rfl⟩ | ⟨hw, rfl, hpre, hrest⟩
  · refine h₀.of_nothing ho hl (hs.index.imp_left fun hstart => ?_)
    rw [hs.ckpt, hstart]
    rfl
  have hle := start_le ho hrows (fun hw' hck => by
    rw [hs.ckpt] at hck
    obtain ⟨h, hstart, heq⟩ := Option.map_eq_some_iff.1 hck
    rw [hstart, (checkpoint_inj heq).2]) hl.ckpt
  obtain ⟨htail, hrow⟩ := stream_cut hall hle hpre hrest
  refine h₀.of_loading ho hl ?_ ?_ ?_ ?_
  · intro c hc
    cases hc
    exact ⟨hs.ordered, .current, hw, rfl⟩
  · intro c hc hpass
    cases hc
    cases hpass
  · intro c hc pass row hmem hb
    cases hc
    cases pass with
    | deleted => cases hb.1
    | current =>
      have hrowle : row.hashId ≤ hw := by
        rcases hb with hb | hb | hb
        · cases hb
        · cases hb
        · exact hb
      rcases hrow row hmem hrowle with ⟨h, hstart, hrowh⟩ | hdone
      · exact .inr (hs.behind hstart hrowh)
      · exact .inl (mem_passItems hdone)
  · refine completes_of_append ?_
    rw [hs.owed, hall, passItems_append, List.nil_append, List.append_assoc]
    simp only [owedItems, Snapshot.checkpoint, Bool.not_true, Bool.false_eq_true, if_false, htail]

/-- Cut after the current pass, with the index built again. -/
theorem Owing.of_afterCurrent (h₀ : Owing snap log node₀) {rows : SeedPass → List SeedRow}
    (ho : Onward snap rows node₀ node) {start : Option Nat} (hs : StartsCurrent snap node₀ start)
    {ck₁ : Option SeedCheckpoint}
    (hmark : PassMark snap .current (snap.stream .current start) [] node₀.repo.seedCkpt ck₁)
    (hcut : PassingSome snap node₀ node₀.repo.statuses false .deleted
      (passItems .current (snap.stream .current start)) ck₁ snap.deleted node) :
    Owing snap log node := by
  obtain ⟨pre, rest, carry, hall, ck', hmark', hl⟩ := hcut
  -- whatever the checkpoint, all current rows are there
  have hcurrent : ∀ row ∈ snap.current,
      row.item (SeedPass.isDelete .current) ∈
          passItems .current (snap.stream .current start) ++ passItems .deleted pre ∨
        ∃ c₀, node₀.repo.seedCkpt = some c₀ ∧
          Behind c₀ node₀.repo.hashUniqueIndex .current row := by
    intro row hrow
    rcases hs.mem hrow with hstream | hbefore
    · exact .inl (List.mem_append_left _ (mem_passItems hstream))
    · exact .inr hbefore
  rcases hmark' with ⟨rfl, rfl⟩ | ⟨hw, rfl, hpre, hrest⟩
  · -- no row of the deleted table is written
    have hck : ∀ c, ck' = some c → ∃ hw, c = snap.checkpoint .current hw := by
      intro c hc
      rcases hmark with ⟨_, rfl⟩ | ⟨hw, rfl, _, _⟩
      · rw [hs.ckpt] at hc
        obtain ⟨h, _, rfl⟩ := Option.map_eq_some_iff.1 hc
        exact ⟨h, rfl⟩
      · cases hc
        exact ⟨hw, rfl⟩
    refine h₀.of_loading ho hl ?_ ?_ ?_ ?_
    · intro c hc
      obtain ⟨hw, rfl⟩ := hck c hc
      exact ⟨hs.ordered, .current, hw, rfl⟩
    · exact fun _ _ _ => rfl
    · intro c hc pass row hrow hb
      obtain ⟨hw, rfl⟩ := hck c hc
      cases pass with
      | current => exact hcurrent row hrow
      | deleted => cases hb.1
    · cases hc : ck' with
      | some c =>
        obtain ⟨hw, rfl⟩ := hck c hc
        refine completes_of_append ?_
        rw [hs.owed]
        simp [owedItems, Snapshot.checkpoint, passItems]
      | none =>
        subst hc
        rcases hmark with ⟨hnil, hnone⟩ | ⟨hw, hsome, _, _⟩
        · rw [← hnone]
          refine completes_of_append ?_
          rw [hnil]
          rfl
        · cases hsome
  · have hall' : snap.stream .deleted none = pre ++ rest := hall
    obtain ⟨htail, hrow⟩ := stream_cut hall' (by simp) hpre hrest
    refine h₀.of_loading ho hl ?_ ?_ ?_ ?_
    · intro c hc
      cases hc
      exact ⟨hs.ordered, .deleted, hw, rfl⟩
    · exact fun _ _ _ => rfl
    · intro c hc pass row hmem hb
      cases hc
      cases pass with
      | current => exact hcurrent row hmem
      | deleted =>
        rcases hrow row hmem hb.2 with ⟨h, hstart, _⟩ | hdone
        · cases hstart
        · exact .inl (List.mem_append_right _ (mem_passItems hdone))
    · refine completes_of_append ?_
      rw [hs.owed, List.append_assoc]
      simp only [owedItems, Snapshot.checkpoint, htail, ← passItems_append, ← hall]

/-- Cut in a deleted pass that was resumed, or begun on a store whose current pass was complete. -/
theorem Owing.of_deletedPass (h₀ : Owing snap log node₀) {rows : SeedPass → List SeedRow}
    (ho : Onward snap rows node₀ node) {start : Option Nat} {c₀ : SeedCheckpoint}
    (hc₀ : node₀.repo.seedCkpt = some c₀) (hindex : node₀.repo.hashUniqueIndex = true)
    (hstart : start = if c₀.pass = .deleted then some c₀.highWater else none)
    (hrows : rows .deleted = snap.stream .deleted start)
    (hcut : PassingSome snap node₀ node₀.repo.statuses false .deleted [] node₀.repo.seedCkpt
      (snap.stream .deleted start) node) : Owing snap log node := by
  obtain ⟨pre, rest, carry, hall, ck', hmark, hl⟩ := hcut
  rcases hmark with ⟨rfl, rfl⟩ | ⟨hw, rfl, hpre, hrest⟩
  · exact h₀.of_nothing ho hl (.inr hindex)
  have hle := start_le ho hrows (fun hw' hck => by
    rw [hc₀] at hck
    cases hck
    rw [hstart]
    rfl) hl.ckpt
  obtain ⟨htail, hrow⟩ := stream_cut hall hle hpre hrest
  have howed : owedItems snap node₀.repo.seedCkpt node₀.repo.hashUniqueIndex =
      passItems .deleted (snap.stream .deleted start) := by
    rw [hc₀, hindex, hstart, owedItems]
    cases hpass : c₀.pass with
    | current => rfl
    | deleted => rfl
  refine h₀.of_loading ho hl ?_ ?_ ?_ ?_
  · intro c hc
    cases hc
    exact ⟨h₀.startable.ordered (by rw [hc₀]; rfl), .deleted, hw, rfl⟩
  · exact fun _ _ _ => rfl
  · intro c hc pass row hmem hb
    cases hc
    cases pass with
    | current => exact .inr ⟨c₀, hc₀, .inr (.inl hindex)⟩
    | deleted =>
      rcases hrow row hmem hb.2 with ⟨h, hh, hrowh⟩ | hdone
      · rw [hstart] at hh
        split at hh
        · rename_i hpass
          cases hh
          exact .inr ⟨c₀, hc₀, hpass, hrowh⟩
        · cases hh
      · exact .inl (mem_passItems hdone)
  · refine completes_of_append ?_
    rw [howed, hall, passItems_append, List.nil_append]
    simp only [owedItems, Snapshot.checkpoint, htail]

/-- Cut in an indexed load, which begins anew whenever it is run. -/
theorem Owing.of_indexed (h₀ : Owing snap log node₀) {rows : SeedPass → List SeedRow}
    (ho : Onward snap rows node₀ node) (hnone : node₀.repo.seedCkpt = none)
    (hcut : IndexedCut snap node₀ node₀.repo.statuses node₀.repo.seedCkpt node) :
    Owing snap log node := by
  obtain ⟨done, rest, carry, hall, hl⟩ := hcut
  rw [hnone] at hl
  refine h₀.of_loading ho hl (by simp) (by simp) (by simp) ?_
  intro hdebt
  rw [hnone] at hdebt
  change Completes snap log (writeAll node₀.repo.statuses (snap.items.filterMap bulkWrite)) at hdebt
  change Completes snap log (writeAll (writeAll node₀.repo.statuses (done.filterMap bulkWrite))
    (snap.items.filterMap bulkWrite))
  rw [writeAll_replay]
  · exact hdebt
  · rw [hall, List.filterMap_append]
    exact List.subset_append_left _ _

theorem Owing.of_planCut (h₀ : Owing snap log node₀) {plan : SeedPlan}
    (hplan : plan = choosePlan snap node₀.repo.seedCkpt node₀.repo.toRepoStore)
    (ho : Onward snap (plan.rows snap) node₀ node)
    (hcut : PlanCut snap node₀ node₀.repo.statuses node₀.repo.seedCkpt plan node) :
    Owing snap log node := by
  cases hck : node₀.repo.seedCkpt with
  | none =>
    rw [hck] at hplan
    cases hindex : node₀.repo.hashUniqueIndex with
    | false =>
      have hplan : plan = .selfHealThenIndexed := by rw [hplan]; simp [choosePlan, hindex]
      subst hplan
      rcases hcut with ⟨carry, hl⟩ | hcut
      · exact h₀.of_nothing ho hl (.inl hck)
      · exact h₀.of_indexed ho hck hcut
    | true =>
      by_cases hfresh : node₀.repo.repoHashes.rows = [] ∧ snap.hashOrdered = true
      · have hplan : plan = .freshDeferred := by rw [hplan]; simp [choosePlan, hindex, hfresh]
        subst hplan
        have hs : StartsCurrent snap node₀ none := ⟨hfresh.2, hck, .inl rfl⟩
        rcases hcut with ⟨carry, hl⟩ | hcut | ⟨ck₁, hmark, hcut⟩
        · exact h₀.of_nothing ho hl (.inl hck)
        · exact h₀.of_currentPass ho hs rfl hcut
        · exact h₀.of_afterCurrent ho hs hmark hcut
      · have hplan : plan = .indexed := by rw [hplan]; simp [choosePlan, hindex, hfresh]
        subst hplan
        exact h₀.of_indexed ho hck hcut
  | some c =>
    rw [hck] at hplan
    obtain ⟨pass, hw, rfl⟩ := h₀.ofSnapshot c hck
    cases pass with
    | current =>
      cases hindex : node₀.repo.hashUniqueIndex with
      | false =>
        have hplan : plan = .resumeCurrent hw := by
          rw [hplan]
          simp [choosePlan, Snapshot.checkpoint, hindex]
        subst hplan
        have hs : StartsCurrent snap node₀ (some hw) :=
          ⟨h₀.startable.ordered (by rw [hck]; rfl), hck, .inr hindex⟩
        rcases hcut with hcut | ⟨ck₁, hmark, hcut⟩
        · exact h₀.of_currentPass ho hs rfl hcut
        · exact h₀.of_afterCurrent ho hs hmark hcut
      | true =>
        have hplan : plan = .runDeleted none := by
          rw [hplan]
          simp [choosePlan, Snapshot.checkpoint, hindex]
        subst hplan
        exact h₀.of_deletedPass ho hck hindex rfl rfl hcut
    | deleted =>
      have hplan : plan = .runDeleted (some hw) := hplan
      subst hplan
      exact h₀.of_deletedPass ho hck (h₀.startable.index _ hck rfl) rfl rfl hcut

/-- Phase 1 is done, and the log on top of the mappings restores the store. -/
structure Complete (snap : Snapshot) (log : List LoggedSubmission) (node : BridgeNode) : Prop where
  flag : node.state.seedPhaseMappings = true
  serving : Serving node.repo.toRepoStore
  ckpt : node.repo.seedCkpt = none
  completes : Completes snap log node.repo.statuses

theorem Owing.complete (h₀ : Owing snap log node₀) {rows : SeedPass → List SeedRow}
    (ho : Onward snap rows node₀ node)
    (hdone : PhaseDone snap node₀
      (choosePlan snap node₀.repo.seedCkpt node₀.repo.toRepoStore) node) :
    Complete snap log node := by
  have hu : node₀.repo.repoHashes.Unique := ho.unique hdone.serving.sound.hashes
  refine ⟨by rw [hdone.apart.state], hdone.serving, hdone.ckpt, ?_⟩
  rw [hdone.statuses, items_choosePlan]
  exact h₀.debt hu

/-- Cut in phase 1, or right behind it. -/
theorem Owing.of_phaseCut (h₀ : Owing snap log node₀) {plan : SeedPlan}
    (hplan : plan = choosePlan snap node₀.repo.seedCkpt node₀.repo.toRepoStore)
    (ho : Onward snap (plan.rows snap) node₀ node) (hcut : PhaseCut snap node₀ plan node) :
    Owing snap log node ∨ Complete snap log node := by
  rcases hcut with hcut | ⟨carry, hl⟩ | hdone
  · exact .inl (h₀.of_planCut hplan ho hcut)
  · -- the checkpoint is cleared and the flag not set: the next run begins anew
    refine .inl (h₀.of_loading ho hl (by simp) (by simp) (by simp) fun hdebt => ?_)
    rw [hplan, items_choosePlan]
    exact hdebt.again
  · rw [hplan] at hdone
    exact .inr (h₀.complete ho hdone)

theorem Complete.kept (h : Complete snap log node₀) (hk : Kept node₀ node) :
    Complete snap log node :=
  ⟨hk.seedPhaseMappings.trans h.flag, hk.serving h.serving, hk.seedCkpt.trans h.ckpt, by
    rw [hk.statuses]; exact h.completes⟩

/-- The log on top once more, or for the first time. -/
theorem Complete.replayed (h : Complete snap log node₀) (hlog : node₀.repo.submissions = log)
    (hr : Replayed node₀ node) :
    Complete snap log node ∧ node.repo.statuses = restoredStatuses snap log := by
  have hst : node.repo.statuses = restoredStatuses snap log := by
    rw [hr.statuses, hlog]
    exact h.completes
  refine ⟨⟨by rw [hr.state]; exact h.flag, hr.serving, hr.seedCkpt.trans h.ckpt, ?_⟩, hst⟩
  rw [hst, Completes, restoredStatuses, writeAll_replay (List.Subset.refl _)]

/-! ## A store between runs -/

/-- A store between runs: a rebuild is begun that will start over, phase 1 is still owed, or it is
done. -/
structure Between (snap : Snapshot) (log : List LoggedSubmission) (node : BridgeNode) : Prop where
  tags : node.repo.repoTags.Unique
  submissions : node.repo.submissions = log
  phase : (node.repo.rebuildInProgress = true ∧ node.repo.seedCkpt = none) ∨ Owing snap log node ∨
    Complete snap log node

theorem Owing.validCkpt (h : Owing snap log node) :
    node.validCkpt snap = node.repo.seedCkpt := by
  unfold BridgeNode.validCkpt
  cases hck : node.repo.seedCkpt with
  | none => rfl
  | some c =>
    obtain ⟨pass, hw, rfl⟩ := h.ofSnapshot c hck
    simp [Snapshot.checkpoint]

theorem Owing.mark (h : Owing snap log node) : Owing snap log node.mark where
  flag := h.flag
  startable := ⟨h.startable.tags, h.startable.unique,
    fun hu => sound_of_tables (h.startable.sound hu) rfl rfl rfl, h.startable.index,
    h.startable.ordered⟩
  ofSnapshot := h.ofSnapshot
  behind := h.behind
  debt := h.debt

/-- After a full clear everything is owed. -/
theorem owing_forget (ht : node.repo.repoTags.Unique) :
    Owing snap log node.mark.clear.unflag.forget where
  flag := rfl
  startable := startable_forget ht
  ofSnapshot c hc := by cases hc
  behind c hc := by cases hc
  debt _ := by
    rw [statuses_forget]
    rfl

/-- Where the end of a run is cut. -/
def Ending (rebuild : Bool) (b node : BridgeNode) : Prop :=
  if rebuild then Marked b node ∨ Replayed b node else Kept b node

theorem triple_finish_cut (rebuild : Bool) (generation : String) (b : BridgeNode)
    (hs : Serving b.repo.toRepoStore) :
    Prog.Triple (fun node => node = b) (finish rebuild generation) (fun _ => Ended rebuild b)
      (Ending rebuild b) := by
  cases rebuild with
  | false => exact triple_finishPlain generation
  | true =>
    change Prog.Triple _ (finishRebuild generation) _ _
    rw [finishRebuild_eq]
    refine ((triple_replayLog generation hs).conseq (fun _ hn => hn) (fun _ _ hn => hn)
      fun _ hn => .inl hn).bind fun _ => ?_
    refine .put (fun _ hn => .inl hn.2) fun node hn => ?_
    have hr := replayed_clearMarker hn.1
    exact ⟨.inr hr, hr, rfl⟩

/-- A run from phase 1 on. -/
theorem triple_body (bridge : Signer) (ts : Int) (generation : String) (rebuild : Bool)
    (hlog : node₀.repo.submissions = log)
    (hphase : Owing snap log node₀ ∨ Complete snap log node₀)
    (hmarker : rebuild = true → node₀.repo.rebuildInProgress = true) :
    Prog.Triple (fun node => node = node₀)
      (bodyWith snap bridge ts rebuild node₀.repo.seedCkpt (finish rebuild generation))
      (fun _ node => rebuild = true ∨ log = [] → node.repo.statuses = restoredStatuses snap log)
      (Between snap log) := by
  let plan := choosePlan snap node₀.repo.seedCkpt node₀.repo.toRepoStore
  have howing : node₀.state.seedPhaseMappings = false → Owing snap log node₀ := by
    intro hflag
    refine hphase.resolve_right fun hc => ?_
    rw [hc.flag] at hflag
    cases hflag
  have hdone : node₀.state.seedPhaseMappings = true → Complete snap log node₀ := by
    intro hflag
    refine hphase.resolve_left fun ho => ?_
    rw [ho.flag] at hflag
    cases hflag
  -- once phase 1 is behind, the store is complete, and its marker is as it was
  have hmapped : ∀ a, Mapped snap node₀.repo.seedCkpt node₀ a →
      (node₀.state.seedPhaseMappings = false → Onward snap (plan.rows snap) node₀ a) →
      Complete snap log a ∧ a.repo.submissions = log ∧
        a.repo.rebuildInProgress = node₀.repo.rebuildInProgress := by
    intro a ha honward
    unfold Mapped at ha
    split at ha
    · rename_i hflag
      rw [ha]
      exact ⟨hdone hflag, hlog, rfl⟩
    · rename_i hflag
      have hflag : node₀.state.seedPhaseMappings = false := by simpa using hflag
      have ho := honward hflag
      exact ⟨(howing hflag).complete ho ha, ho.submissions.trans hlog, ha.apart.rebuildInProgress⟩
  have hbetween : ∀ node, Complete snap log node → node.repo.submissions = log →
      Between snap log node := fun node hc hl => ⟨hc.serving.sound.tags, hl, .inr (.inr hc)⟩
  refine (triple_bodyWith_of (D := Onward snap (plan.rows snap) node₀)
    (M := fun node => PhaseCut snap node₀ plan node ∧ Onward snap (plan.rows snap) node₀ node)
    bridge ts rebuild node₀.repo.seedCkpt (fun hflag => (hdone hflag).serving) (fun hflag => ?_)
    (fun b hs => triple_finish_cut rebuild generation b hs) ?_ ?_ ?_).conseq (fun _ hn => hn) ?_
    fun _ hn => hn
  · have hstart := (howing hflag).startable
    have honward := (@triple_mappingsPhase_onward snap _ node₀.repo.seedCkpt hstart.tags).withCrash
    refine ((triple_mappingsPhase hstart).and honward).conseq (fun _ hn => ⟨hn, hn⟩) ?_
      fun _ hn => hn
    exact fun _ node hn => ⟨hn.1, hn.2.2⟩
  · intro node hflag hn
    obtain ⟨hcut, ho⟩ := hn
    have hl : node.repo.submissions = log := ho.submissions.trans hlog
    rcases (howing hflag).of_phaseCut rfl ho hcut with hnext | hnext
    · exact ⟨hnext.startable.tags, hl, .inr (.inl hnext)⟩
    · exact hbetween node hnext hl
  · intro a node ha hd hkept
    obtain ⟨hc, hl, _⟩ := hmapped a ha hd
    exact hbetween node (hc.kept hkept) (hkept.submissions.trans hl)
  · intro a b node ha hd hkept hend
    obtain ⟨hc, hl, hm⟩ := hmapped a ha hd
    have hcb := hc.kept hkept
    have hlb := hkept.submissions.trans hl
    cases rebuild with
    | false =>
      have hend : Kept b node := hend
      exact hbetween node (hcb.kept hend) (hend.submissions.trans hlb)
    | true =>
      rcases hend with hmarked | hreplayed
      · refine ⟨hmarked.serving.sound.tags, hmarked.submissions.trans hlb, .inl ⟨?_, ?_⟩⟩
        · rw [hmarked.rebuildInProgress, hkept.rebuildInProgress, hm]
          exact hmarker rfl
        · exact hmarked.seedCkpt.trans hcb.ckpt
      · exact hbetween node (hcb.replayed hlb hreplayed).1 (hreplayed.submissions.trans hlb)
  · intro _ node hn hwant
    obtain ⟨a, b, ha, hd, hkept, _, hend⟩ := hn
    obtain ⟨hc, hl, _⟩ := hmapped a ha hd
    have hcb := hc.kept hkept
    have hlb := hkept.submissions.trans hl
    cases rebuild with
    | true => exact (hcb.replayed hlb hend.1).2
    | false =>
      have hend : Kept b node := hend
      have hnil : log = [] := hwant.resolve_left (by simp)
      have hdone := (hcb.kept hend).completes
      rw [hnil] at hdone ⊢
      exact hdone

end

/-! ## Runs -/

/-- A run of the seed that is cut after some number of writes. -/
structure Attempt where
  rebuild : Bool
  bridge : Signer
  ts : Int
  generation : String
  cut : Nat

def Attempt.prog (snap : Snapshot) (a : Attempt) : BridgeM Unit :=
  seedRun snap a.bridge a.ts a.generation a.rebuild

def attempt (snap : Snapshot) (node : BridgeNode) (a : Attempt) : BridgeNode :=
  (a.prog snap).cutAt a.cut node

/-- A rebuild begun over the checkpoint of a plain seed is not cut while the tables are cleared and
the checkpoint is not. -/
def Spares (node : BridgeNode) (a : Attempt) : Prop :=
  a.rebuild = true → node.repo.rebuildInProgress = false → node.repo.seedCkpt.isSome = true →
    a.cut ≠ 2 ∧ a.cut ≠ 3

instance decidableSpares (node : BridgeNode) (a : Attempt) : Decidable (Spares node a) :=
  inferInstanceAs (Decidable (_ → _))

/-- A store that no seed has touched: what it holds are submissions. -/
structure Unseeded (node : BridgeNode) : Prop where
  serving : Serving node.repo.toRepoStore
  ckpt : node.repo.seedCkpt = none
  marker : node.repo.rebuildInProgress = false
  flag : node.state.seedPhaseMappings = false
  submitted : node.repo.statuses =
    writeAll (fun _ => none) (node.repo.submissions.filterMap logWrite)

section

variable {snap : Snapshot} {log : List LoggedSubmission} {node : BridgeNode}

theorem Unseeded.between (h : Unseeded node) : Between snap node.repo.submissions node := by
  refine ⟨h.serving.sound.tags, rfl, .inr (.inl ⟨h.flag, ?_, ?_, ?_, ?_⟩)⟩
  · rw [h.ckpt]
    exact startable_of_serving h.serving
  · intro c hc
    rw [h.ckpt] at hc
    cases hc
  · intro c hc
    rw [h.ckpt] at hc
    cases hc
  · intro _
    rw [h.ckpt, h.submitted]
    funext k
    simp only [owedItems, restoredStatuses, writeAll_apply]
    cases lastWrite (node.repo.submissions.filterMap logWrite) k with
    | some v => rfl
    | none => rfl

/-- A run goes on from where it stands, or it clears the store first. -/
theorem Between.prepared (h : Between snap log node) (rebuild : Bool) :
    prepare snap rebuild node = ⟨[], .error .rebuildInterrupted⟩ ∨
      (prepare snap rebuild node = ⟨[], .ok node.repo.seedCkpt⟩ ∧
        (Owing snap log node ∨ Complete snap log node) ∧
        (rebuild = true → node.repo.rebuildInProgress = true)) ∨
      (prepare snap rebuild node = ⟨[node.mark, node.mark.clear, node.mark.clear.unflag,
          node.mark.clear.unflag.forget], .ok none⟩ ∧ rebuild = true ∧
        (node.repo.rebuildInProgress = true → node.repo.seedCkpt = none)) := by
  have hvalid : node.validCkpt snap = node.repo.seedCkpt := by
    rcases h.phase with hb | ho | hc
    · simp [BridgeNode.validCkpt, hb.2]
    · exact ho.validCkpt
    · simp [BridgeNode.validCkpt, hc.ckpt]
  have hresumes : node.resumes snap = true ↔
      node.repo.rebuildInProgress = true ∧ node.repo.seedCkpt.isSome = true := by
    simp [BridgeNode.resumes, hvalid]
  rw [prepare_eq, hvalid]
  by_cases hrefuse : node.repo.rebuildInProgress = true ∧ rebuild = false
  · exact .inl (by rw [if_pos hrefuse])
  rw [if_neg hrefuse]
  by_cases hgo : rebuild = false ∨ node.resumes snap = true
  · rw [if_pos hgo]
    refine .inr (.inl ⟨rfl, ?_, ?_⟩)
    · refine h.phase.resolve_left fun hb => ?_
      rcases hgo with hplain | hgo
      · exact hrefuse ⟨hb.1, hplain⟩
      · rw [hresumes, hb.2] at hgo
        cases hgo.2
    · intro hr
      rcases hgo with hplain | hgo
      · rw [hr] at hplain
        cases hplain
      · exact (hresumes.1 hgo).1
  · rw [if_neg hgo]
    refine .inr (.inr ⟨rfl, ?_, ?_⟩)
    · exact Bool.not_eq_false _ ▸ fun hr => hgo (.inl hr)
    · intro hm
      rw [← Option.not_isSome_iff_eq_none]
      exact fun hs => hgo (.inr (hresumes.2 ⟨hm, hs⟩))

theorem cutAt_of_prepare {rebuild : Bool} {bridge : Signer} {ts : Int} {generation : String}
    {visited : List BridgeNode} {valid : Option SeedCheckpoint}
    (hp : prepare snap rebuild node = ⟨visited, .ok valid⟩) (n : Nat) :
    (n < visited.length ∧
        (seedRun snap bridge ts generation rebuild).cutAt n node = (visited.take n).getLastD node) ∨
      (seedRun snap bridge ts generation rebuild).cutAt n node ∈
        (bodyWith snap bridge ts rebuild valid (finish rebuild generation)).cuts
          (visited.getLastD node) := by
  rw [seedRun_eq]
  have hcut := Prog.cutAt_bind (f := fun valid =>
    bodyWith snap bridge ts rebuild valid (finish rebuild generation))
    (show (prepare snap rebuild node).result = .ok valid by rw [hp]) n
  simpa only [Prog.cutAt, Prog.final, hp] using hcut

theorem Between.attempt (h : Between snap log node) {a : Attempt} (ha : Spares node a) :
    Between snap log (attempt snap node a) := by
  obtain ⟨rebuild, bridge, ts, generation, n⟩ := a
  unfold Bridge.attempt Attempt.prog
  rcases h.prepared rebuild with hp | ⟨hp, hphase, hmarker⟩ | ⟨hp, rfl, hover⟩
  · rw [seedRun_eq, Prog.cutAt, Prog.bind_error (by rw [hp]), hp]
    simpa using h
  · rcases cutAt_of_prepare hp n with ⟨hlt, _⟩ | hmem
    · cases hlt
    · exact (triple_body bridge ts generation rebuild h.submissions hphase hmarker).crash node rfl
        _ hmem
  · have hmark : Between snap log node.mark := by
      refine ⟨h.tags, h.submissions, ?_⟩
      rcases h.phase with hb | ho | hc
      · exact .inl ⟨rfl, hb.2⟩
      · exact .inr (.inl ho.mark)
      · exact .inl ⟨rfl, hc.ckpt⟩
    have hforget : node.mark.clear.unflag.forget.repo.submissions = log := h.submissions
    rcases cutAt_of_prepare hp n with ⟨hlt, hcut⟩ | hmem
    · have hcleared : n = 2 ∨ n = 3 → node.repo.seedCkpt = none := by
        intro hn
        cases hm : node.repo.rebuildInProgress with
        | true => exact hover hm
        | false =>
          rw [← Option.not_isSome_iff_eq_none]
          intro hs
          obtain ⟨h2, h3⟩ := ha rfl hm hs
          exact hn.elim h2 h3
      rw [hcut]
      simp only [List.length_cons, List.length_nil] at hlt
      rcases n with _ | _ | _ | _ | n
      · exact h
      · exact hmark
      · exact ⟨h.tags, h.submissions, .inl ⟨rfl, hcleared (.inl rfl)⟩⟩
      · exact ⟨h.tags, h.submissions, .inl ⟨rfl, hcleared (.inr rfl)⟩⟩
      · omega
    · exact (triple_body bridge ts generation true hforget (.inl (owing_forget h.tags))
        fun _ => rfl).crash _ rfl _ hmem

/-- What a run leaves that returns. -/
theorem Between.returns (h : Between snap log node) {a : Attempt} {node' : BridgeNode}
    (hr : (a.prog snap).Returns node () node') (hwant : a.rebuild = true ∨ log = []) :
    node'.repo.statuses = restoredStatuses snap log := by
  obtain ⟨rebuild, bridge, ts, generation, n⟩ := a
  unfold Attempt.prog at hr
  rw [seedRun_eq] at hr
  obtain ⟨valid, n₁, ⟨hok, hfin⟩, hbody⟩ := Prog.bind_returns.1 hr
  simp only at hok hfin hbody hwant
  rcases h.prepared rebuild with hp | ⟨hp, hphase, hmarker⟩ | ⟨hp, rfl, hover⟩
  · rw [hp] at hok
    cases hok
  · rw [hp] at hok
    cases hok
    rw [Prog.final, hp] at hfin
    subst hfin
    exact (triple_body bridge ts generation rebuild h.submissions hphase hmarker).post node ()
      node' rfl hbody hwant
  · rw [hp] at hok
    cases hok
    rw [Prog.final, hp] at hfin
    subst hfin
    have hforget : node.mark.clear.unflag.forget.repo.submissions = log := h.submissions
    exact (triple_body bridge ts generation true hforget (.inl (owing_forget h.tags))
      fun _ => rfl).post _ () node' rfl hbody hwant

end

/-! ## A rebuild cut between its writes -/

theorem oneRow_ordered (_ : true = true) :
    [(⟨1, (Hash.fill 0).toHex, "a"⟩ : SeedRow)].Pairwise fun a b => a.hashId ≤ b.hashId :=
  List.pairwise_singleton _ _

theorem noRow_ordered (_ : true = true) :
    ([] : List SeedRow).Pairwise fun a b => a.hashId ≤ b.hashId :=
  List.Pairwise.nil

theorem oneRow_oneHash : ∀ a ∈ [(⟨1, (Hash.fill 0).toHex, "a"⟩ : SeedRow)] ++ [],
    ∀ b ∈ [(⟨1, (Hash.fill 0).toHex, "a"⟩ : SeedRow)] ++ [], a.hashId = b.hashId → a.sha = b.sha := by
  simp

/-- A snapshot with one current mapping. -/
def oneRow : Snapshot where
  serviceId := 1
  fingerprint := "f"
  current := [⟨1, (Hash.fill 0).toHex, "a"⟩]
  deleted := []
  hashOrdered := true
  hashDefs := []
  tagDefs := []
  watermark := none
  relations := []
  currentOrdered := oneRow_ordered
  deletedOrdered := noRow_ordered
  oneHash := oneRow_oneHash

/-- A run of the seed of the one row. -/
def oneRowRun (rebuild : Bool) (cut : Nat) : Attempt := ⟨rebuild, rebuildSigner, 0, "g", cut⟩

/-- Cut one write later the rebuild has cleared the row and kept the checkpoint, and the run that
resumes and returns leaves the row out. -/
theorem seeds_skip :
    ∃ node, ((oneRowRun true 0).prog oneRow).Returns
        (run (attempt oneRow) .empty [oneRowRun false 2, oneRowRun true 2]) () node ∧
      node.repo.statuses (Hash.fill 0, "a") = none ∧
      restoredStatuses oneRow [] (Hash.fill 0, "a") = some .current :=
  ⟨_, ⟨rfl, rfl⟩, by decide +kernel, by decide +kernel⟩

end Bridge
end Naiad
