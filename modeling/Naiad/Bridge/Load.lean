import Naiad.Bridge.Seed

/-!
# Naiad.Bridge.Load

What phase 1 of the seed leaves, wherever it is cut: the rows streamed so far are written, and the
checkpoint stands behind them.

* `triple_runPass`: one pass over a table, in either mode.
* `triple_runPlan`: the five plans.
-/

namespace Naiad
namespace Bridge

open Lib Netproto Server

/-! ## What phase 1 may change -/

/-- Only the mapping tables, the hash index and the checkpoint differ. -/
def Apart (node₀ node : BridgeNode) : Prop :=
  ∃ hashes tags mappings index ckpt, node = node₀.setStore
    { node₀.repo.toRepoStore with
      repoHashes := hashes
      repoTags := tags
      repoMappings := mappings
      hashUniqueIndex := index
      seedCkpt := ckpt }

theorem Apart.refl (node : BridgeNode) : Apart node node := ⟨_, _, _, _, _, rfl⟩

theorem Apart.trans {node₀ node node' : BridgeNode} (h : Apart node₀ node)
    (h' : Apart node node') : Apart node₀ node' := by
  obtain ⟨_, _, _, _, _, rfl⟩ := h
  obtain ⟨_, _, _, _, _, rfl⟩ := h'
  exact ⟨_, _, _, _, _, rfl⟩

theorem Apart.state {node₀ node : BridgeNode} (h : Apart node₀ node) : node.state = node₀.state := by
  obtain ⟨_, _, _, _, _, rfl⟩ := h
  rfl

theorem Apart.submissions {node₀ node : BridgeNode} (h : Apart node₀ node) :
    node.repo.submissions = node₀.repo.submissions := by
  obtain ⟨_, _, _, _, _, rfl⟩ := h
  rfl

theorem Apart.rebuildInProgress {node₀ node : BridgeNode} (h : Apart node₀ node) :
    node.repo.rebuildInProgress = node₀.repo.rebuildInProgress := by
  obtain ⟨_, _, _, _, _, rfl⟩ := h
  rfl

theorem apart_of_remapped {node : BridgeNode} {s : RepoStore} {ckpt : Option SeedCheckpoint}
    (h : Remapped node.repo.toRepoStore s) :
    Apart node (node.setStore { s with seedCkpt := ckpt }) := by
  obtain ⟨_, _, _, rfl⟩ := h
  exact ⟨_, _, _, _, _, rfl⟩

/-- The store of a node as a load meets it. -/
def SeedCarry.load (carry : SeedCarry) (node : BridgeNode) : BulkState :=
  ⟨node.repo.toRepoStore, carry.caches, carry.seq, ⟨0, 0⟩⟩

/-- The items of `done` are in the store, and written over the statuses `f`. While the hash index is
off the latter is said only of a store that holds no hash twice. -/
structure Loading (node₀ : BridgeNode) (f : Hash × String → Option MappingStatus)
    (deferred : Bool) (done : List (String × String × Bool)) (ckpt : Option SeedCheckpoint)
    (carry : SeedCarry) (node : BridgeNode) : Prop where
  apart : Apart node₀ node
  index : node.repo.hashUniqueIndex = !deferred
  ckpt : node.repo.seedCkpt = ckpt
  rooted : Rooted (carry.load node)
  present : ∀ item ∈ done, Present node.repo.toRepoStore item
  unique : deferred = false → node.repo.repoHashes.Unique
  carried : node.repo.repoHashes.Unique → Carried (carry.load node)
  statuses : node.repo.repoHashes.Unique →
    node.repo.statuses = writeAll f (done.filterMap bulkWrite)

section

variable {snap : Snapshot} {node₀ : BridgeNode} {f : Hash × String → Option MappingStatus}
  {deferred : Bool} {pass : SeedPass}

/-- The mode of a chunk. -/
def chunkMode (deferred : Bool) : HashResolve := if deferred then .deferredAppend else .indexed

theorem flush_eq (deferred : Bool) (ckpt : Option SeedCheckpoint)
    (items : List (String × String × Bool)) (carry : SeedCarry) :
    flush deferred ckpt items carry = tryStore fun s =>
      match s.applyMappingsImpl items carry.caches carry.seq (chunkMode deferred) ckpt with
      | .error e => .error e
      | .ok st => .ok (st.store, ⟨st.caches, st.nextSeq⟩) := by
  cases deferred with
  | false => rfl
  | true => rfl

theorem unique_of_indexed {s : RepoStore} {items : List (String × String × Bool)}
    {carry : SeedCarry} {ckpt : Option SeedCheckpoint} {st : BulkState}
    (hc : Carried ⟨s, carry.caches, carry.seq, ⟨0, 0⟩⟩)
    (h : s.applyMappingsImpl items carry.caches carry.seq .indexed ckpt = .ok st) :
    st.store.repoHashes.Unique :=
  (bulkInv_applyMappingsBulkCached hc.bulkInv h).evolves.sound.hashes

/-- One chunk, with the checkpoint it commits. -/
theorem loading_chunk {done items : List (String × String × Bool)}
    {ck ckpt : Option SeedCheckpoint} {carry : SeedCarry} {node : BridgeNode} {st : BulkState}
    (h : Loading node₀ f deferred done ck carry node)
    (hst : node.repo.applyMappingsImpl items carry.caches carry.seq (chunkMode deferred) ckpt =
      .ok st) :
    Loading node₀ f deferred (done ++ items) (ckpt.or ck) ⟨st.caches, st.nextSeq⟩
      (node.setStore st.store) := by
  obtain ⟨_, st₁, hitems, heq⟩ := applyMappingsImpl_eq_ok hst
  have hmap : Remapped node.repo.toRepoStore st₁.store := remapped_applyItems hitems
  have hstore : st.store = { st₁.store with seedCkpt := ckpt.or st₁.store.seedCkpt } := by
    rw [heq]
  have hfields : st₁.store.hashUniqueIndex = node.repo.hashUniqueIndex ∧
      st₁.store.seedCkpt = node.repo.seedCkpt := by
    obtain ⟨_, _, _, hs⟩ := hmap
    rw [hs]
    exact ⟨rfl, rfl⟩
  have himpl := hst
  rw [show node.repo.toRepoStore = (carry.load node).store from rfl] at himpl
  obtain ⟨hrooted, hgrows, hpresent⟩ := rooted_applyMappingsImpl h.rooted himpl
  refine ⟨?_, ?_, ?_, ⟨hrooted.tags, hrooted.hashIds, hrooted.tagIds, hrooted.carryId⟩, ?_, ?_, ?_,
    ?_⟩
  · rw [hstore]
    exact h.apart.trans (apart_of_remapped hmap)
  · change st.store.hashUniqueIndex = _
    rw [hstore]
    exact hfields.1.trans h.index
  · change st.store.seedCkpt = _
    rw [hstore, ← h.ckpt, ← hfields.2]
  · intro item hitem
    rcases List.mem_append.1 hitem with hitem | hitem
    · exact (h.present item hitem).grows hgrows
    · exact hpresent item hitem
  · intro hd
    subst hd
    exact unique_of_indexed (h.carried (h.unique rfl)) hst
  · intro hu
    obtain ⟨hu₀, hrun⟩ := carried_applyMappingsImpl hst hu
    exact (hrun (h.carried hu₀)).1
  · intro hu
    obtain ⟨hu₀, hrun⟩ := carried_applyMappingsImpl hst hu
    rw [List.filterMap_append, writeAll_append, ← h.statuses hu₀]
    exact (hrun (h.carried hu₀)).2

theorem triple_flush {done items : List (String × String × Bool)}
    {ck ckpt : Option SeedCheckpoint} {carry : SeedCarry} {C : BridgeNode → Prop}
    (hpre : ∀ node, Loading node₀ f deferred done ck carry node → C node)
    (hpost : ∀ carry node, Loading node₀ f deferred (done ++ items) (ckpt.or ck) carry node →
      C node) :
    Prog.Triple (Loading node₀ f deferred done ck carry) (flush deferred ckpt items carry)
      (Loading node₀ f deferred (done ++ items) (ckpt.or ck)) C := by
  rw [flush_eq]
  refine .write hpre ?_
  intro node node' carry' hn happly
  split at happly
  · cases happly
  · rename_i s a hs
    cases happly
    simp only at hs
    split at hs
    · cases hs
    · rename_i st hst
      cases hs
      have hdone := loading_chunk hn hst
      exact ⟨hpost _ _ hdone, hdone⟩

/-! ## A pass -/

/-- Where the checkpoint stands once the rows of `pre` are written and those of `rest` are not. -/
def PassMark (snap : Snapshot) (pass : SeedPass) (pre rest : List SeedRow)
    (ck ck' : Option SeedCheckpoint) : Prop :=
  (pre = [] ∧ ck' = ck) ∨ ∃ hw, ck' = some (snap.checkpoint pass hw) ∧
    (∀ r ∈ pre, r.hashId ≤ hw) ∧ ∀ r ∈ rest, hw < r.hashId

def passItems (pass : SeedPass) (rows : List SeedRow) : List (String × String × Bool) :=
  rows.map (·.item (SeedPass.isDelete pass))

theorem passItems_append (pass : SeedPass) (as bs : List SeedRow) :
    passItems pass (as ++ bs) = passItems pass as ++ passItems pass bs := List.map_append

/-- A pass some rows of which are written. -/
def Passing (snap : Snapshot) (node₀ : BridgeNode) (f : Hash × String → Option MappingStatus)
    (deferred : Bool) (pass : SeedPass) (base : List (String × String × Bool))
    (ck : Option SeedCheckpoint) (pre rest : List SeedRow) (carry : SeedCarry)
    (node : BridgeNode) : Prop :=
  ∃ ck', PassMark snap pass pre rest ck ck' ∧
    Loading node₀ f deferred (base ++ passItems pass pre) ck' carry node

/-- The mark a flush leaves: the last row of the chunk ends its hash id. -/
theorem passMark_flush {pre buf rest : List SeedRow} {last : SeedRow}
    {ck : Option SeedCheckpoint}
    (hord : (pre ++ (buf ++ [last]) ++ rest).Pairwise fun a b => a.hashId ≤ b.hashId)
    (hnext : ∀ r, rest.head? = some r → r.hashId ≠ last.hashId) :
    PassMark snap pass (pre ++ (buf ++ [last])) rest ck
      (some (snap.checkpoint pass last.hashId)) := by
  rw [List.pairwise_append] at hord
  obtain ⟨hdone, hrest, hcross⟩ := hord
  refine .inr ⟨last.hashId, rfl, ?_, ?_⟩
  · intro r hr
    rw [← List.append_assoc, List.pairwise_append] at hdone
    rw [← List.append_assoc] at hr
    rcases List.mem_append.1 hr with hr | hr
    · exact hdone.2.2 r hr last (by simp)
    · obtain rfl : r = last := by simpa using hr
      exact le_refl _
  · cases rest with
    | nil => simp
    | cons r₀ rest =>
      have hlt : last.hashId < r₀.hashId := by
        have hle := hcross last (by simp) r₀ (by simp)
        have hne := hnext r₀ rfl
        omega
      intro r hr
      rcases List.mem_cons.1 hr with rfl | hr
      · exact hlt
      · exact lt_of_lt_of_le hlt ((List.pairwise_cons.1 hrest).1 r hr)

section

variable {base : List (String × String × Bool)} {ck : Option SeedCheckpoint} {all : List SeedRow}

/-- Some rows of a pass are written. -/
def PassingSome (snap : Snapshot) (node₀ : BridgeNode)
    (f : Hash × String → Option MappingStatus) (deferred : Bool) (pass : SeedPass)
    (base : List (String × String × Bool)) (ck : Option SeedCheckpoint) (all : List SeedRow)
    (node : BridgeNode) : Prop :=
  ∃ pre rest carry, all = pre ++ rest ∧
    Passing snap node₀ f deferred pass base ck pre rest carry node

/-- A flush of the buffered rows. -/
theorem triple_flushRows (hord : all.Pairwise fun a b => a.hashId ≤ b.hashId)
    {pre buf rest : List SeedRow} {last : SeedRow} (carry : SeedCarry)
    (hall : all = pre ++ (buf ++ [last]) ++ rest)
    (hnext : ∀ r, rest.head? = some r → r.hashId ≠ last.hashId) :
    Prog.Triple (Passing snap node₀ f deferred pass base ck pre (buf ++ [last] ++ rest) carry)
      (flush deferred (some (snap.checkpoint pass last.hashId)) (passItems pass (buf ++ [last]))
        carry)
      (Passing snap node₀ f deferred pass base ck (pre ++ (buf ++ [last])) rest)
      (PassingSome snap node₀ f deferred pass base ck all) := by
  have hmark : PassMark snap pass (pre ++ (buf ++ [last])) rest ck
      (some (snap.checkpoint pass last.hashId)) := passMark_flush (hall ▸ hord) hnext
  have hpost : ∀ ck' carry' node, Loading node₀ f deferred
      (base ++ passItems pass pre ++ passItems pass (buf ++ [last]))
      ((some (snap.checkpoint pass last.hashId)).or ck') carry' node →
      Passing snap node₀ f deferred pass base ck (pre ++ (buf ++ [last])) rest carry' node := by
    intro ck' carry' node hn
    refine ⟨_, hmark, ?_⟩
    rw [passItems_append, ← List.append_assoc]
    exact hn
  have hchunk : ∀ ck', PassMark snap pass pre (buf ++ [last] ++ rest) ck ck' →
      Prog.Triple (Loading node₀ f deferred (base ++ passItems pass pre) ck' carry)
        (flush deferred (some (snap.checkpoint pass last.hashId)) (passItems pass (buf ++ [last]))
          carry)
        (Passing snap node₀ f deferred pass base ck (pre ++ (buf ++ [last])) rest)
        (PassingSome snap node₀ f deferred pass base ck all) := by
    intro ck' hm
    refine (triple_flush ?_ ?_).conseq (fun _ hn => hn) (fun carry' node hn => hpost ck' carry' node hn)
      fun _ hn => hn
    · intro node hn
      exact ⟨pre, buf ++ [last] ++ rest, carry, by rw [hall]; simp, ck', hm, hn⟩
    · intro carry' node hn
      exact ⟨pre ++ (buf ++ [last]), rest, carry', hall, hpost ck' carry' node hn⟩
  constructor
  · intro node hn node' hcut
    obtain ⟨ck', hm, hl⟩ := hn
    exact (hchunk ck' hm).crash node hl node' hcut
  · intro node carry' node' hn hr
    obtain ⟨ck', hm, hl⟩ := hn
    exact (hchunk ck' hm).post node carry' node' hl hr

/-- The rows of a pass: what is buffered is written at a change of the hash id, or at the end. -/
theorem triple_runRows (hord : all.Pairwise fun a b => a.hashId ≤ b.hashId)
    (rows : List SeedRow) (pre buf : List SeedRow) (prev : Nat) (carry : SeedCarry)
    (hall : all = pre ++ buf ++ rows)
    (hprev : ∀ last, buf.getLast? = some last → last.hashId = prev) :
    Prog.Triple (Passing snap node₀ f deferred pass base ck pre (buf ++ rows) carry)
      (runRows snap pass deferred rows (passItems pass buf) prev carry)
      (Passing snap node₀ f deferred pass base ck all [])
      (PassingSome snap node₀ f deferred pass base ck all) := by
  induction rows generalizing pre buf prev carry with
  | nil =>
    rcases List.eq_nil_or_concat buf with rfl | ⟨b, last, rfl⟩
    · have hpre : all = pre := by simpa using hall
      subst hpre
      refine .ret (fun node hn => ⟨all, [], carry, by simp, hn⟩) fun node hn => ?_
      exact hn
    · rw [List.concat_eq_append] at hall hprev ⊢
      have hlast := hprev last (by simp)
      have hne : passItems pass (b ++ [last]) ≠ [] := by simp [passItems]
      subst hlast
      have hdone : all = pre ++ (b ++ [last]) := by simpa using hall
      simp only [runRows, if_neg hne]
      refine (triple_flushRows hord carry hall (by simp)).conseq (fun _ hn => hn) ?_ fun _ hn => hn
      intro carry' node hn
      rw [← hdone] at hn
      exact hn
  | cons row rows ih =>
    simp only [runRows]
    split
    · rename_i hfull
      have hne : buf ≠ [] := by
        intro hnil
        rw [hnil] at hfull
        simp [passItems, chunkSize] at hfull
      rcases List.eq_nil_or_concat buf with hnil | ⟨b, last, rfl⟩
      · exact absurd hnil hne
      · rw [List.concat_eq_append] at hall hprev hfull ⊢
        have hlast := hprev last (by simp)
        subst hlast
        have hnext : ∀ r, (row :: rows).head? = some r → r.hashId ≠ last.hashId := by
          intro r hr
          cases hr
          exact hfull.2
        refine (triple_flushRows hord carry hall hnext).bind fun carry' => ?_
        exact ih (pre ++ (b ++ [last])) [row] row.hashId carry' (by rw [hall]; simp)
          (by simp)
    · have hrest := ih pre (buf ++ [row]) row.hashId carry (by rw [hall]; simp) (by simp)
      rw [passItems_append] at hrest
      refine hrest.conseq (fun node hn => ?_) (fun _ _ hn => hn) fun _ hn => hn
      rw [List.append_assoc]
      exact hn

end

/-! ## The plans -/

section

variable {ck : Option SeedCheckpoint} {base : List (String × String × Bool)}

theorem stream_ordered (hord : snap.hashOrdered = true) (pass : SeedPass) (start : Option Nat) :
    (snap.stream pass start).Pairwise fun a b => a.hashId ≤ b.hashId := by
  have hrows : (snap.rows pass).Pairwise fun a b => a.hashId ≤ b.hashId := by
    cases pass with
    | current => exact snap.currentOrdered hord
    | deleted => exact snap.deletedOrdered hord
  cases start with
  | none => exact hrows
  | some h => exact hrows.filter _

theorem triple_runPass (hord : snap.hashOrdered = true) (start : Option Nat)
    (carry : SeedCarry) :
    Prog.Triple (Loading node₀ f deferred base ck carry) (runPass snap pass deferred start carry)
      (Passing snap node₀ f deferred pass base ck (snap.stream pass start) [])
      (PassingSome snap node₀ f deferred pass base ck (snap.stream pass start)) := by
  refine (triple_runRows (stream_ordered hord pass start) (snap.stream pass start) [] [] 0 carry
    rfl (by simp)).conseq (fun node hn => ?_) (fun _ _ hn => hn) fun _ hn => hn
  refine ⟨ck, .inl ⟨rfl, rfl⟩, ?_⟩
  simpa [passItems] using hn

/-- `DROP INDEX`. -/
theorem triple_drop {done : List (String × String × Bool)} {carry : SeedCarry}
    {C : BridgeNode → Prop}
    (hpre : ∀ node, Loading node₀ f false done ck carry node → C node)
    (hpost : ∀ node, Loading node₀ f true done ck carry node → C node) :
    Prog.Triple (Loading node₀ f false done ck carry) dropHashUniqueIndex
      (fun _ => Loading node₀ f true done ck carry) C := by
  refine .put hpre fun node hn => ?_
  have hdrop : Loading node₀ f true done ck carry
      (node.setStore { node.repo.toRepoStore with hashUniqueIndex := false }) := by
    refine ⟨hn.apart.trans ⟨_, _, _, _, _, rfl⟩, rfl, hn.ckpt,
      ⟨hn.rooted.tags, hn.rooted.hashIds, hn.rooted.tagIds, hn.rooted.carryId⟩, hn.present, by simp,
      fun hu => ?_, hn.statuses⟩
    have hc := hn.carried hu
    exact ⟨sound_of_tables hc.sound rfl rfl rfl, ⟨hc.caches.hash, hc.caches.tag⟩, hc.carry, hc.cursor⟩
  exact ⟨hpost _ hdrop, hdrop⟩

/-- The index is built over a table that holds no hash twice, or not at all. -/
theorem triple_build {done : List (String × String × Bool)} {carry : SeedCarry}
    {C : BridgeNode → Prop}
    (hpre : ∀ node, Loading node₀ f true done ck carry node → C node)
    (hpost : ∀ node, Loading node₀ f false done ck carry node → C node) :
    Prog.Triple (Loading node₀ f true done ck carry) buildHashUniqueIndex
      (fun _ => Loading node₀ f false done ck carry) C := by
  refine .write hpre ?_
  intro node node' a hn hbuild
  split at hbuild
  · rename_i hu
    cases hbuild
    have hc := hn.carried hu
    have hsound : (node.setStore
        { node.repo.toRepoStore with hashUniqueIndex := true }).repo.Sound :=
      sound_of_tables hc.sound rfl rfl rfl
    have hbuilt : Loading node₀ f false done ck carry
        (node.setStore { node.repo.toRepoStore with hashUniqueIndex := true }) :=
      ⟨hn.apart.trans ⟨_, _, _, _, _, rfl⟩, rfl, hn.ckpt,
        ⟨hn.rooted.tags, hn.rooted.hashIds, hn.rooted.tagIds, hn.rooted.carryId⟩, hn.present,
        fun _ => hu,
        fun _ => ⟨hsound, ⟨hc.caches.hash, hc.caches.tag⟩, hc.carry, hc.cursor⟩, hn.statuses⟩
    exact ⟨hpost _ hbuilt, hbuilt⟩
  · cases hbuild

/-- Some items of both tables are written, through the index and without a checkpoint. -/
def IndexedCut (snap : Snapshot) (node₀ : BridgeNode)
    (f : Hash × String → Option MappingStatus) (ck : Option SeedCheckpoint)
    (node : BridgeNode) : Prop :=
  ∃ done rest carry, snap.items = done ++ rest ∧ Loading node₀ f false done ck carry node

theorem triple_runChunks (chunks : List (List (String × String × Bool)))
    (done : List (String × String × Bool)) (carry : SeedCarry)
    (hall : snap.items = done ++ chunks.flatten) :
    Prog.Triple (Loading node₀ f false done ck carry) (runChunks chunks carry)
      (Loading node₀ f false snap.items ck) (IndexedCut snap node₀ f ck) := by
  induction chunks generalizing done carry with
  | nil =>
    have hdone : snap.items = done := by simpa using hall
    refine .ret (fun node hn => ⟨done, [], carry, by simpa using hall, hn⟩) fun node hn => ?_
    rw [hdone]
    exact hn
  | cons chunk chunks ih =>
    have hnext : snap.items = (done ++ chunk) ++ chunks.flatten := by simpa using hall
    refine (triple_flush (fun node hn => ⟨done, _, carry, hall, hn⟩)
      (fun carry' node hn => ⟨done ++ chunk, _, carry', hnext, hn⟩)).bind fun carry' => ?_
    exact ih (done ++ chunk) carry' hnext

theorem triple_runIndexedAll (carry : SeedCarry) :
    Prog.Triple (Loading node₀ f false [] ck carry) (runIndexedAll snap carry)
      (Loading node₀ f false snap.items ck) (IndexedCut snap node₀ f ck) :=
  triple_runChunks _ [] carry (by rw [chunksFrom_flatten]; simp)

/-- The deferred load, cut: rows of the current table appended without the index, or all of them and
rows of the deleted table through the index. -/
def DeferredCut (snap : Snapshot) (node₀ : BridgeNode)
    (f : Hash × String → Option MappingStatus) (ck : Option SeedCheckpoint) (start : Option Nat)
    (node : BridgeNode) : Prop :=
  PassingSome snap node₀ f true .current [] ck (snap.stream .current start) node ∨
    ∃ ck₁, PassMark snap .current (snap.stream .current start) [] ck ck₁ ∧
      PassingSome snap node₀ f false .deleted (passItems .current (snap.stream .current start)) ck₁
        snap.deleted node

/-- The items a plan loads. -/
def SeedPlan.items (snap : Snapshot) : SeedPlan → List (String × String × Bool)
  | .resumeCurrent h =>
    passItems .current (snap.stream .current (some h)) ++ passItems .deleted snap.deleted
  | .runDeleted start => passItems .deleted (snap.stream .deleted start)
  | .freshDeferred => snap.items
  | .selfHealThenIndexed => snap.items
  | .indexed => snap.items

/-- Whether a plan starts without the hash index. -/
def SeedPlan.lacksIndex : SeedPlan → Bool
  | .resumeCurrent _ => true
  | .selfHealThenIndexed => true
  | .runDeleted _ => false
  | .freshDeferred => false
  | .indexed => false

/-- Whether a plan streams the tables in the order of their hash ids. -/
def SeedPlan.streams : SeedPlan → Bool
  | .resumeCurrent _ => true
  | .runDeleted _ => true
  | .freshDeferred => true
  | .selfHealThenIndexed => false
  | .indexed => false

/-- Where a plan can be cut. -/
def PlanCut (snap : Snapshot) (node₀ : BridgeNode)
    (f : Hash × String → Option MappingStatus) (ck : Option SeedCheckpoint) (plan : SeedPlan)
    (node : BridgeNode) : Prop :=
  match plan with
  | .freshDeferred =>
    (∃ carry, Loading node₀ f false [] ck carry node) ∨ DeferredCut snap node₀ f ck none node
  | .resumeCurrent h => DeferredCut snap node₀ f ck (some h) node
  | .runDeleted start =>
    PassingSome snap node₀ f false .deleted [] ck (snap.stream .deleted start) node
  | .selfHealThenIndexed =>
    (∃ carry, Loading node₀ f true [] ck carry node) ∨ IndexedCut snap node₀ f ck node
  | .indexed => IndexedCut snap node₀ f ck node

/-- A plan has loaded its items. -/
def PlanDone (snap : Snapshot) (node₀ : BridgeNode)
    (f : Hash × String → Option MappingStatus) (plan : SeedPlan) (node : BridgeNode) : Prop :=
  ∃ carry ck, Loading node₀ f false (SeedPlan.items snap plan) ck carry node

theorem triple_deferred (hord : snap.hashOrdered = true) (start : Option Nat)
    (carry : SeedCarry) :
    Prog.Triple (Loading node₀ f true [] ck carry)
      (runPass snap .current true start carry >>= fun carry =>
        buildHashUniqueIndex >>= fun _ => runPass snap .deleted false none carry)
      (fun carry node => ∃ ck', Loading node₀ f false
        (passItems .current (snap.stream .current start) ++ passItems .deleted snap.deleted) ck'
        carry node)
      (DeferredCut snap node₀ f ck start) := by
  refine ((triple_runPass hord start carry).conseq (fun _ hn => hn) (fun _ _ hn => hn)
    fun _ hn => .inl hn).bind fun carry => ?_
  -- the mark the current pass leaves is fixed from here on
  have hrest : ∀ ck₁, PassMark snap .current (snap.stream .current start) [] ck ck₁ →
      Prog.Triple
        (Loading node₀ f true (passItems .current (snap.stream .current start)) ck₁ carry)
        (buildHashUniqueIndex >>= fun _ => runPass snap .deleted false none carry)
        (fun carry node => ∃ ck', Loading node₀ f false
          (passItems .current (snap.stream .current start) ++ passItems .deleted snap.deleted) ck'
          carry node)
        (DeferredCut snap node₀ f ck start) := by
    intro ck₁ hm
    have hbefore : ∀ node, Loading node₀ f true (passItems .current (snap.stream .current start))
        ck₁ carry node → DeferredCut snap node₀ f ck start node := fun node hn =>
      .inl ⟨snap.stream .current start, [], carry, by simp, ck₁, hm, hn⟩
    have hafter : ∀ node, Loading node₀ f false (passItems .current (snap.stream .current start))
        ck₁ carry node → DeferredCut snap node₀ f ck start node := fun node hn =>
      .inr ⟨ck₁, hm, [], snap.deleted, carry, rfl, ck₁, .inl ⟨rfl, rfl⟩, by
        simpa [passItems] using hn⟩
    refine (triple_build hbefore hafter).bind fun _ => ?_
    refine (triple_runPass hord none carry).conseq (fun _ hn => hn) ?_
      fun _ hn => .inr ⟨ck₁, hm, hn⟩
    intro carry' node hn
    obtain ⟨ck', _, hl⟩ := hn
    exact ⟨ck', hl⟩
  constructor
  · intro node hn node' hcut
    obtain ⟨ck₁, hm, hl⟩ := hn
    exact (hrest ck₁ hm).crash node hl node' hcut
  · intro node carry' node' hn hr
    obtain ⟨ck₁, hm, hl⟩ := hn
    exact (hrest ck₁ hm).post node carry' node' hl hr

/-- **`triple_runPlan`**: a plan that ends has loaded its items, and the index is there. -/
theorem triple_runPlan (plan : SeedPlan) (hord : plan.streams = true → snap.hashOrdered = true)
    (carry : SeedCarry) :
    Prog.Triple (Loading node₀ f plan.lacksIndex [] ck carry) (runPlan snap plan carry)
      (fun _ => PlanDone snap node₀ f plan) (PlanCut snap node₀ f ck plan) := by
  cases plan with
  | freshDeferred =>
    have hbefore : ∀ node, Loading node₀ f false [] ck carry node →
        PlanCut snap node₀ f ck .freshDeferred node := fun node hn => .inl ⟨carry, hn⟩
    have hafter : ∀ node, Loading node₀ f true [] ck carry node →
        PlanCut snap node₀ f ck .freshDeferred node := fun node hn =>
      .inr (.inl ⟨[], snap.current, carry, rfl, ck, .inl ⟨rfl, rfl⟩, by
        simpa [passItems] using hn⟩)
    refine (triple_drop hbefore hafter).bind fun _ => ?_
    refine (triple_deferred (hord rfl) none carry).conseq (fun _ hn => hn) ?_
      fun _ hn => .inr hn
    intro carry' node hn
    obtain ⟨ck', hl⟩ := hn
    exact ⟨carry', ck', hl⟩
  | resumeCurrent h =>
    refine (triple_deferred (hord rfl) (some h) carry).conseq (fun _ hn => hn) ?_ fun _ hn => hn
    intro carry' node hn
    obtain ⟨ck', hl⟩ := hn
    exact ⟨carry', ck', hl⟩
  | runDeleted start =>
    refine (triple_runPass (hord rfl) start carry).conseq (fun _ hn => hn) ?_ fun _ hn => hn
    intro carry' node hn
    obtain ⟨ck', _, hl⟩ := hn
    exact ⟨carry', ck', hl⟩
  | selfHealThenIndexed =>
    have hbefore : ∀ node, Loading node₀ f true [] ck carry node →
        PlanCut snap node₀ f ck .selfHealThenIndexed node := fun node hn => .inl ⟨carry, hn⟩
    have hafter : ∀ node, Loading node₀ f false [] ck carry node →
        PlanCut snap node₀ f ck .selfHealThenIndexed node := fun node hn =>
      .inr ⟨[], snap.items, carry, rfl, hn⟩
    refine (triple_build hbefore hafter).bind fun _ => ?_
    exact (triple_runIndexedAll carry).conseq (fun _ hn => hn)
      (fun carry' node hn => ⟨carry', ck, hn⟩) fun _ hn => .inr hn
  | indexed =>
    exact (triple_runIndexedAll carry).conseq (fun _ hn => hn)
      (fun carry' node hn => ⟨carry', ck, hn⟩) fun _ hn => hn

/-! ## The phase -/

/-- What phase 1 can start on: a checkpoint of the deleted pass comes after the index was built, and
only ordered tables leave checkpoints. -/
structure Startable (snap : Snapshot) (ckpt : Option SeedCheckpoint) (node : BridgeNode) :
    Prop where
  tags : node.repo.repoTags.Unique
  unique : node.repo.hashUniqueIndex = true → node.repo.repoHashes.Unique
  sound : node.repo.repoHashes.Unique → node.repo.Sound
  index : ∀ c, ckpt = some c → c.pass = .deleted → node.repo.hashUniqueIndex = true
  ordered : ckpt.isSome = true → snap.hashOrdered = true

theorem choosePlan_spec {ckpt : Option SeedCheckpoint} {node : BridgeNode}
    (h : Startable snap ckpt node) :
    SeedPlan.lacksIndex (choosePlan snap ckpt node.repo.toRepoStore) =
        !node.repo.hashUniqueIndex ∧
      (SeedPlan.streams (choosePlan snap ckpt node.repo.toRepoStore) = true →
        snap.hashOrdered = true) := by
  unfold choosePlan
  cases ckpt with
  | some c =>
    refine ⟨?_, fun _ => h.ordered rfl⟩
    have hidx := h.index c rfl
    obtain ⟨v, pass, highWater, serviceId, fp⟩ := c
    cases pass with
    | current =>
      cases node.repo.hashUniqueIndex with
      | false => rfl
      | true => rfl
    | deleted =>
      rw [hidx rfl]
      rfl
  | none =>
    cases node.repo.hashUniqueIndex with
    | false => simp [SeedPlan.lacksIndex, SeedPlan.streams]
    | true =>
      by_cases hfresh : node.repo.repoHashes.rows = [] ∧ snap.hashOrdered = true
      · simp [hfresh, SeedPlan.lacksIndex]
      · simp [hfresh, SeedPlan.lacksIndex, SeedPlan.streams]

theorem loading_start {ckpt : Option SeedCheckpoint} {node : BridgeNode}
    (h : Startable snap ckpt node) :
    Loading node node.repo.statuses (!node.repo.hashUniqueIndex) [] node.repo.seedCkpt
      ⟨.empty, node.repo.mappingCursor⟩ node := by
  have hempty := InternCaches.valid_empty node.repo.toRepoStore
  have hcarry : CarryValid .empty node.repo.toRepoStore := by
    intro k id hc
    cases hc
  refine ⟨.refl node, by simp, rfl, ⟨h.tags, ?_, ?_, ?_⟩, by simp, ?_,
    fun hu => ⟨h.sound hu, hempty, hcarry, le_refl _⟩, fun _ => rfl⟩
  · exact fun k id hl => IdTable.mem_of_idOf (hempty.hash k id hl)
  · exact fun t id hl => IdTable.mem_of_idOf (hempty.tag t id hl)
  · exact fun k id hc => IdTable.mem_of_idOf (hcarry k id hc)
  · intro hi
    exact h.unique (by simpa using hi)

/-- Phase 1 is done: the items of the plan are loaded, the checkpoint is cleared, the flag set. -/
structure PhaseDone (snap : Snapshot) (node₀ : BridgeNode) (plan : SeedPlan)
    (node : BridgeNode) : Prop where
  apart : Apart { node₀ with state := { node₀.state with seedPhaseMappings := true } } node
  serving : Serving node.repo.toRepoStore
  ckpt : node.repo.seedCkpt = none
  statuses : node.repo.statuses =
    writeAll node₀.repo.statuses ((SeedPlan.items snap plan).filterMap bulkWrite)

/-- Where phase 1 can be cut: in its plan, before the flag is set, after. -/
def PhaseCut (snap : Snapshot) (node₀ : BridgeNode) (plan : SeedPlan) (node : BridgeNode) : Prop :=
  PlanCut snap node₀ node₀.repo.statuses node₀.repo.seedCkpt plan node ∨
    (∃ carry, Loading node₀ node₀.repo.statuses false (SeedPlan.items snap plan) none carry
      node) ∨
    PhaseDone snap node₀ plan node

theorem loading_clearCkpt {done : List (String × String × Bool)} {ck : Option SeedCheckpoint}
    {carry : SeedCarry} {node : BridgeNode} (h : Loading node₀ f deferred done ck carry node) :
    Loading node₀ f deferred done none carry
      (node.setStore { node.repo.toRepoStore with seedCkpt := none }) := by
  refine ⟨h.apart.trans ⟨_, _, _, _, _, rfl⟩, h.index, rfl,
    ⟨h.rooted.tags, h.rooted.hashIds, h.rooted.tagIds, h.rooted.carryId⟩, h.present, h.unique,
    fun hu => ?_, h.statuses⟩
  have hc := h.carried hu
  exact ⟨sound_of_tables hc.sound rfl rfl rfl, ⟨hc.caches.hash, hc.caches.tag⟩, hc.carry, hc.cursor⟩

theorem phaseDone_of_loading {plan : SeedPlan} {carry : SeedCarry} {node : BridgeNode}
    (h : Loading node₀ node₀.repo.statuses false (SeedPlan.items snap plan) none carry node) :
    PhaseDone snap node₀ plan
      { node with state := { node.state with seedPhaseMappings := true } } := by
  have hu := h.unique rfl
  refine ⟨?_, ⟨(h.carried hu).sound, h.index⟩, h.ckpt, h.statuses hu⟩
  obtain ⟨_, _, _, _, _, rfl⟩ := h.apart
  exact ⟨_, _, _, _, _, rfl⟩

/-- **`triple_mappingsPhase`**: phase 1 from a store it can start on. -/
theorem triple_mappingsPhase {ckpt : Option SeedCheckpoint}
    (h : Startable snap ckpt node₀) :
    Prog.Triple (fun node => node = node₀) (mappingsPhase snap ckpt)
      (fun _ => PhaseDone snap node₀ (choosePlan snap ckpt node₀.repo.toRepoStore))
      (PhaseCut snap node₀ (choosePlan snap ckpt node₀.repo.toRepoStore)) := by
  let plan := choosePlan snap ckpt node₀.repo.toRepoStore
  let carry₀ : SeedCarry := ⟨.empty, node₀.repo.mappingCursor⟩
  obtain ⟨hidx, hord⟩ := choosePlan_spec h
  have hstart := loading_start h
  rw [← hidx] at hstart
  have hplan : Prog.Triple
      (Loading node₀ node₀.repo.statuses plan.lacksIndex [] node₀.repo.seedCkpt carry₀)
      (runPlan snap plan carry₀) (fun _ => PlanDone snap node₀ node₀.repo.statuses plan)
      (PlanCut snap node₀ node₀.repo.statuses node₀.repo.seedCkpt plan) :=
    triple_runPlan plan hord carry₀
  have hrun := hplan.withCrash
  have hcut₀ : PhaseCut snap node₀ plan node₀ := .inl (hrun.crash node₀ hstart node₀ (by
    simp [Prog.cuts]))
  have hcut : ∀ node, node = node₀ → PhaseCut snap node₀ plan node := by
    intro node hn
    rw [hn]
    exact hcut₀
  unfold mappingsPhase
  refine Prog.Triple.bind (Q := fun carry node => node = node₀ ∧ carry = carry₀)
    (.read hcut ?_) fun carry => ?_
  · intro node carry hn hread
    subst hn
    cases hread
    exact ⟨rfl, rfl⟩
  by_cases hcarry : carry = carry₀
  rotate_left
  · exact ⟨fun node hn => absurd hn.2 hcarry, fun node _ _ hn => absurd hn.2 hcarry⟩
  subst hcarry
  refine Prog.Triple.bind (Q := fun p node => node = node₀ ∧ p = plan)
    (.read (fun node hn => hcut node hn.1) ?_) fun p => ?_
  · intro node p hn hread
    obtain ⟨rfl, _⟩ := hn
    cases hread
    exact ⟨rfl, rfl⟩
  by_cases hp : p = plan
  rotate_left
  · exact ⟨fun node hn => absurd hn.2 hp, fun node _ _ hn => absurd hn.2 hp⟩
  subst hp
  refine (hrun.conseq (fun node hn => ?_) (fun _ _ hn => hn) fun _ hn => .inl hn).bind fun _ => ?_
  · rw [hn.1]
    exact hstart
  -- the checkpoint is cleared, then the flag is set
  refine Prog.Triple.bind (Q := fun _ node =>
      ∃ carry, Loading node₀ node₀.repo.statuses false (SeedPlan.items snap plan) none carry node)
    (.put (fun node hn => .inl hn.2) fun node hn => ?_) fun _ => ?_
  · obtain ⟨⟨carry', ck', hl⟩, _⟩ := hn
    have hcleared := loading_clearCkpt hl
    exact ⟨.inr (.inl ⟨carry', hcleared⟩), carry', hcleared⟩
  · refine .put (fun node hn => .inr (.inl hn)) fun node hn => ?_
    obtain ⟨carry', hl⟩ := hn
    have hdone := phaseDone_of_loading hl
    exact ⟨.inr (.inr hdone), hdone⟩

end

end

end Bridge
end Naiad
