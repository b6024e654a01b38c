import Mathlib.Logic.Relation
import Naiad.Bridge.Finish

/-!
# Naiad.Bridge.Rebuild

What a rebuild makes of the statuses users and moderators gave to pairs of the mirror, from any
state a mirror can reach.

* `Moves`: the writes of a mirror, with who changed the row of each pair last.
* `rebuild_restores`: **a pair last changed by a submission keeps its status, and a pair last
  changed by the mirror takes that of its last submission, or of the snapshot if it has none**.
* `rebuild_resurrects`: pairs that do not come back as they were.
-/

namespace Naiad
namespace Bridge

open Lib Netproto Server

/-- Who changes rows: a submission, signed or the operator's, a moderator's deletion, the mirror. -/
inductive Source
  | submission
  | moderation
  | mirror
deriving DecidableEq

def source : StoreWrite → Source
  | .submit _ _ => .submission
  | .seed _ _ _ => .submission
  | .moderatorDelete _ _ => .moderation
  | .sync _ => .mirror
  | .setBanned _ _ => .mirror
  | .backfill => .mirror

/-- A mirror, and who changed the row of each pair last. -/
structure Watched where
  node : BridgeNode
  lastChange : Hash × String → Option Source

/-- The changes from `s` to `s'` are those of `src`. -/
def noted (src : Source) (s s' : RepoStore) (last : Hash × String → Option Source) :
    Hash × String → Option Source :=
  fun k => if s'.row k.1 k.2 = s.row k.1 k.2 then last k else some src

/-- The status the log gives a pair. -/
def lastLogged (s : RepoStore) (k : Hash × String) : Option MappingStatus :=
  lastWrite (s.submissions.filterMap logWrite) k

/-- The status the snapshot gives a pair: deleted rows come after current ones. -/
def seededStatus (snap : Snapshot) (k : Hash × String) : Option MappingStatus :=
  lastWrite (snap.items.filterMap bulkWrite) k

def Watched.write (verify : Submission → Bool) (x : Watched) (w : StoreWrite) : Watched :=
  ⟨x.node.setStore (applyWrite verify x.node.repo.toRepoStore w),
    noted (source w) x.node.repo.toRepoStore (applyWrite verify x.node.repo.toRepoStore w)
      x.lastChange⟩

/-- What happens to a mirror: a write of the serving process or a pass of the bridge, a plain seed,
a rebuild, which writes the pairs of the log as their submissions. -/
inductive Moves (verify : Submission → Bool) : Watched → Watched → Prop
  | write (x : Watched) (w : StoreWrite) : Moves verify x (x.write verify w)
  | seed (x : Watched) (snap : Snapshot) (bridge : Signer) (ts : Int) (generation : String)
    (node : BridgeNode) (h : (seedRun snap bridge ts generation false).Returns x.node () node) :
    Moves verify x
      ⟨node, noted .mirror x.node.repo.toRepoStore node.repo.toRepoStore x.lastChange⟩
  | rebuild (x : Watched) (snap : Snapshot) (bridge : Signer) (ts : Int) (generation : String)
    (node : BridgeNode) (h : (seedRun snap bridge ts generation true).Returns x.node () node) :
    Moves verify x
      ⟨node, fun k => if (lastLogged x.node.repo.toRepoStore k).isSome then some .submission
        else noted .mirror x.node.repo.toRepoStore node.repo.toRepoStore x.lastChange k⟩

def Watched.start : Watched := ⟨.empty, fun _ => none⟩

def Reachable (verify : Submission → Bool) (x : Watched) : Prop :=
  Relation.ReflTransGen (Moves verify) .start x

theorem reachable_writes (verify : Submission → Bool) (ws : List StoreWrite) :
    Reachable verify (ws.foldl (Watched.write verify) .start) := by
  suffices h : ∀ x, Reachable verify x → Reachable verify (ws.foldl (Watched.write verify) x) from
    h .start .refl
  induction ws with
  | nil => exact fun _ hx => hx
  | cons w ws ih => exact fun x hx => ih _ (hx.tail (.write x w))

/-! ## What a mirror between two moves is -/

/-- The pairs last changed by a submission have the status the log gives them. -/
def Restored (s : RepoStore) (last : Hash × String → Option Source) : Prop :=
  ∀ k, last k = some .submission → ∃ v, lastLogged s k = some v ∧ s.statuses k = some v

structure Restorable (x : Watched) : Prop where
  serving : Serving x.node.repo.toRepoStore
  seedCkpt : x.node.repo.seedCkpt = none
  rebuildInProgress : x.node.repo.rebuildInProgress = false
  restored : Restored x.node.repo.toRepoStore x.lastChange

section

variable {s s' : RepoStore} {last : Hash × String → Option Source}

/-- What is logged as it is written stays in step. -/
theorem restored_of_logged {logged : List LoggedSubmission}
    (hw : Wrote s s' (logged.filterMap logWrite) logged) (h : Restored s last) :
    Restored s' (noted .submission s s' last) := by
  intro k hk
  have hlog : lastLogged s' k = (lastWrite (logged.filterMap logWrite) k).or (lastLogged s k) := by
    rw [lastLogged, hw.submissions, List.filterMap_append, lastWrite_append]
    rfl
  rw [hlog, hw.statuses, writeAll_apply]
  cases hl : lastWrite (logged.filterMap logWrite) k with
  | some v => exact ⟨v, rfl, rfl⟩
  | none =>
    simp only [noted, hw.rows k.1 k.2 hl, if_true] at hk
    simpa using h k hk

/-- What others write is theirs. -/
theorem restored_of_source {src : Source} (hsrc : src ≠ .submission)
    (hlog : s'.submissions = s.submissions) (h : Restored s last) :
    Restored s' (noted src s s' last) := by
  intro k hk
  unfold noted at hk
  split at hk
  · rename_i hrow
    have hst : s'.statuses k = s.statuses k := by simp [RepoStore.statuses, hrow]
    rw [hst, lastLogged, hlog]
    exact h k hk
  · exact absurd (Option.some.inj hk) hsrc

end

/-- The checkpoint and the marker, which only the seed writes. -/
def seedMeta (s : RepoStore) : Option SeedCheckpoint × Bool := (s.seedCkpt, s.rebuildInProgress)

theorem seedMeta_of_remapped {s s' : RepoStore} (h : Remapped s s') :
    seedMeta s' = seedMeta s := by
  obtain ⟨_, _, _, rfl⟩ := h
  rfl

theorem seedMeta_ensureAccount (s : RepoStore) (pubkey : String) (ts : Int) :
    seedMeta (s.ensureAccount pubkey ts) = seedMeta s := by
  unfold RepoStore.ensureAccount
  split
  · rfl
  · rfl

theorem seedMeta_adjust (s : RepoStore) (before after : Nat) :
    seedMeta (s.adjustDistinctHashCount before after) = seedMeta s := by
  unfold RepoStore.adjustDistinctHashCount
  split
  · rfl
  · split
    · rfl
    · rfl

theorem seedMeta_applySubmissionTx (s : RepoStore) (ts : Int) (sub : Submission) (hash : Hash) :
    seedMeta (s.applySubmissionTx ts sub hash) = seedMeta s := by
  simp only [RepoStore.applySubmissionTx]
  split
  · rw [seedMeta_adjust]
    rfl
  · rfl

theorem seedMeta_seedFold (account : Account) (ts : Int) (items : List (Hash × Tag))
    (st : SeedState) :
    seedMeta (items.foldl (seedItem account ts) st).store = seedMeta st.store := by
  induction items generalizing st with
  | nil => rfl
  | cons item items ih =>
    rw [List.foldl_cons, ih]
    simp only [seedItem]
    split
    · rfl
    · rfl

theorem seedMeta_applyChunks (chunks : List (List (String × String × Bool))) (s : RepoStore) :
    seedMeta (s.applyChunks chunks).1 = seedMeta s := by
  induction chunks generalizing s with
  | nil => rfl
  | cons chunk chunks ih =>
    rw [RepoStore.applyChunks]
    split
    · rfl
    · rename_i st hst
      have himpl : s.applyMappingsImpl chunk .empty s.mappingCursor .indexed none = .ok st := hst
      obtain ⟨_, st₁, hitems, rfl⟩ := applyMappingsImpl_eq_ok himpl
      rw [ih]
      exact seedMeta_of_remapped (remapped_applyItems hitems)

theorem seedMeta_applyWrite (verify : Submission → Bool) (s : RepoStore) (w : StoreWrite) :
    seedMeta (applyWrite verify s w) = seedMeta s := by
  cases w with
  | submit ts sub =>
    simp only [applyWrite]
    rcases applySubmission_cases verify s ts sub with ⟨_, _, heq⟩ | ⟨hash, _, heq⟩
    · rcases heq with heq | heq
      · rw [heq]
      · rw [heq, seedMeta_ensureAccount]
    · rw [heq, seedMeta_applySubmissionTx, seedMeta_ensureAccount]
  | moderatorDelete hash tag =>
    simp only [applyWrite]
    cases hdel : s.moderatorDeleteMapping hash tag with
    | error e => rfl
    | ok s' =>
      obtain ⟨_, _, _, _, _, _, _, _, rfl⟩ := moderatorDeleteMapping_eq_ok hdel
      rfl
  | seed account ts items =>
    simp only [applyWrite, RepoStore.seedMappings]
    split
    · exact seedMeta_ensureAccount s _ ts
    · rw [seedMeta_seedFold, seedMeta_ensureAccount]
  | sync pass =>
    simp only [applyWrite, RepoStore.syncPass]
    rw [← seedMeta_applyChunks pass.chunks s]
    split
    · unfold RepoStore.refreshDistinctHashCount
      split
      · rfl
      · rfl
    · rfl
  | setBanned pubkey banned =>
    simp only [applyWrite, RepoStore.setBanned]
    split
    · rfl
    · rfl
  | backfill =>
    simp only [applyWrite, RepoStore.backfillDistinctHashCount]
    split
    · rfl
    · rfl

/-- What each write logs, and what is owed for the others. -/
theorem restored_applyWrite (verify : Submission → Bool) {x : Watched} (h : Restorable x)
    (w : StoreWrite) :
    Restored (applyWrite verify x.node.repo.toRepoStore w)
      (noted (source w) x.node.repo.toRepoStore (applyWrite verify x.node.repo.toRepoStore w)
        x.lastChange) := by
  have hs := h.serving
  have hnothing : Wrote x.node.repo.toRepoStore x.node.repo.toRepoStore
      (([] : List LoggedSubmission).filterMap logWrite) [] := .refl _
  have haccount : ∀ pubkey ts, Wrote x.node.repo.toRepoStore
      (x.node.repo.ensureAccount pubkey ts) (([] : List LoggedSubmission).filterMap logWrite) [] :=
    fun pubkey ts => wrote_ensureAccount _ pubkey ts
  cases w with
  | submit ts sub =>
    simp only [applyWrite, source]
    rcases applySubmission_cases verify x.node.repo.toRepoStore ts sub with
      ⟨_, _, heq⟩ | ⟨hash, hdec, heq⟩
    · rcases heq with heq | heq
      · rw [heq]
        exact restored_of_logged hnothing h.restored
      · rw [heq]
        exact restored_of_logged (haccount sub.author ts) h.restored
    · rw [heq]
      have hev := evolves_ensureAccount hs.sound 0 sub.author ts
      have hw := (wrote_ensureAccount x.node.repo.toRepoStore sub.author ts).trans
        (wrote_applySubmissionTx hev.sound ts sub hash)
      have hlogged : [Submission.logged sub ts].filterMap logWrite =
          [((hash, sub.tag), sub.op.status)] := by
        rw [List.filterMap_cons, logWrite_logged hdec]
        rfl
      simp only [List.nil_append] at hw
      rw [← hlogged] at hw
      exact restored_of_logged hw h.restored
  | seed account ts items =>
    simp only [applyWrite, source]
    rcases wrote_seedMappings hs.sound account ts items with ⟨_, heq⟩ | ⟨_, hw⟩
    · rw [heq]
      exact restored_of_logged (haccount account.publicHex ts) h.restored
    · exact restored_of_logged hw h.restored
  | moderatorDelete hash tag =>
    refine restored_of_source (by simp [source]) ?_ h.restored
    simp only [applyWrite]
    cases hdel : x.node.repo.moderatorDeleteMapping hash tag with
    | error e => rfl
    | ok s' =>
      obtain ⟨_, _, _, _, hdec, _⟩ := moderatorDeleteMapping_eq_ok hdel
      simpa using (wrote_moderatorDeleteMapping hdec hdel).submissions
  | sync pass =>
    refine restored_of_source (by simp [source]) ?_ h.restored
    obtain ⟨_, _, hw, _⟩ := wrote_applyChunks pass.chunks hs.sound hs.hashUniqueIndex
    have hchunks : (x.node.repo.applyChunks pass.chunks).1.submissions =
        x.node.repo.submissions := by simpa using hw.submissions
    simp only [applyWrite, RepoStore.syncPass]
    split
    · unfold RepoStore.refreshDistinctHashCount
      split
      · exact hchunks
      · exact hchunks
    · exact hchunks
  | setBanned pubkey banned =>
    refine restored_of_source (by simp [source]) ?_ h.restored
    simp only [applyWrite, RepoStore.setBanned]
    split
    · rfl
    · rfl
  | backfill =>
    refine restored_of_source (by simp [source]) ?_ h.restored
    simp only [applyWrite, RepoStore.backfillDistinctHashCount]
    split
    · rfl
    · rfl

theorem resumes_of_marker {snap : Snapshot} {node : BridgeNode}
    (h : node.repo.rebuildInProgress = false) : node.resumes snap = false := by
  simp [BridgeNode.resumes, h]

theorem statuses_rebuilt {snap : Snapshot} {node₀ node : BridgeNode}
    (h : Rebuilt snap node₀ node) (k : Hash × String) :
    node.repo.statuses k = (lastLogged node₀.repo.toRepoStore k).or (seededStatus snap k) := by
  rw [h.statuses, writeAll_apply, writeAll_apply, Option.or_none]
  rfl

theorem restorable_step {verify : Submission → Bool} {x y : Watched} (h : Restorable x)
    (hm : Moves verify x y) : Restorable y := by
  cases hm with
  | write w =>
    have hkeys := seedMeta_applyWrite verify x.node.repo.toRepoStore w
    have hkeys := Prod.mk.inj hkeys
    exact ⟨serving_applyWrite verify h.serving w, hkeys.1.trans h.seedCkpt,
      hkeys.2.trans h.rebuildInProgress, restored_applyWrite verify h w⟩
  | seed snap bridge ts generation node hrun =>
    have hdone := seeded_of_returns h.serving h.seedCkpt hrun
    exact ⟨hdone.serving, hdone.seedCkpt, hdone.rebuildInProgress,
      restored_of_source (by decide) hdone.submissions h.restored⟩
  | rebuild snap bridge ts generation node hrun =>
    have hdone := rebuilt_of_returns (resumes_of_marker h.rebuildInProgress)
      h.serving.sound.tags hrun
    refine ⟨hdone.serving, hdone.seedCkpt, hdone.rebuildInProgress, ?_⟩
    intro k hk
    have hlog : lastLogged node.repo.toRepoStore k = lastLogged x.node.repo.toRepoStore k := by
      rw [lastLogged, hdone.submissions]
      rfl
    cases hl : lastLogged x.node.repo.toRepoStore k with
    | some v =>
      refine ⟨v, hlog.trans hl, ?_⟩
      rw [statuses_rebuilt hdone, hl]
      rfl
    | none =>
      simp only [hl, Option.isSome_none, Bool.false_eq_true, if_false] at hk
      exact restored_of_source (by decide) hdone.submissions h.restored k hk

theorem restorable_of_reachable {verify : Submission → Bool} {x : Watched}
    (h : Reachable verify x) : Restorable x := by
  induction h with
  | refl =>
    refine ⟨⟨RepoStore.sound_empty, rfl⟩, rfl, rfl, ?_⟩
    intro k hk
    cases hk
  | tail _ hm ih => exact restorable_step ih hm

/-- **`rebuild_restores`**: from any state a mirror can reach, a rebuild that ends leaves a pair last
changed by a submission with the status it had, and a pair last changed by the mirror, or never,
with the status of its last logged submission if it has one, else with the snapshot's. -/
theorem rebuild_restores {verify : Submission → Bool} {x : Watched} (hx : Reachable verify x)
    {snap : Snapshot} {bridge : Signer} {ts : Int} {generation : String} {node : BridgeNode}
    (h : (seedRun snap bridge ts generation true).Returns x.node () node) (k : Hash × String) :
    (x.lastChange k = some .submission → node.repo.statuses k = x.node.repo.statuses k) ∧
      (x.lastChange k = some .mirror ∨ x.lastChange k = none →
        node.repo.statuses k =
          (lastLogged x.node.repo.toRepoStore k).or (seededStatus snap k)) := by
  have hr := restorable_of_reachable hx
  have hdone := rebuilt_of_returns (resumes_of_marker hr.rebuildInProgress) hr.serving.sound.tags h
  refine ⟨fun hk => ?_, fun _ => statuses_rebuilt hdone k⟩
  obtain ⟨v, hlog, hst⟩ := hr.restored k hk
  rw [statuses_rebuilt hdone, hlog, hst]
  rfl

/-! ## Pairs that do not come back -/

def sampleSubmission (tag : String) : Submission :=
  ⟨protocolVersion, .add, (Hash.fill 0).toHex, tag, "k", "s", none⟩

/-- Two tags submitted; then one is deleted by a moderator, the other by the upstream. -/
def sampleMirror : Watched :=
  [.submit 0 (sampleSubmission "a"), .submit 0 (sampleSubmission "b"),
    .moderatorDelete (Hash.fill 0).toHex "b",
    .sync ⟨[[((Hash.fill 0).toHex, "a", true)]], true, true⟩].foldl
    (Watched.write fun _ => true) .start

/-- A snapshot with one deleted mapping. -/
def rebuildSnapshot : Snapshot where
  serviceId := 1
  fingerprint := "f"
  current := []
  deleted := [⟨1, (Hash.fill 0).toHex, "a"⟩]
  hashOrdered := true
  hashDefs := []
  tagDefs := []
  watermark := none
  relations := []
  currentOrdered := by simp
  deletedOrdered := by simp
  oneHash := by simp

def rebuildSigner : Signer := ⟨"bridge", fun _ _ _ _ => []⟩

def sampleRebuilt : BridgeNode :=
  (seedRun rebuildSnapshot rebuildSigner 0 "g" true).final sampleMirror.node

/-- The rebuild brings back a tag a moderator deleted, and one the upstream and its snapshot have
deleted, because both were submitted once. -/
theorem rebuild_resurrects :
    Reachable (fun _ => true) sampleMirror ∧
      (seedRun rebuildSnapshot rebuildSigner 0 "g" true).Returns sampleMirror.node ()
        sampleRebuilt ∧
      (sampleMirror.lastChange (Hash.fill 0, "b") = some .moderation ∧
        sampleMirror.node.repo.statuses (Hash.fill 0, "b") = some .deleted ∧
        sampleRebuilt.repo.statuses (Hash.fill 0, "b") = some .current) ∧
      (sampleMirror.lastChange (Hash.fill 0, "a") = some .mirror ∧
        seededStatus rebuildSnapshot (Hash.fill 0, "a") = some .deleted ∧
        sampleRebuilt.repo.statuses (Hash.fill 0, "a") = some .current) := by
  refine ⟨reachable_writes _ _, ⟨rfl, rfl⟩, ?_, ?_⟩
  · decide +kernel
  · decide +kernel

def sampleSubmitted : Watched :=
  [.submit 0 (sampleSubmission "b")].foldl (Watched.write fun _ => true) .start

/-- A tag submitted is held again after the rebuild, and one the snapshot brings is as it has it. -/
theorem rebuild_restores_sample :
    ∃ node : BridgeNode,
      node.repo.statuses (Hash.fill 0, "b") =
          sampleSubmitted.node.repo.statuses (Hash.fill 0, "b") ∧
        node.repo.statuses (Hash.fill 0, "a") = some .deleted := by
  have hx : Reachable (fun _ => true) sampleSubmitted := reachable_writes _ _
  have hret : (seedRun rebuildSnapshot rebuildSigner 0 "g" true).Returns sampleSubmitted.node ()
      ((seedRun rebuildSnapshot rebuildSigner 0 "g" true).final sampleSubmitted.node) := ⟨rfl, rfl⟩
  have hb := (rebuild_restores hx hret (Hash.fill 0, "b")).1 (by decide +kernel)
  have ha := (rebuild_restores hx hret (Hash.fill 0, "a")).2 (by decide +kernel)
  have hlog : (lastLogged sampleSubmitted.node.repo.toRepoStore (Hash.fill 0, "a")).or
      (seededStatus rebuildSnapshot (Hash.fill 0, "a")) = some .deleted := by decide +kernel
  exact ⟨_, hb, ha.trans hlog⟩

end Bridge
end Naiad
