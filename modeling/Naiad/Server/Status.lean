import Naiad.Lib.LastWrite
import Naiad.Server.Evolve

/-!
# Naiad.Server.Status

What the write paths do to the statuses of the pairs: each is a list of writes, the last one of a
pair winning, and appends what it logs to the submissions.

* `Wrote`: the statuses after, and the log after.
* `wrote_applySubmissionTx`, `wrote_moderatorDeleteMapping`, `wrote_seedMappings`,
  `wrote_applyItems`: the write paths.
-/

namespace Naiad
namespace Server

open Lib Netproto

abbrev StatusWrite := (Hash × String) × MappingStatus

namespace RepoStore

def statuses (s : RepoStore) : Hash × String → Option MappingStatus := fun k =>
  (s.row k.1 k.2).map MappingRow.status

end RepoStore

/-- A write path's writes and what it logs; the rows of the other pairs stay. -/
structure Wrote (s s' : RepoStore) (ws : List StatusWrite) (logged : List LoggedSubmission) :
    Prop where
  statuses : s'.statuses = writeAll s.statuses ws
  rows : ∀ h t, lastWrite ws (h, t) = none → s'.row h t = s.row h t
  submissions : s'.submissions = s.submissions ++ logged
  hashUniqueIndex : s'.hashUniqueIndex = s.hashUniqueIndex

theorem Wrote.refl (s : RepoStore) : Wrote s s [] [] := ⟨rfl, fun _ _ _ => rfl, by simp, rfl⟩

theorem Wrote.trans {s s' s'' : RepoStore} {ws ws' : List StatusWrite}
    {logged logged' : List LoggedSubmission} (h : Wrote s s' ws logged)
    (h' : Wrote s' s'' ws' logged') : Wrote s s'' (ws ++ ws') (logged ++ logged') := by
  refine ⟨?_, ?_, ?_, h'.hashUniqueIndex.trans h.hashUniqueIndex⟩
  · rw [h'.statuses, h.statuses, writeAll_append]
  · intro hash tag hnone
    rw [lastWrite_append, Option.or_eq_none_iff] at hnone
    exact (h'.rows hash tag hnone.1).trans (h.rows hash tag hnone.2)
  · rw [h'.submissions, h.submissions, List.append_assoc]

/-- A store with the same rows and log. -/
theorem Wrote.of_row {s s' : RepoStore} (hr : s'.row = s.row)
    (hl : s'.submissions = s.submissions) (hi : s'.hashUniqueIndex = s.hashUniqueIndex) :
    Wrote s s' [] [] := by
  refine ⟨?_, fun h t _ => by rw [hr], ?_, hi⟩
  · funext k
    simp [RepoStore.statuses, hr]
  · simp [hl]

namespace RepoStore

theorem ensureAccount_row (s : RepoStore) (pubkey : String) (ts : Int) :
    (s.ensureAccount pubkey ts).row = s.row := by
  unfold ensureAccount
  split <;> rfl

theorem ensureAccount_index (s : RepoStore) (pubkey : String) (ts : Int) :
    (s.ensureAccount pubkey ts).hashUniqueIndex = s.hashUniqueIndex := by
  unfold ensureAccount
  split <;> rfl

theorem ensureAccount_submissions (s : RepoStore) (pubkey : String) (ts : Int) :
    (s.ensureAccount pubkey ts).submissions = s.submissions := by
  unfold ensureAccount
  split <;> rfl

theorem isBanned_ensureAccount (s : RepoStore) (pubkey : String) (ts : Int) :
    (s.ensureAccount pubkey ts).isBanned pubkey = s.isBanned pubkey := by
  unfold ensureAccount
  split
  · rfl
  · rename_i hnot
    have hnone : s.accounts.lookup pubkey = none := AList.lookup_eq_none.2 hnot
    simp [isBanned, hnone, AList.lookup_insert]

theorem adjustDistinctHashCount_row (s : RepoStore) (before after : Nat) :
    (s.adjustDistinctHashCount before after).row = s.row := by
  unfold adjustDistinctHashCount
  split
  · rfl
  · split <;> rfl

theorem adjustDistinctHashCount_index (s : RepoStore) (before after : Nat) :
    (s.adjustDistinctHashCount before after).hashUniqueIndex = s.hashUniqueIndex := by
  unfold adjustDistinctHashCount
  split
  · rfl
  · split <;> rfl

theorem adjustDistinctHashCount_submissions (s : RepoStore) (before after : Nat) :
    (s.adjustDistinctHashCount before after).submissions = s.submissions := by
  unfold adjustDistinctHashCount
  split
  · rfl
  · split <;> rfl

theorem upsertMapping_submissions (s : RepoStore) (k : Nat × Nat) (new : MappingRow)
    (merge : MappingRow → Option MappingRow) :
    (s.upsertMapping k new merge).1.submissions = s.submissions := rfl

end RepoStore

theorem wrote_ensureAccount (s : RepoStore) (pubkey : String) (ts : Int) :
    Wrote s (s.ensureAccount pubkey ts) [] [] :=
  .of_row (s.ensureAccount_row pubkey ts) (s.ensureAccount_submissions pubkey ts)
    (s.ensureAccount_index pubkey ts)

/-! ## The upsert -/

theorem mergeStatus_status (new old : MappingRow) :
    ((mergeStatus new old).getD old).status = new.status := by
  unfold mergeStatus
  split
  · assumption
  · rfl

theorem mergeStatusOrigin_status (new old : MappingRow) :
    ((mergeStatusOrigin new old).getD old).status = new.status := by
  unfold mergeStatusOrigin
  split
  · rename_i h
    exact h.1
  · rfl

theorem mergedRow_status {new : MappingRow} {merge : MappingRow → Option MappingRow}
    (hm : ∀ old, ((merge old).getD old).status = new.status) (old : Option MappingRow) :
    (RepoStore.mergedRow new merge old).status = new.status := by
  cases old with
  | none => rfl
  | some old => exact hm old

theorem wrote_upsertMapping {s : RepoStore} {h : Hash} {t : String} {hid tid : Nat}
    (hh : s.repoHashes.idOf h = some hid) (ht : s.repoTags.idOf t = some tid)
    {new : MappingRow} {merge : MappingRow → Option MappingRow}
    (hm : ∀ old, ((merge old).getD old).status = new.status) :
    Wrote s (s.upsertMapping (hid, tid) new merge).1 [((h, t), new.status)] [] := by
  refine ⟨?_, ?_, by simp [RepoStore.upsertMapping_submissions], rfl⟩
  · funext k
    obtain ⟨h', t'⟩ := k
    rw [writeAll_singleton]
    simp only [RepoStore.statuses, RepoStore.row_upsertMapping hh ht, write]
    by_cases hk : (h', t') = (h, t)
    · simp [hk, mergedRow_status hm]
    · simp [hk]
  · intro h' t' hnone
    have hk : (h', t') ≠ (h, t) :=
      Ne.symm (lastWrite_eq_none.1 hnone ((h, t), new.status) (by simp))
    rw [RepoStore.row_upsertMapping hh ht, if_neg hk]

theorem wrote_assert {s : RepoStore} (hs : s.Sound) (hash : Hash) (tag : String)
    {new : MappingRow} {merge : MappingRow → Option MappingRow}
    (hm : ∀ old, ((merge old).getD old).status = new.status) :
    Wrote s (((s.internHash hash).1.internTag tag).1.upsertMapping
      ((s.internHash hash).2, ((s.internHash hash).1.internTag tag).2) new merge).1
      [((hash, tag), new.status)] [] := by
  have h1 : Wrote s (s.internHash hash).1 [] [] := .of_row (RepoStore.row_internHash hs hash) rfl rfl
  have hs1 := (RepoStore.evolves_internHash hs 0 hash).sound
  have h2 : Wrote (s.internHash hash).1 ((s.internHash hash).1.internTag tag).1 [] [] :=
    .of_row (RepoStore.row_internTag hs1 tag) rfl rfl
  have h3 := wrote_upsertMapping (s := ((s.internHash hash).1.internTag tag).1) (h := hash)
    (t := tag) (RepoStore.idOf_internHash s hash) (RepoStore.idOf_internTag _ tag) hm
  exact (h1.trans h2).trans h3

/-! ## Submissions and deletions -/

/-- The log entry of a submission. -/
def Submission.logged (sub : Submission) (ts : Int) : LoggedSubmission :=
  ⟨sub.op, sub.hash, sub.tag, sub.author, sub.signature, ts, sub.origin⟩

theorem wrote_applySubmissionTx {s : RepoStore} (hs : s.Sound) (ts : Int) (sub : Submission)
    (hash : Hash) :
    Wrote s (s.applySubmissionTx ts sub hash) [((hash, sub.tag), sub.op.status)]
      [Submission.logged sub ts] := by
  let new : MappingRow := ⟨sub.op.status, s.mappingCursor + 1, sub.origin⟩
  have hev : Evolves 0 s (s.appendSubmission ts sub) := Evolves.of_eq hs rfl rfl rfl
  have hs1 := hev.sound
  have h1 : Wrote s (s.appendSubmission ts sub) [] [Submission.logged sub ts] :=
    ⟨rfl, fun _ _ _ => rfl, rfl, rfl⟩
  have h2 := h1.trans (wrote_assert hs1 hash sub.tag (mergeStatusOrigin_status new))
  simp only [RepoStore.applySubmissionTx]
  split
  · exact h2.trans (.of_row (RepoStore.adjustDistinctHashCount_row _ _ _)
      (RepoStore.adjustDistinctHashCount_submissions _ _ _)
      (RepoStore.adjustDistinctHashCount_index _ _ _))
  · exact h2

/-- What a submission does: nothing but an account, or the transaction for its hash. -/
theorem applySubmission_cases (verify : Submission → Bool) (s : RepoStore) (ts : Int)
    (sub : Submission) :
    (∃ e, (s.applySubmission verify ts sub).2 = .error e ∧
        ((s.applySubmission verify ts sub).1 = s ∨
          (s.applySubmission verify ts sub).1 = s.ensureAccount sub.author ts)) ∨
      ∃ hash, decodeHash sub.hash = .ok hash ∧ s.applySubmission verify ts sub =
        ((s.ensureAccount sub.author ts).applySubmissionTx ts sub hash, .ok ()) := by
  unfold RepoStore.applySubmission
  split
  · exact .inl ⟨_, rfl, .inl rfl⟩
  · split
    · exact .inl ⟨_, rfl, .inr rfl⟩
    · cases hdec : decodeHash sub.hash with
      | error e => exact .inl ⟨_, rfl, .inr rfl⟩
      | ok hash => exact .inr ⟨hash, rfl, rfl⟩

/-- What a deletion did: the row of the pair became deleted, and reports of it were closed. -/
theorem moderatorDeleteMapping_eq_ok {s s' : RepoStore} {hash tag : String}
    (h : s.moderatorDeleteMapping hash tag = .ok s') :
    ∃ hh hid tid old, decodeHash hash = .ok hh ∧ s.repoHashes.idOf hh = some hid ∧
      s.repoTags.idOf tag = some tid ∧ s.repoMappings.lookup (hid, tid) = some old ∧
      s' = (s.setMapping (hid, tid)
        { old with status := .deleted, seq := s.mappingCursor + 1 }).closeReports hash tag := by
  unfold RepoStore.moderatorDeleteMapping at h
  split at h
  · cases h
  · rename_i hh hdec
    split at h
    · rename_i hid tid hhid htid
      split at h
      · rename_i old hl
        cases h
        exact ⟨hh, hid, tid, old, hdec, hhid, htid, hl, rfl⟩
      · cases h
    · cases h

theorem moderatorDeleteMapping_of_status {s : RepoStore} {hash tag : String} {h : Hash}
    {st : MappingStatus} (hdec : decodeHash hash = .ok h) (hst : s.statuses (h, tag) = some st) :
    ∃ s', s.moderatorDeleteMapping hash tag = .ok s' := by
  obtain ⟨r, hr, _⟩ := Option.map_eq_some_iff.1 hst
  obtain ⟨hid, tid, hh, ht, hl⟩ := RepoStore.row_eq_some.1 hr
  unfold RepoStore.moderatorDeleteMapping
  rw [hdec]
  simp only [hh, ht, hl]
  exact ⟨_, rfl⟩

theorem wrote_moderatorDeleteMapping {s s' : RepoStore} {hash tag : String} {hh : Hash}
    (hdec : decodeHash hash = .ok hh) (h : s.moderatorDeleteMapping hash tag = .ok s') :
    Wrote s s' [((hh, tag), .deleted)] [] := by
  obtain ⟨hh', hid, tid, old, hdec', hhid, htid, hl, rfl⟩ := moderatorDeleteMapping_eq_ok h
  rw [hdec] at hdec'
  cases hdec'
  have hclose : ∀ x : RepoStore, Wrote x (x.closeReports hash tag) [] [] :=
    fun x => .of_row rfl rfl rfl
  have hset : Wrote s (s.setMapping (hid, tid)
      { old with status := .deleted, seq := s.mappingCursor + 1 }) [((hh, tag), .deleted)] [] := by
    refine ⟨?_, ?_, by simp [RepoStore.setMapping], rfl⟩
    · funext k
      obtain ⟨h', t'⟩ := k
      rw [writeAll_singleton]
      simp only [RepoStore.statuses, RepoStore.row_setMapping hhid htid, write]
      by_cases hk : (h', t') = (hh, tag)
      · simp [hk]
      · simp [hk]
    · intro h' t' hnone
      have hk : (h', t') ≠ (hh, tag) :=
        Ne.symm (lastWrite_eq_none.1 hnone ((hh, tag), MappingStatus.deleted) (by simp))
      rw [RepoStore.row_setMapping hhid htid, if_neg hk]
  exact hset.trans (hclose _)

/-! ## The seed -/

def seedWrite (item : Hash × Tag) : StatusWrite := ((item.1, item.2.display), .current)

/-- What the items of a seed log: nothing for a pair that is already current. -/
def seedLog (account : Account) (ts : Int) :
    (Hash × String → Option MappingStatus) → List (Hash × Tag) → List LoggedSubmission
  | _, [] => []
  | f, item :: items =>
    (if f (seedWrite item).1 = some .current then []
      else [Submission.logged (account.sign .add item.1 item.2) ts]) ++
      seedLog account ts (write f (seedWrite item)) items

theorem write_of_eq {f : Hash × String → Option MappingStatus} {w : StatusWrite}
    (h : f w.1 = some w.2) : write f w = f := by
  funext k
  by_cases hk : k = w.1
  · subst hk
    simp [write, h]
  · simp [write, hk]

/-- The write a logged submission makes when it is replayed. -/
def logWrite (l : LoggedSubmission) : Option StatusWrite :=
  match decodeHash l.hash with
  | .error _ => none
  | .ok hash => some ((hash, l.tag), l.op.status)

theorem logWrite_logged {sub : Submission} {ts : Int} {hash : Hash}
    (hdec : decodeHash sub.hash = .ok hash) :
    logWrite (Submission.logged sub ts) = some ((hash, sub.tag), sub.op.status) := by
  simp only [logWrite, Submission.logged, hdec]

theorem decodeHash_toHex (h : Hash) : decodeHash h.toHex = .ok h := by
  simp [decodeHash, Hash.ofBytes?_bytes]

theorem logWrite_seed (account : Account) (ts : Int) (item : Hash × Tag) :
    logWrite (Submission.logged (account.sign .add item.1 item.2) ts) = some (seedWrite item) :=
  logWrite_logged (decodeHash_toHex item.1)

/-- What an item writes is what it logs. -/
theorem wrote_seedItem (account : Account) (ts : Int) {st : SeedState} (hs : st.store.Sound)
    (item : Hash × Tag) :
    Wrote st.store (seedItem account ts st item).store
      ((seedLog account ts st.store.statuses [item]).filterMap logWrite)
      (seedLog account ts st.store.statuses [item]) := by
  let s₂ := ((st.store.internHash item.1).1.internTag item.2.display).1
  have h1 : Wrote st.store (st.store.internHash item.1).1 [] [] :=
    .of_row (RepoStore.row_internHash hs item.1) rfl rfl
  have hs1 := (RepoStore.evolves_internHash hs 0 item.1).sound
  have h2 : Wrote (st.store.internHash item.1).1 s₂ [] [] :=
    .of_row (RepoStore.row_internTag hs1 item.2.display) rfl rfl
  have hrow : s₂.row = st.store.row := by
    rw [RepoStore.row_internTag hs1, RepoStore.row_internHash hs]
  have hl : s₂.repoMappings.lookup ((st.store.internHash item.1).2,
      ((st.store.internHash item.1).1.internTag item.2.display).2) =
      st.store.row item.1 item.2.display := by
    rw [← hrow]
    exact RepoStore.lookup_eq_row (RepoStore.idOf_internHash _ _) (RepoStore.idOf_internTag _ _)
  have hst : (st.store.row item.1 item.2.display).map MappingRow.status =
      st.store.statuses (seedWrite item).1 := rfl
  simp only [seedItem, seedLog, List.append_nil]
  rw [hl, hst]
  split
  · exact h1.trans h2
  · let new : MappingRow := ⟨.current, st.nextSeq + 1, none⟩
    have h3 : Wrote s₂ (s₂.appendSubmission ts (account.sign .add item.1 item.2)) []
        [Submission.logged (account.sign .add item.1 item.2) ts] :=
      ⟨rfl, fun _ _ _ => rfl, rfl, rfl⟩
    have h4 := wrote_upsertMapping
      (s := s₂.appendSubmission ts (account.sign .add item.1 item.2)) (h := item.1)
      (t := item.2.display) (RepoStore.idOf_internHash _ _) (RepoStore.idOf_internTag _ _)
      (mergeStatus_status new)
    rw [List.filterMap_cons, logWrite_seed]
    exact ((h1.trans h2).trans h3).trans h4

/-- The items a seed skips would write what is there. -/
theorem writeAll_seedLog (account : Account) (ts : Int) (items : List (Hash × Tag))
    (f : Hash × String → Option MappingStatus) :
    writeAll f ((seedLog account ts f items).filterMap logWrite) =
      writeAll f (items.map seedWrite) := by
  induction items generalizing f with
  | nil => rfl
  | cons item items ih =>
    simp only [seedLog, List.filterMap_append, List.map_cons, writeAll_cons]
    rw [writeAll_append, ← ih]
    congr 1
    split
    · rename_i hcur
      exact (write_of_eq hcur).symm
    · rw [List.filterMap_cons, logWrite_seed]
      rfl

theorem wrote_seedFold (account : Account) (ts : Int) {c : Nat} {s : RepoStore}
    (items : List (Hash × Tag)) {st : SeedState} (h : SeedInv c s st) :
    Wrote st.store (items.foldl (seedItem account ts) st).store
      ((seedLog account ts st.store.statuses items).filterMap logWrite)
      (seedLog account ts st.store.statuses items) := by
  induction items generalizing st with
  | nil => exact .refl _
  | cons item items ih =>
    have h1 := wrote_seedItem account ts h.1.sound item
    have hinv : SeedInv c s (seedItem account ts st item) := seedInv_seedItem h item
    have h2 := ih hinv
    have hst : (seedItem account ts st item).store.statuses =
        write st.store.statuses (seedWrite item) := by
      rw [h1.statuses, writeAll_seedLog]
      rfl
    rw [hst] at h2
    simpa [seedLog] using h1.trans h2

/-- A seed does nothing for a banned account, and else writes what it logs. -/
theorem wrote_seedMappings {s : RepoStore} (hs : s.Sound) (account : Account) (ts : Int)
    (items : List (Hash × Tag)) :
    (s.isBanned account.publicHex = true ∧
        (s.seedMappings account ts items).1 = s.ensureAccount account.publicHex ts) ∨
      s.isBanned account.publicHex = false ∧
        Wrote s (s.seedMappings account ts items).1
          ((seedLog account ts s.statuses items).filterMap logWrite)
          (seedLog account ts s.statuses items) := by
  have ha := wrote_ensureAccount s account.publicHex ts
  have hev := evolves_ensureAccount hs s.mappingCursor account.publicHex ts
  simp only [RepoStore.seedMappings, RepoStore.isBanned_ensureAccount]
  cases hban : s.isBanned account.publicHex with
  | true => exact .inl ⟨rfl, by simp⟩
  | false =>
    have hinv : SeedInv s.mappingCursor s ⟨s.ensureAccount account.publicHex ts,
        (s.ensureAccount account.publicHex ts).mappingCursor, 0, 0⟩ := by
      refine ⟨hev, le_refl _, ?_⟩
      simp
    have h1 := wrote_seedFold account ts items hinv
    rw [ha.statuses] at h1
    exact .inr ⟨rfl, by simpa using ha.trans h1⟩

/-! ## The bulk load -/

/-- The write an item of a bulk load makes; a hash that does not decode makes none. -/
def bulkWrite (item : String × String × Bool) : Option StatusWrite :=
  ((hexDecode item.1).bind Hash.ofBytes?).map fun h =>
    ((h, item.2.1), if item.2.2 then .deleted else .current)

/-- Only the three tables of the mappings differ. -/
def Remapped (s s' : RepoStore) : Prop :=
  ∃ hashes tags mappings, s' =
    { s with repoHashes := hashes, repoTags := tags, repoMappings := mappings }

theorem Remapped.refl (s : RepoStore) : Remapped s s := ⟨_, _, _, rfl⟩

theorem Remapped.trans {s s' s'' : RepoStore} (h : Remapped s s') (h' : Remapped s' s'') :
    Remapped s s'' := by
  obtain ⟨hashes, tags, mappings, rfl⟩ := h
  obtain ⟨hashes', tags', mappings', rfl⟩ := h'
  exact ⟨hashes', tags', mappings', rfl⟩

/-- The fields of these a load of mappings is asked about. -/
structure SameLog (s s' : RepoStore) : Prop where
  submissions : s'.submissions = s.submissions
  distinctHashCount : s'.distinctHashCount = s.distinctHashCount
  hashUniqueIndex : s'.hashUniqueIndex = s.hashUniqueIndex

theorem SameLog.refl (s : RepoStore) : SameLog s s := ⟨rfl, rfl, rfl⟩

theorem SameLog.trans {s s' s'' : RepoStore} (h : SameLog s s') (h' : SameLog s' s'') :
    SameLog s s'' :=
  ⟨h'.submissions.trans h.submissions, h'.distinctHashCount.trans h.distinctHashCount,
    h'.hashUniqueIndex.trans h.hashUniqueIndex⟩

theorem Remapped.sameLog {s s' : RepoStore} (h : Remapped s s') : SameLog s s' := by
  obtain ⟨_, _, _, rfl⟩ := h
  exact ⟨rfl, rfl, rfl⟩

theorem remapped_appendHash {s s' : RepoStore} {caches caches' : InternCaches} {hash : Hash}
    {id : Nat} (h : appendHash s caches hash = .ok (s', caches', id)) : Remapped s s' := by
  unfold appendHash at h
  split at h
  · cases h
  · cases h
    exact ⟨_, _, _, rfl⟩

theorem remapped_resolveHash {mode : HashResolve} {s s' : RepoStore}
    {caches caches' : InternCaches} {hash : Hash} {id : Nat}
    (h : resolveHash mode s caches hash = .ok (s', caches', id)) : Remapped s s' := by
  unfold resolveHash at h
  split at h
  · split at h
    · cases h
      exact .refl s
    · cases h
      exact ⟨_, _, _, rfl⟩
  · split at h
    · split at h
      · cases h
        exact .refl s
      · exact remapped_appendHash h
    · exact remapped_appendHash h

theorem remapped_resolveTag (s : RepoStore) (caches : InternCaches) (tag : String) :
    Remapped s (resolveTag s caches tag).1 := by
  unfold resolveTag
  split
  · exact .refl s
  · exact ⟨_, _, _, rfl⟩

theorem remapped_applyItem {mode : HashResolve} {st st' : BulkState}
    {item : String × String × Bool} (h : applyItem mode st item = .ok st') :
    Remapped st.store st'.store := by
  unfold applyItem at h
  split at h
  · cases h
    exact .refl _
  · split at h
    · cases h
    · rename_i s₁ caches₁ hid hr
      cases h
      have hup : ∀ (x : RepoStore) k new merge, Remapped x (x.upsertMapping k new merge).1 :=
        fun _ _ _ _ => ⟨_, _, _, rfl⟩
      exact ((remapped_resolveHash hr).trans (remapped_resolveTag _ _ _)).trans (hup _ _ _ _)

theorem remapped_applyItems {mode : HashResolve} {items : List (String × String × Bool)}
    {st st' : BulkState} (h : applyItems mode st items = .ok st') :
    Remapped st.store st'.store := by
  induction items generalizing st with
  | nil =>
    cases h
    exact .refl _
  | cons item items ih =>
    rw [applyItems] at h
    split at h
    · cases h
    · rename_i st₁ hitem
      exact (remapped_applyItem hitem).trans (ih h)

theorem applyItem_indexed {c : Nat} {s : RepoStore} {st : BulkState} (h : BulkInv c s st)
    (item : String × String × Bool) : ∃ st', applyItem .indexed st item = .ok st' := by
  unfold applyItem
  split
  · exact ⟨st, rfl⟩
  · rename_i hash hdec
    obtain ⟨s₁, caches₁, hid, hr, _⟩ :=
      resolveHash_indexed h.evolves.sound h.caches c hash
    rw [hr]
    exact ⟨_, rfl⟩

/-- An item with a resolved hash is written, in either mode. -/
theorem wrote_resolved {mode : HashResolve} {c : Nat} {st st' : BulkState}
    {item : String × String × Bool} {hash : Hash}
    (hdec : (hexDecode item.1).bind Hash.ofBytes? = some hash) {s₁ : RepoStore}
    {caches₁ : InternCaches} {hid : Nat}
    (hr : resolveHash mode st.store st.caches hash = .ok (s₁, caches₁, hid))
    (h1 : Resolved c st.store hash s₁ caches₁ hid) (hst : applyItem mode st item = .ok st') :
    Wrote st.store st'.store (bulkWrite item).toList [] := by
  obtain ⟨s₂, caches₂, tid, hrt, h2, _, _, ht, hrow2, hhs, _⟩ :=
    resolveTag_spec h1.evolves.sound h1.valid c item.2.1
  let new : MappingRow := ⟨if item.2.2 then .deleted else .current, st.nextSeq + 1, none⟩
  have hlog1 := (remapped_resolveHash hr).sameLog
  have hlog2 := (remapped_resolveTag s₁ caches₁ item.2.1).sameLog
  rw [hrt] at hlog2
  have hw2 : Wrote st.store s₂ [] [] :=
    .of_row (hrow2.trans h1.row) (hlog2.submissions.trans hlog1.submissions)
      (hlog2.hashUniqueIndex.trans hlog1.hashUniqueIndex)
  have hw3 := wrote_upsertMapping (s := s₂) (h := hash) (t := item.2.1)
    (by rw [hhs]; exact h1.idOf) ht (mergeStatus_status new)
  simp only [applyItem, hdec, hr, hrt] at hst
  cases hst
  simpa [bulkWrite, hdec] using hw2.trans hw3

theorem wrote_applyItem {c : Nat} {s : RepoStore} {st st' : BulkState} (h : BulkInv c s st)
    {item : String × String × Bool} (hst : applyItem .indexed st item = .ok st') :
    Wrote st.store st'.store (bulkWrite item).toList [] := by
  cases hdec : (hexDecode item.1).bind Hash.ofBytes? with
  | none =>
    simp only [applyItem, hdec] at hst
    cases hst
    simpa [bulkWrite, hdec] using Wrote.refl st.store
  | some hash =>
    obtain ⟨s₁, caches₁, hid, hr, h1⟩ := resolveHash_indexed h.evolves.sound h.caches c hash
    exact wrote_resolved hdec hr h1 hst

/-- On a sound store with the hash index the items never fail, and each decodable one is written. -/
theorem wrote_applyItems {c : Nat} {s : RepoStore} (items : List (String × String × Bool))
    {st : BulkState} (h : BulkInv c s st) :
    ∃ st', applyItems .indexed st items = .ok st' ∧
      Wrote st.store st'.store (items.filterMap bulkWrite) [] := by
  induction items generalizing st with
  | nil => exact ⟨st, rfl, .refl _⟩
  | cons item items ih =>
    obtain ⟨st₁, h1⟩ := applyItem_indexed h item
    have hw1 := wrote_applyItem h h1
    obtain ⟨st₂, h2, hw2⟩ := ih (bulkInv_applyItem h h1)
    refine ⟨st₂, by simp [applyItems, h1, h2], ?_⟩
    have hw := hw1.trans hw2
    cases hb : bulkWrite item with
    | none => simpa [hb] using hw
    | some w => simpa [hb] using hw

theorem wrote_applyMappingsBulk {s : RepoStore} (hs : s.Sound) (hi : s.hashUniqueIndex = true)
    (items : List (String × String × Bool)) :
    ∃ st, s.applyMappingsBulk items = .ok st ∧
      Wrote s st.store (items.filterMap bulkWrite) [] ∧ SameLog s st.store := by
  have hinit : BulkInv s.mappingCursor s ⟨s, { InternCaches.empty with hash := ∅ },
      s.mappingCursor, ⟨0, 0⟩⟩ :=
    ⟨Evolves.refl hs _, InternCaches.valid_empty s, le_refl _, le_refl _⟩
  obtain ⟨st, h, hw⟩ := wrote_applyItems items hinit
  refine ⟨st, ?_, hw, (remapped_applyItems h).sameLog⟩
  simp [RepoStore.applyMappingsBulk, RepoStore.applyMappingsBulkCached,
    RepoStore.applyMappingsImpl, hi, h]

end Server
end Naiad
