import Naiad.Server.Write

/-!
# Naiad.Server.Evolve

Every write path keeps a sound store sound and gives every row it changes a sequence number past
the cursor the store had before.

* `evolves_assert`: the intern, intern, upsert sequence the write paths share.
* `evolves_applySubmission`, `evolves_moderatorDeleteMapping`, `evolves_seedMappings`,
  `evolves_applyMappingsBulk`: the four write paths.
-/

namespace Naiad
namespace Server

open Lib Netproto

theorem evolves_assert {s : RepoStore} (hs : s.Sound) {c : Nat} (hash : Hash) (tag : String)
    (new : MappingRow) {merge : MappingRow → Option MappingRow}
    (hmerge : ∀ old r, merge old = some r → r.seq = new.seq)
    (hnew : s.mappingCursor < new.seq) (hc : c < new.seq) :
    Evolves c s (((s.internHash hash).1.internTag tag).1.upsertMapping
      ((s.internHash hash).2, ((s.internHash hash).1.internTag tag).2) new merge).1 := by
  have h1 := RepoStore.evolves_internHash hs c hash
  have h2 := RepoStore.evolves_internTag h1.sound c tag
  refine (h1.trans h2).trans (RepoStore.evolves_upsertMapping h2.sound (h := hash) (t := tag)
    ?_ ?_ hmerge hnew hc)
  · rw [RepoStore.internTag_hashes]
    exact RepoStore.idOf_internHash s hash
  · exact RepoStore.idOf_internTag _ tag

theorem evolves_ensureAccount {s : RepoStore} (hs : s.Sound) (c : Nat) (pubkey : String)
    (ts : Int) : Evolves c s (s.ensureAccount pubkey ts) := by
  unfold RepoStore.ensureAccount
  split
  · exact Evolves.refl hs c
  · exact Evolves.of_eq hs rfl rfl rfl

theorem evolves_setBanned {s : RepoStore} (hs : s.Sound) (c : Nat) (pubkey : String)
    (banned : Bool) : Evolves c s (s.setBanned pubkey banned) := by
  unfold RepoStore.setBanned
  split
  · exact Evolves.of_eq hs rfl rfl rfl
  · exact Evolves.refl hs c

theorem evolves_adjust {s : RepoStore} (hs : s.Sound) (c before after : Nat) :
    Evolves c s (s.adjustDistinctHashCount before after) := by
  unfold RepoStore.adjustDistinctHashCount
  split
  · exact Evolves.of_eq hs rfl rfl rfl
  · split
    · exact Evolves.of_eq hs rfl rfl rfl
    · exact Evolves.refl hs c

@[simp] theorem ensureAccount_cursor (s : RepoStore) (pubkey : String) (ts : Int) :
    (s.ensureAccount pubkey ts).mappingCursor = s.mappingCursor := by
  unfold RepoStore.ensureAccount
  split <;> rfl

theorem evolves_applySubmissionTx {s : RepoStore} (hs : s.Sound) (ts : Int) (sub : Submission)
    (hash : Hash) : Evolves s.mappingCursor s (s.applySubmissionTx ts sub hash) := by
  have h1 : Evolves s.mappingCursor s (s.appendSubmission ts sub) :=
    Evolves.of_eq hs rfl rfl rfl
  let new : MappingRow := ⟨sub.op.status, s.mappingCursor + 1, sub.origin⟩
  have h2 := evolves_assert h1.sound (c := s.mappingCursor) hash sub.tag new
    (fun old r (h : mergeStatusOrigin new old = some r) => mergeStatusOrigin_seq h) (Nat.lt_succ_self _) (Nat.lt_succ_self _)
  simp only [RepoStore.applySubmissionTx]
  split
  · exact (h1.trans h2).trans (evolves_adjust h2.sound _ _ _)
  · exact h1.trans h2

theorem evolves_applySubmission (verify : Submission → Bool) {s : RepoStore} (hs : s.Sound)
    (ts : Int) (sub : Submission) :
    Evolves s.mappingCursor s (s.applySubmission verify ts sub).1 := by
  have ha := evolves_ensureAccount hs s.mappingCursor sub.author ts
  unfold RepoStore.applySubmission
  split
  · exact Evolves.refl hs _
  · split
    · exact ha
    · split
      · exact ha
      · have htx := evolves_applySubmissionTx ha.sound ts sub (by assumption)
        rw [ensureAccount_cursor] at htx
        exact ha.trans htx

theorem evolves_moderatorDeleteMapping {s s' : RepoStore} (hs : s.Sound) {hash tag : String}
    (h : s.moderatorDeleteMapping hash tag = .ok s') : Evolves s.mappingCursor s s' := by
  unfold RepoStore.moderatorDeleteMapping at h
  split at h
  · cases h
  · rename_i hb hdec
    split at h
    · rename_i hid tid hh ht
      split at h
      · rename_i old hl
        cases h
        -- the statement is the upsert whose conflict clause always updates
        have hup : Evolves s.mappingCursor s (s.upsertMapping (hid, tid)
            { old with status := .deleted, seq := s.mappingCursor + 1 }
            (fun o => some { o with status := .deleted, seq := s.mappingCursor + 1 })).1 :=
          RepoStore.evolves_upsertMapping hs hh ht
            (fun _ _ h => by cases h; rfl) (Nat.lt_succ_self _) (Nat.lt_succ_self _)
        have heq : (s.upsertMapping (hid, tid)
            { old with status := .deleted, seq := s.mappingCursor + 1 }
            (fun o => some { o with status := .deleted, seq := s.mappingCursor + 1 })).1 =
            s.setMapping (hid, tid)
              { old with status := .deleted, seq := s.mappingCursor + 1 } := by
          simp [RepoStore.upsertMapping, Table.upsert, hl, RepoStore.setMapping]
        rw [heq] at hup
        exact hup.trans (Evolves.of_eq hup.sound rfl rfl rfl)
      · cases h
    · cases h

/-! ## The loops -/

section Seed

/-- The seed loop: rows below `c` are as they were, and the counter is at or past the cursor. -/
def SeedInv (c : Nat) (s : RepoStore) (st : SeedState) : Prop :=
  Evolves c s st.store ∧ st.store.mappingCursor ≤ st.nextSeq ∧ c ≤ st.nextSeq

theorem seedInv_seedItem {c : Nat} {s : RepoStore} {account : Account} {ts : Int}
    {st : SeedState} (h : SeedInv c s st) (item : Hash × Tag) :
    SeedInv c s (seedItem account ts st item) := by
  obtain ⟨hev, hcur, hc⟩ := h
  have h1 := RepoStore.evolves_internHash hev.sound c item.1
  have h2 := RepoStore.evolves_internTag h1.sound c item.2.display
  simp only [seedItem]
  split
  · exact ⟨hev.trans (h1.trans h2), hcur, hc⟩
  · let s₂ := ((st.store.internHash item.1).1.internTag item.2.display).1
    let new : MappingRow := ⟨.current, st.nextSeq + 1, none⟩
    have h3 : Evolves c s₂ (s₂.appendSubmission ts (account.sign .add item.1 item.2)) :=
      Evolves.of_eq h2.sound rfl rfl rfl
    have hh : s₂.repoHashes.idOf item.1 = some (st.store.internHash item.1).2 :=
      RepoStore.idOf_internHash _ _
    have ht : s₂.repoTags.idOf item.2.display =
        some ((st.store.internHash item.1).1.internTag item.2.display).2 :=
      RepoStore.idOf_internTag _ _
    have hlt : st.store.mappingCursor < new.seq := Nat.lt_succ_of_le hcur
    have hmerge : ∀ old r, mergeStatus new old = some r → r.seq = new.seq :=
      fun _ _ h => mergeStatus_seq h
    have h4 := RepoStore.evolves_upsertMapping h3.sound (c := c) hh ht hmerge hlt
      (Nat.lt_succ_of_le hc)
    have hc4 := RepoStore.cursor_upsertMapping
      (s := s₂.appendSubmission ts (account.sign .add item.1 item.2)) hh ht hmerge hlt
    refine ⟨hev.trans (h1.trans (h2.trans (h3.trans h4))), ?_, Nat.le_succ_of_le hc⟩
    change (RepoStore.upsertMapping _ _ _ _).1.mappingCursor ≤ st.nextSeq + 1
    rw [hc4]
    split
    · exact Nat.le_succ_of_le hcur
    · exact le_refl _

theorem seedInv_foldl {c : Nat} {s : RepoStore} {account : Account} {ts : Int}
    (items : List (Hash × Tag)) {st : SeedState} (h : SeedInv c s st) :
    SeedInv c s (items.foldl (seedItem account ts) st) := by
  induction items generalizing st with
  | nil => exact h
  | cons item items ih => exact ih (seedInv_seedItem h item)

theorem evolves_seedMappings {s : RepoStore} (hs : s.Sound) (account : Account) (ts : Int)
    (items : List (Hash × Tag)) :
    Evolves s.mappingCursor s (s.seedMappings account ts items).1 := by
  have ha := evolves_ensureAccount hs s.mappingCursor account.publicHex ts
  simp only [RepoStore.seedMappings]
  split
  · exact ha
  · refine (seedInv_foldl items ⟨ha, le_refl _, ?_⟩).1
    rw [ensureAccount_cursor]

end Seed

section Bulk

/-- The caches hold the ids the tables would give. -/
structure InternCaches.Valid (caches : InternCaches) (s : RepoStore) : Prop where
  hash : ∀ h id, caches.hash.lookup h = some id → s.repoHashes.idOf h = some id
  tag : ∀ t id, caches.tag.lookup t = some id → s.repoTags.idOf t = some id

theorem InternCaches.valid_empty (s : RepoStore) : InternCaches.empty.Valid s := by
  constructor
  · intro h id hl
    simp [InternCaches.empty] at hl
  · intro t id hl
    simp [InternCaches.empty] at hl

theorem valid_internHash {s : RepoStore} {caches : InternCaches} (hv : caches.Valid s)
    (hash : Hash) :
    ({ caches with hash := caches.hash.insert hash (s.internHash hash).2 } : InternCaches).Valid
      (s.internHash hash).1 := by
  constructor
  · intro h id hl
    by_cases he : h = hash
    · subst he
      rw [AList.lookup_insert] at hl
      cases hl
      exact RepoStore.idOf_internHash s h
    · rw [AList.lookup_insert_ne he] at hl
      exact IdTable.idOf_intern_of_some (hv.hash h id hl)
  · exact hv.tag

theorem valid_internTag {s : RepoStore} {caches : InternCaches} (hv : caches.Valid s)
    (tag : String) :
    ({ caches with tag := caches.tag.insert tag (s.internTag tag).2 } : InternCaches).Valid
      (s.internTag tag).1 := by
  constructor
  · exact hv.hash
  · intro t id hl
    by_cases he : t = tag
    · subst he
      rw [AList.lookup_insert] at hl
      cases hl
      exact RepoStore.idOf_internTag s t
    · rw [AList.lookup_insert_ne he] at hl
      exact IdTable.idOf_intern_of_some (hv.tag t id hl)

/-- What resolving a hash owes the loop: the hash has the id, no row changes, the caches stay
valid. -/
structure Resolved (c : Nat) (s : RepoStore) (hash : Hash) (s' : RepoStore)
    (caches' : InternCaches) (id : Nat) : Prop where
  evolves : Evolves c s s'
  cursor : s'.mappingCursor = s.mappingCursor
  valid : caches'.Valid s'
  idOf : s'.repoHashes.idOf hash = some id
  row : s'.row = s.row
  index : s'.hashUniqueIndex = s.hashUniqueIndex

/-- The indexed resolver finds or interns the hash. -/
theorem resolveHash_indexed {s : RepoStore} (hs : s.Sound) {caches : InternCaches}
    (hv : caches.Valid s) (c : Nat) (hash : Hash) :
    ∃ s' caches' id, resolveHash .indexed s caches hash = .ok (s', caches', id) ∧
      Resolved c s hash s' caches' id := by
  unfold resolveHash
  cases hl : caches.hash.lookup hash with
  | some id =>
    exact ⟨s, caches, id, rfl, Evolves.refl hs c, rfl, hv, hv.hash _ _ hl, rfl, rfl⟩
  | none =>
    exact ⟨_, _, _, rfl, RepoStore.evolves_internHash hs c hash, rfl, valid_internHash hv hash,
      RepoStore.idOf_internHash s hash, RepoStore.row_internHash hs hash, rfl⟩

theorem resolveTag_spec {s : RepoStore} (hs : s.Sound) {caches : InternCaches}
    (hv : caches.Valid s) (c : Nat) (tag : String) :
    ∃ s' caches' id, resolveTag s caches tag = (s', caches', id) ∧
      Evolves c s s' ∧ s'.mappingCursor = s.mappingCursor ∧ caches'.Valid s' ∧
      s'.repoTags.idOf tag = some id ∧ s'.row = s.row ∧ s'.repoHashes = s.repoHashes ∧
      s'.hashUniqueIndex = s.hashUniqueIndex := by
  unfold resolveTag
  cases hl : caches.tag.lookup tag with
  | some id =>
    exact ⟨s, caches, id, rfl, Evolves.refl hs c, rfl, hv, hv.tag _ _ hl, rfl, rfl, rfl⟩
  | none =>
    exact ⟨_, _, _, rfl, RepoStore.evolves_internTag hs c tag, rfl, valid_internTag hv tag,
      RepoStore.idOf_internTag s tag, RepoStore.row_internTag hs tag, rfl, rfl⟩

/-- The bulk loop: rows below `c` are as they were, and the counter is at or past the cursor. -/
structure BulkInv (c : Nat) (s : RepoStore) (st : BulkState) : Prop where
  evolves : Evolves c s st.store
  caches : st.caches.Valid st.store
  cursor : st.store.mappingCursor ≤ st.nextSeq
  bound : c ≤ st.nextSeq

/-- An item with a resolved hash, in either mode. -/
theorem bulkInv_resolved {mode : HashResolve} {c : Nat} {s : RepoStore} {st st' : BulkState}
    (h : BulkInv c s st) {item : String × String × Bool} {hash : Hash}
    (hdec : (hexDecode item.1).bind Hash.ofBytes? = some hash) {s₁ : RepoStore}
    {caches₁ : InternCaches} {hid : Nat}
    (hr : resolveHash mode st.store st.caches hash = .ok (s₁, caches₁, hid))
    (h1 : Resolved c st.store hash s₁ caches₁ hid) (hst : applyItem mode st item = .ok st') :
    BulkInv c s st' := by
  obtain ⟨s₂, caches₂, tid, hrt, h2, hcur2, hv2, ht, _, hhs, _⟩ :=
    resolveTag_spec h1.evolves.sound h1.valid c item.2.1
  simp only [applyItem, hdec, hr, hrt] at hst
  cases hst
  let new : MappingRow := ⟨if item.2.2 then .deleted else .current, st.nextSeq + 1, none⟩
  have hh2 : s₂.repoHashes.idOf hash = some hid := by rw [hhs]; exact h1.idOf
  have hlt : s₂.mappingCursor < new.seq := by
    rw [hcur2, h1.cursor]
    exact Nat.lt_succ_of_le h.cursor
  have hmerge : ∀ old r, mergeStatus new old = some r → r.seq = new.seq :=
    fun _ _ h => mergeStatus_seq h
  have h3 := RepoStore.evolves_upsertMapping h2.sound (c := c) hh2 ht hmerge hlt
    (Nat.lt_succ_of_le h.bound)
  have hcur3 := RepoStore.cursor_upsertMapping hh2 ht hmerge hlt
  refine ⟨h.evolves.trans (h1.evolves.trans (h2.trans h3)), ⟨hv2.hash, hv2.tag⟩, ?_, ?_⟩
  · change (s₂.upsertMapping _ new _).1.mappingCursor ≤ ite _ _ _
    rw [hcur3]
    split
    · rw [hcur2, h1.cursor]
      exact h.cursor
    · exact le_refl _
  · change c ≤ if (s₂.upsertMapping (hid, tid) new (mergeStatus new)).2 = 0 then _ else _
    by_cases hz : (s₂.upsertMapping (hid, tid) new (mergeStatus new)).2 = 0
    · rw [if_pos hz]
      exact h.bound
    · rw [if_neg hz]
      exact Nat.le_succ_of_le h.bound

theorem bulkInv_applyItem {c : Nat} {s : RepoStore} {st st' : BulkState}
    (h : BulkInv c s st) {item : String × String × Bool}
    (hst : applyItem .indexed st item = .ok st') : BulkInv c s st' := by
  cases hdec : (hexDecode item.1).bind Hash.ofBytes? with
  | none =>
    simp only [applyItem, hdec] at hst
    cases hst
    exact h
  | some hash =>
    obtain ⟨s₁, caches₁, hid, hr, h1⟩ := resolveHash_indexed h.evolves.sound h.caches c hash
    exact bulkInv_resolved h hdec hr h1 hst

theorem bulkInv_applyItems {c : Nat} {s : RepoStore} {items : List (String × String × Bool)}
    {st st' : BulkState} (h : BulkInv c s st)
    (hst : applyItems .indexed st items = .ok st') : BulkInv c s st' := by
  induction items generalizing st with
  | nil =>
    cases hst
    exact h
  | cons item items ih =>
    rw [applyItems] at hst
    split at hst
    · cases hst
    · rename_i st₁ hitem
      exact ih (bulkInv_applyItem h hitem) hst

theorem bulkInv_applyMappingsBulkCached {c : Nat} {s₀ s : RepoStore} {caches : InternCaches}
    {nextSeq : Nat} (h : BulkInv c s₀ ⟨s, caches, nextSeq, ⟨0, 0⟩⟩)
    {items : List (String × String × Bool)} {ckpt : Option SeedCheckpoint} {st : BulkState}
    (hst : s.applyMappingsBulkCached items caches nextSeq ckpt = .ok st) : BulkInv c s₀ st := by
  simp only [RepoStore.applyMappingsBulkCached, RepoStore.applyMappingsImpl, if_true] at hst
  split at hst
  · cases hst
  · split at hst
    · cases hst
    · rename_i st₁ hitems
      have hv : ({ caches with hash := ∅ } : InternCaches).Valid s :=
        ⟨fun h id hl => by simp at hl, h.caches.tag⟩
      have hinit : BulkInv c s₀ ⟨s, { caches with hash := ∅ }, nextSeq, ⟨0, 0⟩⟩ :=
        ⟨h.evolves, hv, h.cursor, h.bound⟩
      have hinv := bulkInv_applyItems hinit hitems
      split at hst
      · cases hst
        exact hinv
      · cases hst
        have heq : Evolves c st₁.store { st₁.store with seedCkpt := some (by assumption) } :=
          Evolves.of_eq hinv.evolves.sound rfl rfl rfl
        exact ⟨hinv.evolves.trans heq, ⟨hinv.caches.hash, hinv.caches.tag⟩, hinv.cursor,
          hinv.bound⟩

theorem evolves_applyMappingsBulk {s : RepoStore} (hs : s.Sound)
    {items : List (String × String × Bool)} {st : BulkState}
    (hst : s.applyMappingsBulk items = .ok st) : Evolves s.mappingCursor s st.store :=
  (bulkInv_applyMappingsBulkCached
    ⟨Evolves.refl hs _, InternCaches.valid_empty s, le_refl _, le_refl _⟩ hst).evolves

end Bulk

end Server
end Naiad
