import Naiad.Server.HashCount

/-!
# Naiad.Server.Rebuild

What a rebuild in place asks of the store: the mirrored mappings cleared, the bulk load of both
modes, and the submissions log replayed on top.

* `carried_applyMappingsImpl`: a chunk writes its items in either mode, as long as no hash ends up
  stored twice.
* `wrote_replaySubmissions`: the replay writes the log, in order.
-/

namespace Naiad
namespace Server

open Lib Netproto

namespace RepoStore

/-- `DELETE FROM repo_mappings; DELETE FROM repo_hashes`: tags and submissions stay. -/
def clearMirroredMappings (s : RepoStore) : RepoStore :=
  { s with repoMappings := ∅, repoHashes := .empty }

end RepoStore

structure ReplayState where
  store : RepoStore
  nextSeq : Nat
  replayed : Nat

/-- One logged submission; a hash that does not decode is skipped, an echo gives its sequence
number back. -/
def replaySubmission (st : ReplayState) (l : LoggedSubmission) : ReplayState :=
  match decodeHash l.hash with
  | .error _ => st
  | .ok hash =>
    let ih := st.store.internHash hash
    let it := ih.1.internTag l.tag
    let new : MappingRow := ⟨l.op.status, st.nextSeq + 1, l.origin⟩
    let up := it.1.upsertMapping (ih.2, it.2) new (mergeStatusOrigin new)
    { store := up.1
      nextSeq := if up.2 = 0 then st.nextSeq else st.nextSeq + 1
      replayed := st.replayed + 1 }

/-- The submissions log, oldest first, on top of the mappings. -/
def RepoStore.replaySubmissions (s : RepoStore) : RepoStore :=
  (s.submissions.foldl replaySubmission ⟨s, s.mappingCursor, 0⟩).store

/-- Soundness is a matter of the three mapping tables. -/
theorem sound_of_tables {s s' : RepoStore} (hs : s.Sound) (hh : s'.repoHashes = s.repoHashes)
    (ht : s'.repoTags = s.repoTags) (hm : s'.repoMappings = s.repoMappings) : s'.Sound :=
  (Evolves.of_eq (c := 0) hs hh ht hm).sound

/-! ## The empty mirror -/

theorem sound_clearMirroredMappings {s : RepoStore} (ht : s.repoTags.Unique) :
    s.clearMirroredMappings.Sound where
  hashes := IdTable.unique_empty
  tags := ht
  refs := by
    intro k r hl
    simp [RepoStore.clearMirroredMappings] at hl
  seqs := by
    intro k k' r r' hl
    simp [RepoStore.clearMirroredMappings] at hl

theorem statuses_clearMirroredMappings (s : RepoStore) :
    s.clearMirroredMappings.statuses = fun _ => none := by
  funext k
  simp [RepoStore.statuses, RepoStore.row, RepoStore.clearMirroredMappings, IdTable.idOf,
    IdTable.empty]

/-! ## The bulk load in both modes -/

theorem unique_of_append {t : IdTable Hash} {v : Hash} (h : (t.append v).Unique) :
    t.Unique ∧ v ∉ t.values := by
  have hnodup : (v :: t.values).Nodup := h
  exact ⟨(List.nodup_cons.1 hnodup).2, (List.nodup_cons.1 hnodup).1⟩

theorem intern_of_not_mem {t : IdTable Hash} {v : Hash} (h : v ∉ t.values) :
    t.intern v = (t.append v, t.nextId) := by
  simp [IdTable.intern, IdTable.idOf_eq_none.2 h]

theorem unique_of_intern {t : IdTable Hash} {v : Hash} (h : (t.intern v).1.Unique) :
    t.Unique := by
  unfold IdTable.intern at h
  split at h
  · exact h
  · exact (unique_of_append h).1

/-- The hash appended last has the id it was given. -/
def CarryValid (caches : InternCaches) (s : RepoStore) : Prop :=
  ∀ h id, caches.hashCarry = some (h, id) → s.repoHashes.idOf h = some id

theorem carryValid_internHash {s : RepoStore} {caches : InternCaches} (hc : CarryValid caches s)
    (hash : Hash) : CarryValid caches (s.internHash hash).1 :=
  fun h id hcarry => IdTable.idOf_intern_of_some (hc h id hcarry)

/-- An append that stores no hash twice is what interning the hash would do. -/
theorem resolved_appendHash {s s' : RepoStore} (hs : s.Sound) {caches caches' : InternCaches}
    (hv : caches.Valid s) {hash : Hash} {id : Nat}
    (h : appendHash s caches hash = .ok (s', caches', id)) (hu : s'.repoHashes.Unique) :
    Resolved 0 s hash s' caches' id ∧ CarryValid caches' s' := by
  unfold appendHash at h
  split at h
  · cases h
  · cases h
    have heq := intern_of_not_mem (unique_of_append hu).2
    have hstore : { s with repoHashes := s.repoHashes.append hash } = (s.internHash hash).1 := by
      simp [RepoStore.internHash, heq]
    have hid : s.repoHashes.nextId = (s.internHash hash).2 := by
      simp [RepoStore.internHash, heq]
    rw [hstore, hid]
    have hidOf := RepoStore.idOf_internHash s hash
    refine ⟨⟨RepoStore.evolves_internHash hs 0 hash, rfl, ⟨?_, hv.tag⟩, hidOf,
      RepoStore.row_internHash hs hash, rfl⟩, ?_⟩
    · intro h id hl
      exact IdTable.idOf_intern_of_some (hv.hash h id hl)
    · intro h id hcarry
      cases hcarry
      exact hidOf

theorem resolved_resolveHash {mode : HashResolve} {s s' : RepoStore} (hs : s.Sound)
    {caches caches' : InternCaches} (hv : caches.Valid s) (hc : CarryValid caches s) {hash : Hash}
    {id : Nat} (h : resolveHash mode s caches hash = .ok (s', caches', id))
    (hu : s'.repoHashes.Unique) :
    Resolved 0 s hash s' caches' id ∧ CarryValid caches' s' := by
  cases mode with
  | indexed =>
    obtain ⟨s₁, caches₁, id₁, hr, hres⟩ := resolveHash_indexed hs hv 0 hash
    rw [hr] at h
    cases h
    refine ⟨hres, ?_⟩
    cases hl : caches.hash.lookup hash with
    | some id =>
      simp only [resolveHash, hl] at hr
      cases hr
      exact hc
    | none =>
      simp only [resolveHash, hl] at hr
      cases hr
      exact carryValid_internHash hc hash
  | deferredAppend =>
    simp only [resolveHash] at h
    split at h
    · rename_i carryHash carryId hcarry
      split at h
      · rename_i heq
        cases h
        have hid := hc carryHash id hcarry
        rw [heq] at hid
        exact ⟨⟨Evolves.refl hs 0, rfl, hv, hid, rfl, rfl⟩, hc⟩
      · exact resolved_appendHash hs hv h hu
    · exact resolved_appendHash hs hv h hu

/-- A load under way on a sound store. -/
structure Carried (st : BulkState) : Prop where
  sound : st.store.Sound
  caches : st.caches.Valid st.store
  carry : CarryValid st.caches st.store
  cursor : st.store.mappingCursor ≤ st.nextSeq

theorem Carried.bulkInv {st : BulkState} (h : Carried st) : BulkInv 0 st.store st :=
  ⟨Evolves.refl h.sound 0, h.caches, h.cursor, Nat.zero_le _⟩

theorem carry_resolveTag (s : RepoStore) (caches : InternCaches) (tag : String) :
    (resolveTag s caches tag).1.repoHashes = s.repoHashes ∧
      (resolveTag s caches tag).2.1.hashCarry = caches.hashCarry := by
  unfold resolveTag
  split
  · exact ⟨rfl, rfl⟩
  · exact ⟨rfl, rfl⟩

/-! Hashes are only added, so a hash stored twice stays stored twice. -/

theorem unique_of_appendHash {s s' : RepoStore} {caches caches' : InternCaches} {hash : Hash}
    {id : Nat} (h : appendHash s caches hash = .ok (s', caches', id))
    (hu : s'.repoHashes.Unique) : s.repoHashes.Unique := by
  unfold appendHash at h
  split at h
  · cases h
  · cases h
    exact (unique_of_append hu).1

theorem unique_of_resolveHash {mode : HashResolve} {s s' : RepoStore}
    {caches caches' : InternCaches} {hash : Hash} {id : Nat}
    (h : resolveHash mode s caches hash = .ok (s', caches', id))
    (hu : s'.repoHashes.Unique) : s.repoHashes.Unique := by
  unfold resolveHash at h
  split at h
  · split at h
    · cases h
      exact hu
    · cases h
      exact unique_of_intern hu
  · split at h
    · split at h
      · cases h
        exact hu
      · exact unique_of_appendHash h hu
    · exact unique_of_appendHash h hu

theorem unique_of_applyItem {mode : HashResolve} {st st' : BulkState}
    {item : String × String × Bool} (h : applyItem mode st item = .ok st')
    (hu : st'.store.repoHashes.Unique) : st.store.repoHashes.Unique := by
  unfold applyItem at h
  split at h
  · cases h
    exact hu
  · split at h
    · cases h
    · rename_i s₁ caches₁ hid hr
      cases h
      have htag := (carry_resolveTag s₁ caches₁ item.2.1).1
      simp only [RepoStore.upsertMapping, htag] at hu
      exact unique_of_resolveHash hr hu

theorem unique_of_applyItems {mode : HashResolve} {items : List (String × String × Bool)}
    {st st' : BulkState} (h : applyItems mode st items = .ok st')
    (hu : st'.store.repoHashes.Unique) : st.store.repoHashes.Unique := by
  induction items generalizing st with
  | nil =>
    cases h
    exact hu
  | cons item items ih =>
    rw [applyItems] at h
    split at h
    · cases h
    · rename_i st₁ hitem
      exact unique_of_applyItem hitem (ih h)

theorem carried_applyItem {mode : HashResolve} {st st' : BulkState} (h : Carried st)
    {item : String × String × Bool} (hst : applyItem mode st item = .ok st')
    (hu : st'.store.repoHashes.Unique) :
    Carried st' ∧ Wrote st.store st'.store (bulkWrite item).toList [] := by
  cases hdec : (hexDecode item.1).bind Hash.ofBytes? with
  | none =>
    simp only [applyItem, hdec] at hst
    cases hst
    refine ⟨h, ?_⟩
    simpa [bulkWrite, hdec] using Wrote.refl st.store
  | some hash =>
    cases hr : resolveHash mode st.store st.caches hash with
    | error e => simp [applyItem, hdec, hr] at hst
    | ok out =>
      obtain ⟨s₁, caches₁, hid⟩ := out
      have hhashes : st'.store.repoHashes = s₁.repoHashes ∧
          st'.caches.hashCarry = caches₁.hashCarry := by
        have htag := carry_resolveTag s₁ caches₁ item.2.1
        simp only [applyItem, hdec, hr] at hst
        cases hst
        exact htag
      rw [hhashes.1] at hu
      obtain ⟨hres, hcarry⟩ := resolved_resolveHash h.sound h.caches h.carry hr hu
      have hinv := bulkInv_resolved h.bulkInv hdec hr hres hst
      refine ⟨⟨hinv.evolves.sound, hinv.caches, ?_, hinv.cursor⟩, wrote_resolved hdec hr hres hst⟩
      intro h' id hc
      rw [hhashes.2] at hc
      rw [hhashes.1]
      exact hcarry h' id hc

theorem carried_applyItems {mode : HashResolve} {items : List (String × String × Bool)}
    {st st' : BulkState} (h : Carried st) (hst : applyItems mode st items = .ok st')
    (hu : st'.store.repoHashes.Unique) :
    Carried st' ∧ Wrote st.store st'.store (items.filterMap bulkWrite) [] := by
  induction items generalizing st with
  | nil =>
    cases hst
    exact ⟨h, .refl _⟩
  | cons item items ih =>
    rw [applyItems] at hst
    split at hst
    · cases hst
    · rename_i st₁ hitem
      obtain ⟨h₁, hw₁⟩ := carried_applyItem h hitem (unique_of_applyItems hst hu)
      obtain ⟨h₂, hw₂⟩ := ih h₁ hst
      refine ⟨h₂, ?_⟩
      have hw := hw₁.trans hw₂
      cases hb : bulkWrite item with
      | none => simpa [hb] using hw
      | some w => simpa [hb] using hw

/-- What a chunk did: its items, and its checkpoint if it has one. -/
theorem applyMappingsImpl_eq_ok {mode : HashResolve} {s : RepoStore}
    {items : List (String × String × Bool)} {caches : InternCaches} {nextSeq : Nat}
    {ckpt : Option SeedCheckpoint} {st : BulkState}
    (h : s.applyMappingsImpl items caches nextSeq mode ckpt = .ok st) :
    (mode = .indexed → s.hashUniqueIndex = true) ∧ ∃ st₁,
      applyItems mode ⟨s, if mode = .indexed then { caches with hash := ∅ } else caches, nextSeq,
        ⟨0, 0⟩⟩ items = .ok st₁ ∧
      st = { st₁ with store := { st₁.store with seedCkpt := ckpt.or st₁.store.seedCkpt } } := by
  unfold RepoStore.applyMappingsImpl at h
  split at h
  · cases h
  · rename_i hnot
    refine ⟨fun hm => by simpa [hm] using hnot, ?_⟩
    simp only at h
    split at h
    · cases h
    · rename_i st₁ hitems
      refine ⟨st₁, hitems, ?_⟩
      cases ckpt with
      | none =>
        cases h
        rfl
      | some ck =>
        cases h
        rfl

/-- A chunk in either mode, its writes made if no hash is stored twice after it. -/
theorem carried_applyMappingsImpl {mode : HashResolve} {s : RepoStore}
    {items : List (String × String × Bool)} {caches : InternCaches} {nextSeq : Nat}
    {ckpt : Option SeedCheckpoint} {st : BulkState}
    (h : s.applyMappingsImpl items caches nextSeq mode ckpt = .ok st)
    (hu : st.store.repoHashes.Unique) :
    s.repoHashes.Unique ∧ (Carried ⟨s, caches, nextSeq, ⟨0, 0⟩⟩ →
      Carried ⟨st.store, st.caches, st.nextSeq, ⟨0, 0⟩⟩ ∧
        st.store.statuses = writeAll s.statuses (items.filterMap bulkWrite)) := by
  obtain ⟨_, st₁, hitems, rfl⟩ := applyMappingsImpl_eq_ok h
  have hu₁ : st₁.store.repoHashes.Unique := hu
  refine ⟨unique_of_applyItems hitems hu₁, fun hc => ?_⟩
  have hstart : Carried ⟨s, if mode = .indexed then { caches with hash := ∅ } else caches,
      nextSeq, ⟨0, 0⟩⟩ := by
    cases mode with
    | indexed =>
      refine ⟨hc.sound, ⟨?_, hc.caches.tag⟩, hc.carry, hc.cursor⟩
      intro h id hl
      simp at hl
    | deferredAppend => exact hc
  obtain ⟨hdone, hw⟩ := carried_applyItems hstart hitems hu₁
  exact ⟨⟨sound_of_tables hdone.sound rfl rfl rfl, ⟨hdone.caches.hash, hdone.caches.tag⟩,
    hdone.carry, hdone.cursor⟩, hw.statuses⟩

/-! ## What a load holds even with a hash stored twice -/

/-- There is a mapping row whose ids stand for the hash and the tag of the item. -/
def Present (s : RepoStore) (item : String × String × Bool) : Prop :=
  ∀ hash, (hexDecode item.1).bind Hash.ofBytes? = some hash →
    ∃ hid tid r, (hid, hash) ∈ s.repoHashes.rows ∧ (tid, item.2.1) ∈ s.repoTags.rows ∧
      s.repoMappings.lookup (hid, tid) = some r

/-- Rows are only added. -/
structure Grows (s s' : RepoStore) : Prop where
  hashes : ∀ x ∈ s.repoHashes.rows, x ∈ s'.repoHashes.rows
  tags : ∀ x ∈ s.repoTags.rows, x ∈ s'.repoTags.rows
  mappings : ∀ k r, s.repoMappings.lookup k = some r → ∃ r', s'.repoMappings.lookup k = some r'

theorem Grows.refl (s : RepoStore) : Grows s s :=
  ⟨fun _ h => h, fun _ h => h, fun _ r h => ⟨r, h⟩⟩

theorem Grows.trans {s s' s'' : RepoStore} (h : Grows s s') (h' : Grows s' s'') :
    Grows s s'' where
  hashes x hx := h'.hashes x (h.hashes x hx)
  tags x hx := h'.tags x (h.tags x hx)
  mappings k r hr := by
    obtain ⟨r', hr'⟩ := h.mappings k r hr
    exact h'.mappings k r' hr'

theorem Present.grows {s s' : RepoStore} {item : String × String × Bool} (h : Present s item)
    (hg : Grows s s') : Present s' item := by
  intro hash hdec
  obtain ⟨hid, tid, r, hh, ht, hl⟩ := h hash hdec
  obtain ⟨r', hl'⟩ := hg.mappings _ r hl
  exact ⟨hid, tid, r', hg.hashes _ hh, hg.tags _ ht, hl'⟩

/-- The ids in the caches are ids of rows. -/
structure Rooted (st : BulkState) : Prop where
  tags : st.store.repoTags.Unique
  hashIds : ∀ h id, st.caches.hash.lookup h = some id → (id, h) ∈ st.store.repoHashes.rows
  tagIds : ∀ t id, st.caches.tag.lookup t = some id → (id, t) ∈ st.store.repoTags.rows
  carryId : ∀ h id, st.caches.hashCarry = some (h, id) → (id, h) ∈ st.store.repoHashes.rows

theorem rooted_appendHash {s s' : RepoStore} {caches caches' : InternCaches} {seq : Nat}
    {stats : BulkApplyStats} {hash : Hash} {id : Nat} (h : Rooted ⟨s, caches, seq, stats⟩)
    (ha : appendHash s caches hash = .ok (s', caches', id)) :
    Rooted ⟨s', caches', seq, stats⟩ ∧ Grows s s' ∧ (id, hash) ∈ s'.repoHashes.rows := by
  unfold appendHash at ha
  split at ha
  · cases ha
  · cases ha
    have hgrow : Grows s { s with repoHashes := s.repoHashes.append hash } :=
      ⟨fun x hx => List.mem_cons_of_mem _ hx, fun _ hx => hx, fun _ r hr => ⟨r, hr⟩⟩
    have hmem : (s.repoHashes.nextId, hash) ∈ (s.repoHashes.append hash).rows :=
      List.mem_cons_self
    refine ⟨⟨h.tags, fun k i hl => hgrow.hashes _ (h.hashIds k i hl), h.tagIds, ?_⟩, hgrow, hmem⟩
    intro k i hcarry
    cases hcarry
    exact hmem

theorem rooted_resolveHash {mode : HashResolve} {s s' : RepoStore}
    {caches caches' : InternCaches} {seq : Nat} {stats : BulkApplyStats} {hash : Hash} {id : Nat}
    (h : Rooted ⟨s, caches, seq, stats⟩)
    (hr : resolveHash mode s caches hash = .ok (s', caches', id)) :
    Rooted ⟨s', caches', seq, stats⟩ ∧ Grows s s' ∧ (id, hash) ∈ s'.repoHashes.rows := by
  unfold resolveHash at hr
  split at hr
  · split at hr
    · rename_i hl
      cases hr
      exact ⟨h, .refl s, h.hashIds hash id hl⟩
    · cases hr
      have hgrow : Grows s (s.internHash hash).1 :=
        ⟨fun x hx => IdTable.intern_rows hx, fun _ hx => hx, fun _ r hr => ⟨r, hr⟩⟩
      have hmem := IdTable.mem_of_idOf (RepoStore.idOf_internHash s hash)
      refine ⟨⟨h.tags, ?_, h.tagIds, fun k i hc => hgrow.hashes _ (h.carryId k i hc)⟩, hgrow,
        hmem⟩
      intro k i hl
      by_cases hk : k = hash
      · subst hk
        rw [AList.lookup_insert] at hl
        cases hl
        exact hmem
      · rw [AList.lookup_insert_ne hk] at hl
        exact hgrow.hashes _ (h.hashIds k i hl)
  · split at hr
    · rename_i carryHash carryId hcarry
      split at hr
      · rename_i heq
        cases hr
        have hmem := h.carryId carryHash id hcarry
        rw [heq] at hmem
        exact ⟨h, .refl s, hmem⟩
      · exact rooted_appendHash h hr
    · exact rooted_appendHash h hr

theorem rooted_resolveTag {s : RepoStore} {caches : InternCaches} {seq : Nat}
    {stats : BulkApplyStats} (h : Rooted ⟨s, caches, seq, stats⟩) (tag : String) :
    Rooted ⟨(resolveTag s caches tag).1, (resolveTag s caches tag).2.1, seq, stats⟩ ∧
      Grows s (resolveTag s caches tag).1 ∧
      ((resolveTag s caches tag).2.2, tag) ∈ (resolveTag s caches tag).1.repoTags.rows := by
  unfold resolveTag
  cases hl : caches.tag.lookup tag with
  | some id => exact ⟨h, .refl s, h.tagIds tag id hl⟩
  | none =>
    have hgrow : Grows s (s.internTag tag).1 :=
      ⟨fun _ hx => hx, fun x hx => IdTable.intern_rows hx, fun _ r hr => ⟨r, hr⟩⟩
    have hmem := IdTable.mem_of_idOf (RepoStore.idOf_internTag s tag)
    refine ⟨⟨IdTable.unique_intern h.tags tag, h.hashIds, ?_, h.carryId⟩, hgrow, hmem⟩
    intro t id hid
    by_cases ht : t = tag
    · subst ht
      rw [AList.lookup_insert] at hid
      cases hid
      exact hmem
    · rw [AList.lookup_insert_ne ht] at hid
      exact hgrow.tags _ (h.tagIds t id hid)

/-- An upsert leaves a row under its key and under every key that had one. -/
theorem grows_upsertMapping (s : RepoStore) (k : Nat × Nat) (new : MappingRow)
    (merge : MappingRow → Option MappingRow) :
    Grows s (s.upsertMapping k new merge).1 ∧
      ∃ r, (s.upsertMapping k new merge).1.repoMappings.lookup k = some r := by
  have hne : ∀ k', k' ≠ k →
      (s.upsertMapping k new merge).1.repoMappings.lookup k' = s.repoMappings.lookup k' :=
    fun k' hk => Table.lookup_upsert_ne hk
  have hrow : ∃ r, (s.upsertMapping k new merge).1.repoMappings.lookup k = some r := by
    simp only [RepoStore.upsertMapping, Table.upsert]
    split
    · exact ⟨new, AList.lookup_insert _⟩
    · rename_i old hl
      split
      · exact ⟨old, hl⟩
      · rename_i r _
        exact ⟨r, AList.lookup_insert _⟩
  refine ⟨⟨fun _ hx => hx, fun _ hx => hx, ?_⟩, hrow⟩
  intro k' r hl
  by_cases hk : k' = k
  · rw [hk]
    exact hrow
  · exact ⟨r, (hne k' hk).trans hl⟩

theorem rooted_applyItem {mode : HashResolve} {st st' : BulkState} (h : Rooted st)
    {item : String × String × Bool} (hst : applyItem mode st item = .ok st') :
    Rooted st' ∧ Grows st.store st'.store ∧ Present st'.store item := by
  unfold applyItem at hst
  split at hst
  · rename_i hdec
    cases hst
    refine ⟨h, .refl _, ?_⟩
    intro hash hh
    rw [hdec] at hh
    cases hh
  · rename_i hash hdec
    split at hst
    · cases hst
    · rename_i s₁ caches₁ hid hr
      cases hst
      have h₀ : Rooted ⟨st.store, st.caches, st.nextSeq, st.stats⟩ := h
      obtain ⟨h₁, hg₁, hm₁⟩ := rooted_resolveHash h₀ hr
      obtain ⟨h₂, hg₂, hm₂⟩ := rooted_resolveTag h₁ item.2.1
      obtain ⟨hg₃, r, hrow⟩ := grows_upsertMapping (resolveTag s₁ caches₁ item.2.1).1
        (hid, (resolveTag s₁ caches₁ item.2.1).2.2)
        ⟨if item.2.2 then .deleted else .current, st.nextSeq + 1, none⟩
        (mergeStatus ⟨if item.2.2 then .deleted else .current, st.nextSeq + 1, none⟩)
      refine ⟨⟨h₂.tags, fun k i hl => hg₃.hashes _ (h₂.hashIds k i hl),
        fun t i hl => hg₃.tags _ (h₂.tagIds t i hl),
        fun k i hc => hg₃.hashes _ (h₂.carryId k i hc)⟩, hg₁.trans (hg₂.trans hg₃), ?_⟩
      intro hash' hdec'
      rw [hdec] at hdec'
      cases hdec'
      exact ⟨hid, _, r, hg₃.hashes _ (hg₂.hashes _ hm₁), hg₃.tags _ hm₂, hrow⟩

theorem rooted_applyItems {mode : HashResolve} {items : List (String × String × Bool)}
    {st st' : BulkState} (h : Rooted st) (hst : applyItems mode st items = .ok st') :
    Rooted st' ∧ Grows st.store st'.store ∧ ∀ item ∈ items, Present st'.store item := by
  induction items generalizing st with
  | nil =>
    cases hst
    exact ⟨h, .refl _, by simp⟩
  | cons item items ih =>
    rw [applyItems] at hst
    split at hst
    · cases hst
    · rename_i st₁ hitem
      obtain ⟨h₁, hg₁, hp₁⟩ := rooted_applyItem h hitem
      obtain ⟨h₂, hg₂, hp₂⟩ := ih h₁ hst
      refine ⟨h₂, hg₁.trans hg₂, ?_⟩
      intro x hx
      rcases List.mem_cons.1 hx with rfl | hx
      · exact hp₁.grows hg₂
      · exact hp₂ x hx

/-- A chunk, with nothing said about hashes stored twice. -/
theorem rooted_applyMappingsImpl {mode : HashResolve} {s : RepoStore}
    {items : List (String × String × Bool)} {caches : InternCaches} {nextSeq : Nat}
    {ckpt : Option SeedCheckpoint} {st : BulkState} (h : Rooted ⟨s, caches, nextSeq, ⟨0, 0⟩⟩)
    (hok : s.applyMappingsImpl items caches nextSeq mode ckpt = .ok st) :
    Rooted ⟨st.store, st.caches, st.nextSeq, ⟨0, 0⟩⟩ ∧ Grows s st.store ∧
      ∀ item ∈ items, Present st.store item := by
  obtain ⟨_, st₁, hitems, rfl⟩ := applyMappingsImpl_eq_ok hok
  have hstart : Rooted ⟨s, if mode = .indexed then { caches with hash := ∅ } else caches,
      nextSeq, ⟨0, 0⟩⟩ := by
    cases mode with
    | indexed => exact ⟨h.tags, fun k i hl => by simp at hl, h.tagIds, h.carryId⟩
    | deferredAppend => exact h
  obtain ⟨h₁, hg₁, hp₁⟩ := rooted_applyItems hstart hitems
  exact ⟨⟨h₁.tags, h₁.hashIds, h₁.tagIds, h₁.carryId⟩, ⟨hg₁.hashes, hg₁.tags, hg₁.mappings⟩, hp₁⟩

/-! ## The replay of the log -/

structure Replaying (st : ReplayState) : Prop where
  sound : st.store.Sound
  cursor : st.store.mappingCursor ≤ st.nextSeq

theorem wrote_replaySubmission {st : ReplayState} (h : Replaying st) (l : LoggedSubmission) :
    Replaying (replaySubmission st l) ∧
      Wrote st.store (replaySubmission st l).store (logWrite l).toList [] ∧
      Remapped st.store (replaySubmission st l).store := by
  cases hdec : decodeHash l.hash with
  | error e =>
    simp only [replaySubmission, logWrite, hdec]
    exact ⟨h, .refl _, .refl _⟩
  | ok hash =>
    let new : MappingRow := ⟨l.op.status, st.nextSeq + 1, l.origin⟩
    have hmerge : ∀ old r, mergeStatusOrigin new old = some r → r.seq = new.seq :=
      fun _ _ hm => mergeStatusOrigin_seq hm
    have hlt : st.store.mappingCursor < new.seq := Nat.lt_succ_of_le h.cursor
    have hev := evolves_assert h.sound (c := 0) hash l.tag new hmerge hlt (Nat.succ_pos _)
    have hw := wrote_assert h.sound hash l.tag (mergeStatusOrigin_status new)
    have hcur := RepoStore.cursor_upsertMapping
      (s := ((st.store.internHash hash).1.internTag l.tag).1) (h := hash) (t := l.tag)
      (RepoStore.idOf_internHash st.store hash) (RepoStore.idOf_internTag _ l.tag) hmerge hlt
    simp only [replaySubmission, logWrite, hdec]
    refine ⟨⟨hev.sound, ?_⟩, hw, ⟨_, _, _, rfl⟩⟩
    change (RepoStore.upsertMapping _ _ new _).1.mappingCursor ≤ ite _ _ _
    rw [hcur]
    split
    · exact h.cursor
    · exact le_refl _

theorem wrote_replayFold (log : List LoggedSubmission) {st : ReplayState} (h : Replaying st) :
    (log.foldl replaySubmission st).store.Sound ∧
      Wrote st.store (log.foldl replaySubmission st).store (log.filterMap logWrite) [] ∧
      Remapped st.store (log.foldl replaySubmission st).store := by
  induction log generalizing st with
  | nil => exact ⟨h.sound, .refl _, .refl _⟩
  | cons l log ih =>
    obtain ⟨h₁, hw₁, hr₁⟩ := wrote_replaySubmission h l
    obtain ⟨hs, hw₂, hr₂⟩ := ih h₁
    refine ⟨hs, ?_, hr₁.trans hr₂⟩
    have hw := hw₁.trans hw₂
    cases hl : logWrite l with
    | none => simpa [hl] using hw
    | some w => simpa [hl] using hw

theorem wrote_replaySubmissions {s : RepoStore} (hs : s.Sound) :
    s.replaySubmissions.Sound ∧
      Wrote s s.replaySubmissions (s.submissions.filterMap logWrite) [] ∧
      Remapped s s.replaySubmissions :=
  wrote_replayFold s.submissions ⟨hs, le_refl _⟩

end Server
end Naiad
