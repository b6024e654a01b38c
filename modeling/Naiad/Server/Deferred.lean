import Naiad.Lib.Numbering
import Naiad.Server.Rebuild

/-!
# Naiad.Server.Deferred

A bulk load cut into chunks, with and without the hash index. Both ways come to the same tables:
each hash and each tag interned, each mapping upserted.

* `MappingTables.intern`: what one item is for, with no cache and no carry.
* `interning_applyItem`, `interning_applyChunks`: the two resolvers come to it.
* `deferred_agrees`: on rows grouped by hash the deferred load leaves what the indexed load leaves,
  for every way to cut them.
-/

namespace Naiad
namespace Server

open Lib Netproto

abbrev BulkItem := String × String × Bool

/-- The hash of an item, if it decodes. -/
def itemHash (item : BulkItem) : Option Hash := (hexDecode item.1).bind Hash.ofBytes?

/-- Chunks one after another, each with the caches and the counter the one before left. -/
def applyChunks (mode : HashResolve) :
    BulkState → List (List BulkItem × Option SeedCheckpoint) → Except StoreError BulkState
  | st, [] => .ok st
  | st, chunk :: chunks =>
    match st.store.applyMappingsImpl chunk.1 st.caches st.nextSeq mode chunk.2 with
    | .error e => .error e
    | .ok st' => applyChunks mode st' chunks

/-- Chunks through the wrapper, which starts its caches and reads the counter afresh. -/
def applyBulks : RepoStore → List (List BulkItem) → Except StoreError RepoStore
  | s, [] => .ok s
  | s, chunk :: chunks =>
    match s.applyMappingsBulk chunk with
    | .error e => .error e
    | .ok st => applyBulks st.store chunks

/-- A load that has not begun. -/
def BulkState.start (s : RepoStore) : BulkState := ⟨s, .empty, s.mappingCursor, ⟨0, 0⟩⟩

/-! ## The tables a load is for -/

structure MappingTables where
  hashes : IdTable Hash
  tags : IdTable String
  mappings : Table (Nat × Nat) MappingRow
  nextSeq : Nat

namespace MappingTables

def intern (t : MappingTables) (item : BulkItem) : MappingTables :=
  match itemHash item with
  | none => t
  | some hash =>
    let ih := t.hashes.intern hash
    let it := t.tags.intern item.2.1
    let new : MappingRow := ⟨if item.2.2 then .deleted else .current, t.nextSeq + 1, none⟩
    let up := Table.upsert t.mappings (ih.2, it.2) new (mergeStatus new)
    ⟨ih.1, it.1, up.1, if up.2 = 0 then t.nextSeq else t.nextSeq + 1⟩

def internAll (t : MappingTables) (items : List BulkItem) : MappingTables :=
  items.foldl intern t

/-- A store with these tables. -/
def store (t : MappingTables) : RepoStore :=
  { RepoStore.empty with repoHashes := t.hashes, repoTags := t.tags, repoMappings := t.mappings }

def numbered (t : MappingTables) : Numbered (Hash × String) MappingStatus := ⟨t.store.log, t.nextSeq⟩

/-- The store is sound, and the counter stands at its greatest sequence number. -/
structure Kept (t : MappingTables) : Prop where
  sound : t.store.Sound
  cursor : t.store.mappingCursor = t.nextSeq

end MappingTables

def BulkState.tables (st : BulkState) : MappingTables :=
  ⟨st.store.repoHashes, st.store.repoTags, st.store.repoMappings, st.nextSeq⟩

namespace MappingTables

theorem internAll_append (t : MappingTables) (as bs : List BulkItem) :
    t.internAll (as ++ bs) = (t.internAll as).internAll bs := by
  simp [internAll]

theorem intern_skip {t : MappingTables} {item : BulkItem} (h : itemHash item = none) :
    t.intern item = t := by
  simp [intern, h]

theorem intern_hashes {t : MappingTables} {item : BulkItem} {hash : Hash}
    (h : itemHash item = some hash) : (t.intern item).hashes = (t.hashes.intern hash).1 := by
  simp [intern, h]

theorem mem_hashes_intern (t : MappingTables) (item : BulkItem) (h : Hash) :
    h ∈ (t.intern item).hashes.values ↔ h ∈ t.hashes.values ∨ itemHash item = some h := by
  cases hdec : itemHash item with
  | none => simp [intern_skip hdec]
  | some hash =>
    rw [intern_hashes hdec]
    unfold IdTable.intern
    cases hid : t.hashes.idOf hash with
    | some id =>
      have hmem := IdTable.mem_values_of_mem (IdTable.mem_of_idOf hid)
      simp only [Option.some.injEq]
      constructor
      · exact .inl
      · rintro (hh | rfl)
        · exact hh
        · exact hmem
    | none =>
      simp only [IdTable.values, IdTable.append_rows, List.map_cons, List.mem_cons,
        Option.some.injEq]
      rw [or_comm, eq_comm]

theorem mem_hashes_internAll (t : MappingTables) (items : List BulkItem) (h : Hash) :
    h ∈ (t.internAll items).hashes.values ↔
      h ∈ t.hashes.values ∨ h ∈ items.filterMap itemHash := by
  induction items generalizing t with
  | nil => simp [internAll]
  | cons item items ih =>
    change h ∈ ((t.intern item).internAll items).hashes.values ↔ _
    rw [ih, mem_hashes_intern, or_assoc]
    cases hdec : itemHash item with
    | none => simp [hdec]
    | some hash => simp [hdec, eq_comm]

end MappingTables

/-- An upsert takes the next number when it changes its pair, and none when it does not. -/
theorem record_upsertMapping {s : RepoStore} {h : Hash} {t : String} {hid tid : Nat}
    (hh : s.repoHashes.idOf h = some hid) (ht : s.repoTags.idOf t = some tid) (n : Nat)
    {new : MappingRow} (hseq : new.seq = n + 1) :
    (⟨(s.upsertMapping (hid, tid) new (mergeStatus new)).1.log,
      if (s.upsertMapping (hid, tid) new (mergeStatus new)).2 = 0 then n else n + 1⟩ :
        Numbered (Hash × String) MappingStatus) = record ⟨s.log, n⟩ ((h, t), new.status) := by
  rcases RepoStore.upsertMapping_cases hh ht new (mergeStatus new) with
    ⟨old, hold, hm, hu⟩ | ⟨r, hu, hr⟩
  · have hst : old.status = new.status := by
      unfold mergeStatus at hm
      split at hm
      · assumption
      · cases hm
    rw [record_same, hu]
    · simp
    · simp [Numbered.values, RepoStore.log, hold, hst]
  · have hchange : (⟨s.log, n⟩ : Numbered (Hash × String) MappingStatus).values (h, t) ≠
        some new.status := by
      simp only [Numbered.values, RepoStore.log]
      rcases hr with ⟨hnone, _⟩ | ⟨old, hold, hm⟩
      · simp [hnone]
      · have hst : old.status ≠ new.status := by
          intro heq
          simp [mergeStatus, heq] at hm
        simpa [hold] using hst
    have hrs : r.status = new.status ∧ r.seq = n + 1 := by
      rcases hr with ⟨_, rfl⟩ | ⟨old, _, hm⟩
      · exact ⟨rfl, hseq⟩
      · unfold mergeStatus at hm
        split at hm
        · cases hm
        · cases hm
          exact ⟨rfl, hseq⟩
    rw [record_change hchange, hu]
    simp only [one_ne_zero, if_false, Numbered.mk.injEq, and_true]
    funext k
    obtain ⟨h', t'⟩ := k
    simp only [RepoStore.log, RepoStore.row_setMapping hh ht, write]
    by_cases hk : (h', t') = (h, t)
    · simp [hk, hrs.1, hrs.2]
    · simp only [if_neg hk]

namespace MappingTables

theorem kept_intern {t : MappingTables} (h : t.Kept) (item : BulkItem) :
    (t.intern item).Kept ∧
      (t.intern item).numbered = recordAll t.numbered (bulkWrite item).toList := by
  cases hdec : itemHash item with
  | none =>
    have hw : bulkWrite item = none := by
      simp only [itemHash] at hdec
      simp [bulkWrite, hdec]
    rw [intern_skip hdec, hw]
    exact ⟨h, rfl⟩
  | some hash =>
    let new : MappingRow := ⟨if item.2.2 then .deleted else .current, t.nextSeq + 1, none⟩
    let s₁ := ((t.store.internHash hash).1.internTag item.2.1).1
    let k := ((t.store.internHash hash).2, ((t.store.internHash hash).1.internTag item.2.1).2)
    have hw : bulkWrite item = some ((hash, item.2.1), new.status) := by
      simp only [itemHash] at hdec
      simp [bulkWrite, hdec, new]
    have hh : s₁.repoHashes.idOf hash = some k.1 := RepoStore.idOf_internHash _ _
    have ht : s₁.repoTags.idOf item.2.1 = some k.2 := RepoStore.idOf_internTag _ _
    have hmerge : ∀ old r, mergeStatus new old = some r → r.seq = new.seq :=
      fun _ _ hm => mergeStatus_seq hm
    have hlt : t.store.mappingCursor < new.seq := by
      rw [h.cursor]
      exact Nat.lt_succ_self _
    have hev := evolves_assert h.sound (c := 0) hash item.2.1 new hmerge hlt (Nat.succ_pos _)
    have hcur := RepoStore.cursor_upsertMapping (s := s₁) hh ht hmerge hlt
    have hlog : s₁.log = t.store.log := by
      funext k
      rw [RepoStore.log, RepoStore.log,
        RepoStore.row_internTag (RepoStore.evolves_internHash h.sound 0 hash).sound,
        RepoStore.row_internHash h.sound]
    have hstore : (t.intern item).store = (s₁.upsertMapping k new (mergeStatus new)).1 := by
      simp only [intern, hdec]
      rfl
    have hseq : (t.intern item).nextSeq =
        if (s₁.upsertMapping k new (mergeStatus new)).2 = 0 then t.nextSeq else t.nextSeq + 1 := by
      simp only [intern, hdec]
      rfl
    refine ⟨⟨?_, ?_⟩, ?_⟩
    · rw [hstore]
      exact hev.sound
    · rw [hstore, hseq, hcur]
      congr 1
      exact h.cursor
    · have hrec := record_upsertMapping hh ht t.nextSeq (show new.seq = t.nextSeq + 1 from rfl)
      rw [hlog] at hrec
      rw [numbered, hstore, hseq, hw]
      exact hrec

theorem kept_internAll {t : MappingTables} (h : t.Kept) (items : List BulkItem) :
    (t.internAll items).Kept ∧
      (t.internAll items).numbered = recordAll t.numbered (items.filterMap bulkWrite) := by
  induction items generalizing t with
  | nil => exact ⟨h, rfl⟩
  | cons item items ih =>
    obtain ⟨h₁, hn₁⟩ := kept_intern h item
    obtain ⟨h₂, hn₂⟩ := ih h₁
    refine ⟨h₂, ?_⟩
    change ((t.intern item).internAll items).numbered = _
    rw [hn₂, hn₁]
    cases hw : bulkWrite item with
    | none => simp [hw]
    | some w => simp [hw]

end MappingTables

/-! ## The two resolvers -/

/-- The caches hold ids of the tables; without the index, of the hashes stored only the last one
may come again. -/
structure Interning (mode : HashResolve) (st : BulkState) (rest : List Hash) : Prop where
  caches : st.caches.Valid st.store
  deferred : mode = .deferredAppend → CarryValid st.caches st.store ∧
    Continues st.store.repoHashes.values (st.caches.hashCarry.map Prod.fst) rest

/-- A resolver returns what interning the hash returns. -/
structure ResolvesAs (mode : HashResolve) (s : RepoStore) (caches : InternCaches) (hash : Hash)
    (rest : List Hash) (caches' : InternCaches) : Prop where
  eq : resolveHash mode s caches hash =
    .ok ((s.internHash hash).1, caches', (s.internHash hash).2)
  caches : caches'.Valid (s.internHash hash).1
  deferred : mode = .deferredAppend → CarryValid caches' (s.internHash hash).1 ∧
    Continues (s.internHash hash).1.repoHashes.values (caches'.hashCarry.map Prod.fst) rest

theorem internHash_of_idOf {s : RepoStore} {hash : Hash} {id : Nat}
    (h : s.repoHashes.idOf hash = some id) : s.internHash hash = (s, id) := by
  simp [RepoStore.internHash, IdTable.intern_of_idOf h]

theorem internTag_of_idOf {s : RepoStore} {tag : String} {id : Nat}
    (h : s.repoTags.idOf tag = some id) : s.internTag tag = (s, id) := by
  simp [RepoStore.internTag, IdTable.intern_of_idOf h]

theorem resolvesAs_indexed {s : RepoStore} {caches : InternCaches} (hv : caches.Valid s)
    (hash : Hash) (rest : List Hash) :
    ∃ caches', ResolvesAs .indexed s caches hash rest caches' := by
  cases hl : caches.hash.lookup hash with
  | some id =>
    have hid := internHash_of_idOf (hv.hash hash id hl)
    refine ⟨caches, ?_, ?_, by simp⟩
    · simp [resolveHash, hl, hid]
    · rw [hid]
      exact hv
  | none =>
    exact ⟨_, by simp [resolveHash, hl], valid_internHash hv hash, by simp⟩

/-- A hash stored for the first time. -/
theorem resolvesAs_append {s : RepoStore} {caches : InternCaches} (hv : caches.Valid s)
    {hash : Hash} {rest : List Hash}
    (hc : Continues s.repoHashes.values (caches.hashCarry.map Prod.fst) (hash :: rest))
    (hne : caches.hashCarry.map Prod.fst ≠ some hash) :
    ResolvesAs .deferredAppend s caches hash rest
      { caches with hashCarry := some (hash, s.repoHashes.nextId) } := by
  obtain ⟨hnew, hcont⟩ := hc.fresh hne
  have hint : s.internHash hash =
      ({ s with repoHashes := s.repoHashes.append hash }, s.repoHashes.nextId) := by
    simp [RepoStore.internHash, intern_of_not_mem hnew]
  have happ : appendHash s caches hash =
      .ok ({ s with repoHashes := s.repoHashes.append hash },
        { caches with hashCarry := some (hash, s.repoHashes.nextId) }, s.repoHashes.nextId) := by
    simp [appendHash, hnew]
  have hidOf := RepoStore.idOf_internHash s hash
  refine ⟨?_, ⟨?_, hv.tag⟩, fun _ => ⟨?_, ?_⟩⟩
  · rw [hint]
    simp only [resolveHash]
    split
    · rename_i carryHash carryId hcarry
      rw [if_neg, happ]
      rintro rfl
      simp [hcarry] at hne
    · exact happ
  · intro h id hl
    exact IdTable.idOf_intern_of_some (hv.hash h id hl)
  · intro h id hcarry
    cases hcarry
    rw [hidOf, hint]
  · rw [hint]
    exact hcont

theorem resolvesAs {mode : HashResolve} {st : BulkState} {hash : Hash} {rest : List Hash}
    (h : Interning mode st (hash :: rest)) :
    ∃ caches', ResolvesAs mode st.store st.caches hash rest caches' := by
  cases mode with
  | indexed => exact resolvesAs_indexed h.caches hash rest
  | deferredAppend =>
    obtain ⟨hcarry, hcont⟩ := h.deferred rfl
    by_cases heq : st.caches.hashCarry.map Prod.fst = some hash
    · obtain ⟨⟨carryHash, carryId⟩, hc, rfl⟩ := Option.map_eq_some_iff.1 heq
      have hid := internHash_of_idOf (hcarry carryHash carryId hc)
      refine ⟨st.caches, ?_, ?_, fun _ => ?_⟩
      · simp [resolveHash, hc, hid]
      · rw [hid]
        exact h.caches
      · rw [hid]
        exact ⟨hcarry, hcont.again⟩
    · exact ⟨_, resolvesAs_append h.caches hcont heq⟩

theorem resolveTag_eq_intern {s : RepoStore} {caches : InternCaches} (hv : caches.Valid s)
    (tag : String) :
    ∃ caches', resolveTag s caches tag = ((s.internTag tag).1, caches', (s.internTag tag).2) ∧
      caches'.Valid (s.internTag tag).1 ∧ caches'.hashCarry = caches.hashCarry := by
  unfold resolveTag
  cases hl : caches.tag.lookup tag with
  | some id =>
    rw [internTag_of_idOf (hv.tag tag id hl)]
    exact ⟨caches, rfl, hv, rfl⟩
  | none => exact ⟨_, rfl, valid_internTag hv tag, rfl⟩

theorem interning_applyItem {mode : HashResolve} {st : BulkState} {item : BulkItem}
    {rest : List Hash} (h : Interning mode st ((itemHash item).toList ++ rest)) :
    ∃ st', applyItem mode st item = .ok st' ∧ st'.tables = st.tables.intern item ∧
      Interning mode st' rest := by
  cases hdec : itemHash item with
  | none =>
    rw [hdec] at h
    refine ⟨st, ?_, (MappingTables.intern_skip hdec).symm, h⟩
    simp only [itemHash] at hdec
    simp [applyItem, hdec]
  | some hash =>
    rw [hdec] at h
    obtain ⟨caches₁, hr⟩ := resolvesAs h
    obtain ⟨caches₂, hrt, hv₂, hcarry₂⟩ := resolveTag_eq_intern hr.caches item.2.1
    have hdec' := hdec
    simp only [itemHash] at hdec'
    let s₂ := ((st.store.internHash hash).1.internTag item.2.1).1
    let new : MappingRow := ⟨if item.2.2 then .deleted else .current, st.nextSeq + 1, none⟩
    let up := s₂.upsertMapping
      ((st.store.internHash hash).2, ((st.store.internHash hash).1.internTag item.2.1).2)
      new (mergeStatus new)
    refine ⟨⟨up.1, caches₂, if up.2 = 0 then st.nextSeq else st.nextSeq + 1,
      st.stats.count up.2 item.2.2⟩, ?_, ?_, ⟨hv₂.hash, hv₂.tag⟩, ?_⟩
    · simp only [applyItem, hdec', hr.eq, hrt]
      rfl
    · simp only [BulkState.tables, MappingTables.intern, hdec]
      rfl
    · intro hm
      obtain ⟨hcv, hcont⟩ := hr.deferred hm
      simp only [CarryValid, hcarry₂]
      exact ⟨hcv, hcont⟩

theorem interning_applyItems {mode : HashResolve} {items : List BulkItem} {rest : List Hash}
    {st : BulkState} (h : Interning mode st (items.filterMap itemHash ++ rest)) :
    ∃ st', applyItems mode st items = .ok st' ∧ st'.tables = st.tables.internAll items ∧
      Interning mode st' rest := by
  induction items generalizing st with
  | nil => exact ⟨st, rfl, rfl, h⟩
  | cons item items ih =>
    have hstep : Interning mode st
        ((itemHash item).toList ++ (items.filterMap itemHash ++ rest)) := by
      cases hdec : itemHash item with
      | none => simpa [hdec] using h
      | some hash => simpa [hdec] using h
    obtain ⟨st₁, h₁, ht₁, hi₁⟩ := interning_applyItem hstep
    obtain ⟨st₂, h₂, ht₂, hi₂⟩ := ih hi₁
    refine ⟨st₂, by simp [applyItems, h₁, h₂], ?_, hi₂⟩
    rw [ht₂, ht₁]
    rfl

/-! ## Chunks -/

/-- One chunk: clearing the hash cache of the indexed path and storing a checkpoint touch no
mapping table. -/
theorem interning_applyMappingsImpl {mode : HashResolve} {items : List BulkItem}
    {rest : List Hash} {st : BulkState} (h : Interning mode st (items.filterMap itemHash ++ rest))
    (hindex : mode = .indexed → st.store.hashUniqueIndex = true) (ckpt : Option SeedCheckpoint) :
    ∃ st', st.store.applyMappingsImpl items st.caches st.nextSeq mode ckpt = .ok st' ∧
      st'.tables = st.tables.internAll items ∧ Interning mode st' rest ∧
      st'.store.hashUniqueIndex = st.store.hashUniqueIndex := by
  have hstart : Interning mode ⟨st.store,
      if mode = .indexed then { st.caches with hash := ∅ } else st.caches, st.nextSeq, ⟨0, 0⟩⟩
      (items.filterMap itemHash ++ rest) := by
    cases mode with
    | indexed => exact ⟨⟨fun k id hl => by simp at hl, h.caches.tag⟩, by simp⟩
    | deferredAppend => exact ⟨h.caches, h.deferred⟩
  obtain ⟨st₁, h₁, ht₁, hi₁⟩ := interning_applyItems hstart
  have hguard : ¬ (mode = .indexed ∧ st.store.hashUniqueIndex = false) := by
    rintro ⟨hm, hoff⟩
    rw [hindex hm] at hoff
    cases hoff
  have hflag : st₁.store.hashUniqueIndex = st.store.hashUniqueIndex :=
    (remapped_applyItems h₁).sameLog.hashUniqueIndex
  unfold RepoStore.applyMappingsImpl
  simp only [hguard, if_false, h₁]
  cases ckpt with
  | none => exact ⟨st₁, rfl, ht₁, hi₁, hflag⟩
  | some ck =>
    exact ⟨_, rfl, ht₁, ⟨⟨hi₁.caches.hash, hi₁.caches.tag⟩, hi₁.deferred⟩, hflag⟩

theorem interning_applyChunks {mode : HashResolve}
    {chunks : List (List BulkItem × Option SeedCheckpoint)} {st : BulkState}
    (h : Interning mode st ((chunks.map Prod.fst).flatten.filterMap itemHash))
    (hindex : mode = .indexed → st.store.hashUniqueIndex = true) :
    ∃ st', applyChunks mode st chunks = .ok st' ∧
      st'.tables = st.tables.internAll (chunks.map Prod.fst).flatten := by
  induction chunks generalizing st with
  | nil => exact ⟨st, rfl, rfl⟩
  | cons chunk chunks ih =>
    simp only [List.map_cons, List.flatten_cons, List.filterMap_append] at h
    obtain ⟨st₁, h₁, ht₁, hi₁, hf₁⟩ := interning_applyMappingsImpl h hindex chunk.2
    obtain ⟨st₂, h₂, ht₂⟩ := ih hi₁ (fun hm => hf₁.trans (hindex hm))
    refine ⟨st₂, by simp [applyChunks, h₁, h₂], ?_⟩
    rw [ht₂, ht₁, List.map_cons, List.flatten_cons, MappingTables.internAll_append]

/-- The wrapper reads the counter the chunk before it left. -/
theorem interning_applyBulks {chunks : List (List BulkItem)} {s : RepoStore}
    (hk : (BulkState.start s).tables.Kept) (hindex : s.hashUniqueIndex = true) :
    ∃ s', applyBulks s chunks = .ok s' ∧
      (BulkState.start s').tables = (BulkState.start s).tables.internAll chunks.flatten := by
  induction chunks generalizing s with
  | nil => exact ⟨s, rfl, rfl⟩
  | cons chunk chunks ih =>
    have h : Interning .indexed (BulkState.start s) (chunk.filterMap itemHash ++ []) :=
      ⟨InternCaches.valid_empty s, by simp⟩
    obtain ⟨st₁, h₁, ht₁, _, hf₁⟩ := interning_applyMappingsImpl h (fun _ => hindex) none
    have hk₁ := (MappingTables.kept_internAll hk chunk).1
    rw [← ht₁] at hk₁
    have hcur : st₁.store.mappingCursor = st₁.nextSeq := hk₁.cursor
    have hstart : (BulkState.start st₁.store).tables = st₁.tables := by
      simp [BulkState.start, BulkState.tables, hcur]
    rw [← hstart] at hk₁
    obtain ⟨s₂, h₂, ht₂⟩ := ih hk₁ (hf₁.trans hindex)
    have h₁' : s.applyMappingsBulk chunk = .ok st₁ := h₁
    refine ⟨s₂, by simp [applyBulks, h₁', h₂], ?_⟩
    rw [ht₂, hstart, ht₁, List.flatten_cons, MappingTables.internAll_append]

/-! ## The two loads -/

/-- A store without a hash and without a mapping. -/
structure RepoStore.Vacant (s : RepoStore) : Prop where
  hashes : s.repoHashes = .empty
  mappings : s.repoMappings = ∅
  tags : s.repoTags.Unique

theorem RepoStore.Vacant.mappingCursor {s : RepoStore} (h : s.Vacant) : s.mappingCursor = 0 := by
  rw [RepoStore.mappingCursor, h.mappings]
  rfl

theorem RepoStore.Vacant.kept {s : RepoStore} (h : s.Vacant) : (BulkState.start s).tables.Kept := by
  obtain ⟨hh, hm, ht⟩ := h
  refine ⟨⟨?_, ht, ?_, ?_⟩, rfl⟩
  · simp [BulkState.start, BulkState.tables, MappingTables.store, hh, IdTable.unique_empty]
  · intro k r hl
    simp [BulkState.start, BulkState.tables, MappingTables.store, hm] at hl
  · intro k k' r r' hl
    simp [BulkState.start, BulkState.tables, MappingTables.store, hm] at hl

theorem RepoStore.Vacant.numbered {s : RepoStore} (h : s.Vacant) :
    (BulkState.start s).tables.numbered = .start := by
  have hlog : (BulkState.start s).tables.store.log = fun _ => none := by
    funext k
    simp [RepoStore.log, RepoStore.row, BulkState.start, BulkState.tables, MappingTables.store,
      h.hashes, IdTable.idOf, IdTable.empty]
  rw [MappingTables.numbered, hlog, Numbered.start]
  congr 1
  exact h.mappingCursor

theorem interning_start {mode : HashResolve} {s : RepoStore} (h : s.Vacant) {rest : List Hash}
    (hg : Grouped rest) : Interning mode (.start s) rest := by
  refine ⟨InternCaches.valid_empty s, fun _ => ⟨?_, ?_⟩⟩
  · intro h id hc
    cases hc
  · have hvalues : s.repoHashes.values = [] := by
      rw [h.hashes]
      rfl
    change Continues s.repoHashes.values none rest
    rw [hvalues]
    exact .start hg none

/-- The changes the items make to a store without mappings, in order. -/
def bulkChanges (items : List BulkItem) : List StatusWrite :=
  changes (fun _ => none) (items.filterMap bulkWrite)

/-- What a load of the items leaves: their statuses, a row for each hash, and the changes numbered
from 1 in order, a pair holding the number of its last one. -/
structure BulkLoaded (items : List BulkItem) (s : RepoStore) (nextSeq : Nat) : Prop where
  statuses : s.statuses = writeAll (fun _ => none) (items.filterMap bulkWrite)
  unique : s.repoHashes.Unique
  hashes : ∀ h, h ∈ s.repoHashes.values ↔ h ∈ items.filterMap itemHash
  cursor : s.mappingCursor = nextSeq
  count : nextSeq = (bulkChanges items).length
  seqs : ∀ k st m, s.log k = some (st, m) ↔ ∃ before after,
    bulkChanges items = before ++ (k, st) :: after ∧ lastWrite after k = none ∧
      m = before.length + 1
  dense : (∀ w ∈ items.filterMap bulkWrite, ∀ w' ∈ items.filterMap bulkWrite,
      w.1 = w'.1 → w.2 = w'.2) →
    ∀ m, (∃ k st, s.log k = some (st, m)) ↔ 1 ≤ m ∧ m ≤ nextSeq

theorem bulkLoaded_of_tables {s : RepoStore} (hs : s.Vacant) {items : List BulkItem} {st : BulkState}
    (ht : st.tables = (BulkState.start s).tables.internAll items) :
    BulkLoaded items st.store st.nextSeq := by
  obtain ⟨hk, hn⟩ := MappingTables.kept_internAll hs.kept items
  rw [← ht, hs.numbered] at hn
  rw [← ht] at hk
  have hlog : st.store.log = (recordAll .start (items.filterMap bulkWrite)).log := by
    rw [← hn]
    rfl
  have hseq : st.nextSeq = (recordAll (.start : Numbered (Hash × String) MappingStatus)
      (items.filterMap bulkWrite)).count := by
    rw [← hn]
    rfl
  have hvalues := values_recordAll (.start : Numbered (Hash × String) MappingStatus)
    (items.filterMap bulkWrite)
  refine ⟨?_, hk.sound.hashes, ?_, hk.cursor, ?_, ?_, ?_⟩
  · rw [← hn] at hvalues
    rw [show (fun _ => none) = (Numbered.start : Numbered (Hash × String) MappingStatus).values
      from rfl, ← hvalues]
    funext k
    simp only [RepoStore.statuses, Numbered.values, MappingTables.numbered, RepoStore.log,
      Option.map_map]
    rfl
  · intro h
    have hmem := MappingTables.mem_hashes_internAll (BulkState.start s).tables items h
    rw [← ht] at hmem
    have hempty : (BulkState.start s).tables.hashes.values = [] := by
      change s.repoHashes.values = []
      rw [hs.hashes]
      rfl
    simp only [hempty, List.not_mem_nil, false_or] at hmem
    exact hmem
  · rw [hseq, recordAll_count]
    exact Nat.zero_add _
  · intro k st' m
    rw [hlog, recordAll_log]
    have hzero : (Numbered.start : Numbered (Hash × String) MappingStatus).count = 0 := rfl
    simp only [hzero, Nat.zero_add]
    constructor
    · rintro (⟨_, hnone⟩ | h)
      · cases hnone
      · exact h
    · exact .inr
  · intro hone m
    rw [hlog, hseq]
    exact numbers_dense hone m

/-- **On a store without hashes and mappings, rows grouped by hash leave the same tables whether
they are loaded without the hash index, with it, or through the wrapper, however they are cut into
chunks; the changes are numbered from 1 without a gap.** -/
theorem deferred_agrees {s s' : RepoStore} (hs : s.Vacant) (hs' : s'.Vacant)
    (htags : s'.repoTags = s.repoTags) (hindex : s'.hashUniqueIndex = true)
    {items : List BulkItem} (hg : Grouped (items.filterMap itemHash))
    {chunks chunks' : List (List BulkItem × Option SeedCheckpoint)}
    {bulks : List (List BulkItem)} (hc : (chunks.map Prod.fst).flatten = items)
    (hc' : (chunks'.map Prod.fst).flatten = items) (hb : bulks.flatten = items) :
    ∃ st st' s'', applyChunks .deferredAppend (.start s) chunks = .ok st ∧
      applyChunks .indexed (.start s') chunks' = .ok st' ∧ applyBulks s' bulks = .ok s'' ∧
      st'.tables = st.tables ∧ (BulkState.start s'').tables = st.tables ∧
      BulkLoaded items st.store st.nextSeq := by
  subst hc
  have hstart : (BulkState.start s').tables = (BulkState.start s).tables := by
    simp [BulkState.start, BulkState.tables, htags, hs.hashes, hs'.hashes, hs.mappings,
      hs'.mappings, hs.mappingCursor, hs'.mappingCursor]
  have hdef : Interning .deferredAppend (.start s)
      ((chunks.map Prod.fst).flatten.filterMap itemHash) := interning_start hs hg
  have hidx : Interning .indexed (.start s')
      ((chunks'.map Prod.fst).flatten.filterMap itemHash) :=
    interning_start hs' (by rw [hc']; exact hg)
  obtain ⟨st, hst, ht⟩ := interning_applyChunks hdef (fun h => by cases h)
  obtain ⟨st', hst', ht'⟩ := interning_applyChunks hidx (fun _ => hindex)
  obtain ⟨s'', hs'', ht''⟩ : ∃ s'', applyBulks s' bulks = .ok s'' ∧ _ :=
    interning_applyBulks hs'.kept hindex
  rw [hc', hstart, ← ht] at ht'
  rw [hb, hstart, ← ht] at ht''
  exact ⟨st, st', s'', hst, hst', hs'', ht', ht'', bulkLoaded_of_tables hs ht⟩

/-- Two hashes with a row that does not decode between them, and a pair whose status changes. -/
def gapItems : List BulkItem :=
  [((Hash.fill 1).toHex, "a", false), ((Hash.fill 1).toHex, "b", false), ("no hash", "b", false),
    ((Hash.fill 1).toHex, "b", true), ((Hash.fill 2).toHex, "a", false)]

/-- The store a deferred load begins on. -/
def unindexed : RepoStore := { RepoStore.empty with hashUniqueIndex := false }

theorem deferred_agrees_gapItems :
    ∃ st st' s'', applyChunks .deferredAppend (.start unindexed)
        [(gapItems.take 2, none), (gapItems.drop 2, none)] = .ok st ∧
      applyChunks .indexed (.start .empty) [(gapItems, none)] = .ok st' ∧
      applyBulks .empty [gapItems.take 3, gapItems.drop 3] = .ok s'' ∧
      st'.tables = st.tables ∧ (BulkState.start s'').tables = st.tables ∧
      BulkLoaded gapItems st.store st.nextSeq :=
  have hs : unindexed.Vacant := ⟨rfl, rfl, IdTable.unique_empty⟩
  have hs' : RepoStore.empty.Vacant := ⟨rfl, rfl, IdTable.unique_empty⟩
  have hg : Grouped (gapItems.filterMap itemHash) := by decide +kernel
  deferred_agrees hs hs' rfl rfl hg rfl rfl rfl

/-- The pair whose status changed gave up its first number: 2 is held by no row. -/
theorem deferred_gap :
    Grouped (gapItems.filterMap itemHash) ∧
      ∃ st, applyChunks .deferredAppend (.start unindexed) [(gapItems, none)] = .ok st ∧
        (st.store.repoMappings.entries.map fun e => e.2.seq) = [4, 3, 1] :=
  ⟨by decide +kernel, _, rfl, by decide +kernel⟩

end Server
end Naiad
