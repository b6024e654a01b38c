import Naiad.Server.Store

/-!
# Naiad.Server.Mapping

The three statements every write path of the store is made of: intern a hash, intern a tag, upsert
the mapping of the two ids.

* `row_internHash`, `row_internTag`: interning changes no row.
* `row_upsertMapping`: an upsert changes the row of its own pair only.
* `evolves_upsertMapping`: an upsert under a sequence number past the cursor keeps the store sound
  and changes no row the cursor has passed.
-/

namespace Naiad
namespace Server

open Lib Netproto

namespace RepoStore

def internHash (s : RepoStore) (hash : Hash) : RepoStore × Nat :=
  ({ s with repoHashes := (s.repoHashes.intern hash).1 }, (s.repoHashes.intern hash).2)

def internTag (s : RepoStore) (tag : String) : RepoStore × Nat :=
  ({ s with repoTags := (s.repoTags.intern tag).1 }, (s.repoTags.intern tag).2)

/-- `INSERT INTO repo_mappings .. ON CONFLICT(hash_id, tag_id) DO UPDATE ..`. -/
def upsertMapping (s : RepoStore) (k : Nat × Nat) (new : MappingRow)
    (merge : MappingRow → Option MappingRow) : RepoStore × Nat :=
  ({ s with repoMappings := (Table.upsert s.repoMappings k new merge).1 },
    (Table.upsert s.repoMappings k new merge).2)

end RepoStore

/-- `SET status, seq .. WHERE status IS NOT excluded.status`: the origin stays. -/
def mergeStatus (new old : MappingRow) : Option MappingRow :=
  if old.status = new.status then none else some { old with status := new.status, seq := new.seq }

/-- `SET status, seq, origin .. WHERE status IS NOT .. OR origin IS NOT ..`. -/
def mergeStatusOrigin (new old : MappingRow) : Option MappingRow :=
  if old.status = new.status ∧ old.origin = new.origin then none else some new

theorem mergeStatus_seq {new old r : MappingRow} (h : mergeStatus new old = some r) :
    r.seq = new.seq := by
  unfold mergeStatus at h
  split at h
  · cases h
  · cases h
    rfl

theorem mergeStatusOrigin_seq {new old r : MappingRow}
    (h : mergeStatusOrigin new old = some r) : r.seq = new.seq := by
  unfold mergeStatusOrigin at h
  split at h
  · cases h
  · cases h
    rfl

/-- What a write path owes the rows below `c`: the store stays sound, every change takes a sequence
number past `c`, and the cursor does not move back. -/
structure Evolves (c : Nat) (s s' : RepoStore) : Prop where
  sound : s'.Sound
  advances : Advances c s.log s'.log
  cursor : s.mappingCursor ≤ s'.mappingCursor

theorem Evolves.refl {s : RepoStore} (hs : s.Sound) (c : Nat) : Evolves c s s :=
  ⟨hs, Advances.refl c s.log, le_refl _⟩

theorem Evolves.trans {c : Nat} {s s' s'' : RepoStore} (h : Evolves c s s')
    (h' : Evolves c s' s'') : Evolves c s s'' :=
  ⟨h'.sound, h.advances.trans h'.advances, h.cursor.trans h'.cursor⟩

theorem Evolves.mono {c c' : Nat} {s s' : RepoStore} (h : Evolves c' s s') (hc : c ≤ c') :
    Evolves c s s' :=
  ⟨h.sound, h.advances.mono hc, h.cursor⟩

/-- A store that differs only outside the three mapping tables. -/
theorem Evolves.of_eq {c : Nat} {s s' : RepoStore} (hs : s.Sound)
    (hh : s'.repoHashes = s.repoHashes) (ht : s'.repoTags = s.repoTags)
    (hm : s'.repoMappings = s.repoMappings) : Evolves c s s' := by
  have hlog : s'.log = s.log := by
    funext k
    simp only [RepoStore.log, RepoStore.row, hh, ht, hm]
  refine ⟨⟨?_, ?_, ?_, ?_⟩, ?_, ?_⟩
  · rw [hh]; exact hs.hashes
  · rw [ht]; exact hs.tags
  · rw [hh, ht, hm]; exact hs.refs
  · rw [hm]; exact hs.seqs
  · rw [hlog]; exact Advances.refl c s.log
  · simp only [RepoStore.mappingCursor, hm, le_refl]

namespace RepoStore

/-! ## Interning -/

@[simp] theorem internHash_mappings (s : RepoStore) (h : Hash) :
    (s.internHash h).1.repoMappings = s.repoMappings := rfl

@[simp] theorem internTag_mappings (s : RepoStore) (t : String) :
    (s.internTag t).1.repoMappings = s.repoMappings := rfl

@[simp] theorem internTag_hashes (s : RepoStore) (t : String) :
    (s.internTag t).1.repoHashes = s.repoHashes := rfl

@[simp] theorem internHash_tags (s : RepoStore) (h : Hash) :
    (s.internHash h).1.repoTags = s.repoTags := rfl

theorem idOf_internHash (s : RepoStore) (h : Hash) :
    (s.internHash h).1.repoHashes.idOf h = some (s.internHash h).2 :=
  IdTable.idOf_intern _ _

theorem idOf_internTag (s : RepoStore) (t : String) :
    (s.internTag t).1.repoTags.idOf t = some (s.internTag t).2 :=
  IdTable.idOf_intern _ _

theorem row_def (s : RepoStore) (h : Hash) (t : String) :
    s.row h t = match s.repoHashes.idOf h, s.repoTags.idOf t with
      | some hid, some tid => s.repoMappings.lookup (hid, tid)
      | _, _ => none := rfl

/-- A hash interned for the first time has no row: mappings refer to ids that exist. -/
theorem row_internHash {s : RepoStore} (hs : s.Sound) (h : Hash) :
    (s.internHash h).1.row = s.row := by
  funext h' t'
  rw [row_def, row_def, internHash_tags, internHash_mappings]
  cases hid : s.repoHashes.idOf h' with
  | some id =>
    have : (s.internHash h).1.repoHashes.idOf h' = some id := IdTable.idOf_intern_of_some hid
    rw [this]
  | none =>
    cases hid' : (s.internHash h).1.repoHashes.idOf h' with
    | none => rfl
    | some id =>
      obtain ⟨_, rfl⟩ := IdTable.idOf_intern_of_none hid hid'
      cases ht : s.repoTags.idOf t' with
      | none => rfl
      | some tid =>
        cases hl : s.repoMappings.lookup (s.repoHashes.nextId, tid) with
        | none => exact hl
        | some r => exact absurd (hs.refs _ _ hl).1 (IdTable.nextId_not_mem _)

theorem row_internTag {s : RepoStore} (hs : s.Sound) (t : String) :
    (s.internTag t).1.row = s.row := by
  funext h' t'
  rw [row_def, row_def, internTag_hashes, internTag_mappings]
  cases hid : s.repoTags.idOf t' with
  | some id =>
    have : (s.internTag t).1.repoTags.idOf t' = some id := IdTable.idOf_intern_of_some hid
    rw [this]
  | none =>
    cases hid' : (s.internTag t).1.repoTags.idOf t' with
    | none => cases s.repoHashes.idOf h' <;> rfl
    | some id =>
      obtain ⟨_, rfl⟩ := IdTable.idOf_intern_of_none hid hid'
      cases hh : s.repoHashes.idOf h' with
      | none => rfl
      | some hid'' =>
        cases hl : s.repoMappings.lookup (hid'', s.repoTags.nextId) with
        | none => exact hl
        | some r => exact absurd (hs.refs _ _ hl).2 (IdTable.nextId_not_mem _)

theorem evolves_internHash {s : RepoStore} (hs : s.Sound) (c : Nat) (h : Hash) :
    Evolves c s (s.internHash h).1 := by
  have hlog : (s.internHash h).1.log = s.log := by
    funext k
    rw [log, log, row_internHash hs]
  refine ⟨⟨IdTable.unique_intern hs.hashes h, hs.tags, ?_, hs.seqs⟩, ?_, le_refl _⟩
  · intro k r hl
    obtain ⟨h1, h2⟩ := hs.refs k r hl
    exact ⟨IdTable.mem_ids_intern h1, h2⟩
  · rw [hlog]
    exact Advances.refl c s.log

theorem evolves_internTag {s : RepoStore} (hs : s.Sound) (c : Nat) (t : String) :
    Evolves c s (s.internTag t).1 := by
  have hlog : (s.internTag t).1.log = s.log := by
    funext k
    rw [log, log, row_internTag hs]
  refine ⟨⟨hs.hashes, IdTable.unique_intern hs.tags t, ?_, hs.seqs⟩, ?_, le_refl _⟩
  · intro k r hl
    obtain ⟨h1, h2⟩ := hs.refs k r hl
    exact ⟨h1, IdTable.mem_ids_intern h2⟩
  · rw [hlog]
    exact Advances.refl c s.log

/-! ## Upserting -/

def setMapping (s : RepoStore) (k : Nat × Nat) (r : MappingRow) : RepoStore :=
  { s with repoMappings := s.repoMappings.insert k r }

theorem row_setMapping {s : RepoStore} {h : Hash} {t : String} {hid tid : Nat}
    (hh : s.repoHashes.idOf h = some hid) (ht : s.repoTags.idOf t = some tid) (r : MappingRow)
    (h' : Hash) (t' : String) :
    (s.setMapping (hid, tid) r).row h' t' =
      if (h', t') = (h, t) then some r else s.row h' t' := by
  unfold row setMapping
  cases hh' : s.repoHashes.idOf h' with
  | none =>
    have : h' ≠ h := by rintro rfl; rw [hh] at hh'; cases hh'
    simp [this]
  | some hid' =>
    cases ht' : s.repoTags.idOf t' with
    | none =>
      have : t' ≠ t := by rintro rfl; rw [ht] at ht'; cases ht'
      simp [this]
    | some tid' =>
      simp only
      by_cases hk : (hid', tid') = (hid, tid)
      · simp only [Prod.mk.injEq] at hk
        obtain ⟨rfl, rfl⟩ := hk
        have hhash := IdTable.mem_rows_unique (IdTable.mem_of_idOf hh) (IdTable.mem_of_idOf hh')
        have htag := IdTable.mem_rows_unique (IdTable.mem_of_idOf ht) (IdTable.mem_of_idOf ht')
        rw [AList.lookup_insert, if_pos (by rw [hhash, htag])]
      · have hne : (h', t') ≠ (h, t) := by
          rintro heq
          simp only [Prod.mk.injEq] at heq
          obtain ⟨rfl, rfl⟩ := heq
          rw [hh] at hh'
          rw [ht] at ht'
          cases hh'
          cases ht'
          exact hk rfl
        rw [AList.lookup_insert_ne hk, if_neg hne]

theorem cursor_setMapping {s : RepoStore} {k : Nat × Nat} {r : MappingRow}
    (hr : s.mappingCursor < r.seq) : (s.setMapping k r).mappingCursor = r.seq := by
  apply le_antisymm
  · apply Table.maxOf_le
    intro k' r' hl
    by_cases hk : k' = k
    · subst hk
      rw [setMapping, AList.lookup_insert] at hl
      cases hl
      exact le_refl _
    · rw [setMapping, AList.lookup_insert_ne hk] at hl
      have : r'.seq ≤ s.mappingCursor := Table.le_maxOf hl
      omega
  · have : (s.setMapping k r).repoMappings.lookup k = some r := by
      rw [setMapping, AList.lookup_insert]
    exact Table.le_maxOf this

theorem sound_setMapping {s : RepoStore} (hs : s.Sound) {k : Nat × Nat} {r : MappingRow}
    (h1 : k.1 ∈ s.repoHashes.ids) (h2 : k.2 ∈ s.repoTags.ids) (hr : s.mappingCursor < r.seq) :
    (s.setMapping k r).Sound := by
  have hother : ∀ k' r', s.repoMappings.lookup k' = some r' → r'.seq ≠ r.seq := by
    intro k' r' hl
    have : r'.seq ≤ s.mappingCursor := Table.le_maxOf hl
    omega
  refine ⟨hs.hashes, hs.tags, ?_, ?_⟩
  · intro k' r' hl
    by_cases hk : k' = k
    · subst hk
      exact ⟨h1, h2⟩
    · rw [setMapping, AList.lookup_insert_ne hk] at hl
      exact hs.refs k' r' hl
  · intro k₁ k₂ r₁ r₂ hl₁ hl₂ hseq
    simp only [setMapping] at hl₁ hl₂
    by_cases hk₁ : k₁ = k
    · by_cases hk₂ : k₂ = k
      · rw [hk₁, hk₂]
      · subst hk₁
        rw [AList.lookup_insert] at hl₁
        rw [AList.lookup_insert_ne hk₂] at hl₂
        cases hl₁
        exact absurd hseq.symm (hother k₂ r₂ hl₂)
    · rw [AList.lookup_insert_ne hk₁] at hl₁
      by_cases hk₂ : k₂ = k
      · subst hk₂
        rw [AList.lookup_insert] at hl₂
        cases hl₂
        exact absurd hseq (hother k₁ r₁ hl₁)
      · rw [AList.lookup_insert_ne hk₂] at hl₂
        exact hs.seqs k₁ k₂ r₁ r₂ hl₁ hl₂ hseq

theorem lookup_eq_row {s : RepoStore} {h : Hash} {t : String} {hid tid : Nat}
    (hh : s.repoHashes.idOf h = some hid) (ht : s.repoTags.idOf t = some tid) :
    s.repoMappings.lookup (hid, tid) = s.row h t := by
  simp [row, hh, ht]

/-- What an upsert did: nothing, or one row set to the new row or to a merge with the old. -/
theorem upsertMapping_cases {s : RepoStore} {h : Hash} {t : String} {hid tid : Nat}
    (hh : s.repoHashes.idOf h = some hid) (ht : s.repoTags.idOf t = some tid)
    (new : MappingRow) (merge : MappingRow → Option MappingRow) :
    (∃ old, s.row h t = some old ∧ merge old = none ∧
        s.upsertMapping (hid, tid) new merge = (s, 0)) ∨
      ∃ r, s.upsertMapping (hid, tid) new merge = (s.setMapping (hid, tid) r, 1) ∧
        ((s.row h t = none ∧ r = new) ∨ ∃ old, s.row h t = some old ∧ merge old = some r) := by
  rw [← lookup_eq_row hh ht]
  rcases Table.upsert_cases s.repoMappings (hid, tid) new merge with
    ⟨old, hl, hm, hu⟩ | ⟨r, hu, hr⟩
  · left
    exact ⟨old, hl, hm, by simp [upsertMapping, hu]⟩
  · right
    exact ⟨r, by simp [upsertMapping, setMapping, hu], hr⟩

/-- The row an upsert leaves where there was `old`. -/
def mergedRow (new : MappingRow) (merge : MappingRow → Option MappingRow) :
    Option MappingRow → MappingRow
  | none => new
  | some old => (merge old).getD old

theorem row_upsertMapping {s : RepoStore} {h : Hash} {t : String} {hid tid : Nat}
    (hh : s.repoHashes.idOf h = some hid) (ht : s.repoTags.idOf t = some tid)
    (new : MappingRow) (merge : MappingRow → Option MappingRow) (h' : Hash) (t' : String) :
    (s.upsertMapping (hid, tid) new merge).1.row h' t' =
      if (h', t') = (h, t) then some (mergedRow new merge (s.row h t)) else s.row h' t' := by
  rcases upsertMapping_cases hh ht new merge with ⟨old, hrow, hm, hu⟩ | ⟨r, hu, hr⟩
  · rw [hu, hrow]
    split
    · rename_i heq
      simp only [Prod.mk.injEq] at heq
      obtain ⟨rfl, rfl⟩ := heq
      simp [hrow, mergedRow, hm]
    · rfl
  · rw [hu, row_setMapping hh ht]
    rcases hr with ⟨hrow, rfl⟩ | ⟨old, hrow, hm⟩
    · simp [hrow, mergedRow]
    · simp [hrow, mergedRow, hm]

/-- An upsert under a sequence number past the cursor changes no row the cursor has passed. -/
theorem evolves_upsertMapping {s : RepoStore} (hs : s.Sound) {c : Nat} {h : Hash} {t : String}
    {hid tid : Nat} (hh : s.repoHashes.idOf h = some hid) (ht : s.repoTags.idOf t = some tid)
    {new : MappingRow} {merge : MappingRow → Option MappingRow}
    (hmerge : ∀ old r, merge old = some r → r.seq = new.seq)
    (hnew : s.mappingCursor < new.seq) (hc : c < new.seq) :
    Evolves c s (s.upsertMapping (hid, tid) new merge).1 := by
  rcases upsertMapping_cases hh ht new merge with ⟨old, hrow, hm, hu⟩ | ⟨r, hu, hr⟩
  · rw [hu]
    exact Evolves.refl hs c
  · have hseq : r.seq = new.seq := by
      rcases hr with ⟨_, rfl⟩ | ⟨old, _, hm⟩
      · rfl
      · exact hmerge old r hm
    have hlt : s.mappingCursor < r.seq := by omega
    rw [hu]
    refine ⟨sound_setMapping hs (IdTable.mem_ids_of_idOf hh) (IdTable.mem_ids_of_idOf ht) hlt,
      ?_, ?_⟩
    · rintro ⟨h', t'⟩
      simp only [log, row_setMapping hh ht]
      by_cases hk : (h', t') = (h, t)
      · right
        exact ⟨r.status, r.seq, by simp [hk], by omega⟩
      · left
        rw [if_neg hk]
    · rw [cursor_setMapping hlt]
      omega

/-- The cursor after an upsert: where it was if nothing changed, else the new sequence number. -/
theorem cursor_upsertMapping {s : RepoStore} {h : Hash} {t : String}
    {hid tid : Nat} (hh : s.repoHashes.idOf h = some hid) (ht : s.repoTags.idOf t = some tid)
    {new : MappingRow} {merge : MappingRow → Option MappingRow}
    (hmerge : ∀ old r, merge old = some r → r.seq = new.seq)
    (hnew : s.mappingCursor < new.seq) :
    (s.upsertMapping (hid, tid) new merge).1.mappingCursor =
      if (s.upsertMapping (hid, tid) new merge).2 = 0 then s.mappingCursor else new.seq := by
  rcases upsertMapping_cases hh ht new merge with ⟨old, hrow, hm, hu⟩ | ⟨r, hu, hr⟩
  · rw [hu]
    simp
  · have hseq : r.seq = new.seq := by
      rcases hr with ⟨_, rfl⟩ | ⟨old, _, hm⟩
      · rfl
      · exact hmerge old r hm
    rw [hu]
    simp only [one_ne_zero, if_false]
    rw [cursor_setMapping (by omega), hseq]

end RepoStore

end Server
end Naiad
