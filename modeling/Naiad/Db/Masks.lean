import Naiad.Db.Pull

/-!
# Naiad.Db.Masks

The mappings of a database as masks: for a file, a tag text and a service, the identity domains
that supply the row, zero when there is none. Every statement of a merge is a change of masks, and
none lets a zero mask stand.

* `mask_assertTag`, `mask_retract`, `mask_deleteMappings`: the statements seen so.
* `NoZero`: no row is left that no domain supplies.
-/

namespace Naiad
namespace Db

open Lib Netproto

/-- Unique tags, and mappings that refer to them. -/
structure MappingTags (db : Db) : Prop where
  tags_unique : db.tags.Unique
  mapping_tag : ∀ f t s row, db.mappings.lookup (f, t, s) = some row → t ∈ db.tags.ids

/-- No row is left that no domain supplies. -/
def NoZero (db : Db) : Prop := ∀ k row, db.mappings.lookup k = some row → row.domains ≠ 0

/-- The mask of the row of a tag id. -/
def rowMask (db : Db) (k : Nat × Nat × Nat) : BitVec 64 :=
  ((db.mappings.lookup k).map MappingRow.domains).getD 0

/-- The domains that supply a tag of a file on a service. -/
def mask (db : Db) (f : Nat) (tag : Tag) (s : Nat) : BitVec 64 :=
  ((db.tags.idOf tag).map fun t => db.rowMask (f, t, s)).getD 0

def domainFlag (domain : String) : Nat := if domain = "sha256" then 1 else 0

theorem domainBit_eq (domain : String) :
    domainBit domain = BitVec.twoPow 64 (domainFlag domain) := by
  unfold domainBit domainFlag
  split
  · rfl
  · rfl

theorem domainFlag_lt (domain : String) : domainFlag domain < 64 := by
  unfold domainFlag
  split <;> omega

section

variable {db : Db}

/-! ## Interning -/

/-- Interning gives a tag an id and leaves every mask. -/
theorem mask_internTag (h : db.MappingTags) (tag : Tag) (f : Nat) (tag' : Tag) (s : Nat) :
    (db.internTag tag).mask f tag' s = db.mask f tag' s := by
  show (((db.tags.intern tag).1.idOf tag').map fun t => db.rowMask (f, t, s)).getD 0 = _
  rw [mask]
  cases hid : db.tags.idOf tag' with
  | some t => rw [IdTable.idOf_intern_of_some hid]
  | none =>
    cases hid' : (db.tags.intern tag).1.idOf tag' with
    | none => rfl
    | some t =>
      obtain ⟨_, rfl⟩ := IdTable.idOf_intern_of_none hid hid'
      cases hl : db.mappings.lookup (f, db.tags.nextId, s) with
      | none => simp [rowMask, hl]
      | some row => exact absurd (h.mapping_tag _ _ _ _ hl) (IdTable.nextId_not_mem _)

theorem MappingTags.internTag (h : db.MappingTags) (tag : Tag) : (db.internTag tag).MappingTags := by
  refine ⟨IdTable.unique_intern h.tags_unique tag, ?_⟩
  intro f t s row hl
  exact IdTable.mem_ids_intern (h.mapping_tag f t s row hl)

theorem idOf_internTag (tag : Tag) :
    (db.internTag tag).tags.idOf tag = some (db.internedTag tag) := IdTable.idOf_intern _ _

theorem internOrigin_frame (db : Db) (origin : Option String) :
    (db.internOrigin origin).1.mappings = db.mappings ∧
      (db.internOrigin origin).1.tags = db.tags ∧ (db.internOrigin origin).1.files = db.files := by
  cases origin with
  | none => exact ⟨rfl, rfl, rfl⟩
  | some name => exact ⟨rfl, rfl, rfl⟩

/-! ## Rows -/

theorem rowMask_retract (i : Nat) (p : Nat × Nat × Nat → MappingRow → Bool)
    (k : Nat × Nat × Nat) :
    (db.retract (BitVec.twoPow 64 i) p).rowMask k =
      if ∃ row, db.mappings.lookup k = some row ∧ p k row = true then
        setFlag (db.rowMask k) i false
      else db.rowMask k := by
  have hl : (db.retract (BitVec.twoPow 64 i) p).mappings.lookup k = _ := Table.lookup_modify _ _ _
  rw [rowMask, rowMask, hl]
  cases db.mappings.lookup k with
  | none => simp
  | some row =>
    by_cases hp : p k row = true
    · simp [hp, and_not_twoPow]
    · simp [hp]

theorem rowMask_deleteMappings (p : Nat × Nat × Nat → MappingRow → Bool) (k : Nat × Nat × Nat) :
    (db.deleteMappings p).rowMask k =
      if ∃ row, db.mappings.lookup k = some row ∧ p k row = true then 0 else db.rowMask k := by
  have hl : (db.deleteMappings p).mappings.lookup k = _ := Table.lookup_select _ _ _
  rw [rowMask, rowMask, hl]
  cases db.mappings.lookup k with
  | none => simp
  | some row =>
    by_cases hp : p k row = true
    · simp [hp, Option.filter]
    · simp [hp, Option.filter]

theorem rowMask_insertMapping (db : Db) {i : Nat} (key : Nat × Nat × Nat) {row : MappingRow}
    {update : MappingRow → MappingRow} (hrow : row.domains = BitVec.twoPow 64 i)
    (hupdate : ∀ old, (update old).domains = old.domains ||| BitVec.twoPow 64 i)
    (k : Nat × Nat × Nat) :
    (db.insertMapping key row update).rowMask k =
      if k = key then setFlag (db.rowMask k) i true else db.rowMask k := by
  by_cases hk : k = key
  · subst hk
    rw [if_pos rfl, rowMask, rowMask]
    show ((((db.mappings.upsert k row fun old => some (update old)).1.lookup k).map
      MappingRow.domains).getD 0) = _
    unfold Table.upsert
    cases hl : db.mappings.lookup k with
    | none => simp [AList.lookup_insert, hrow, setFlag]
    | some old => simp [AList.lookup_insert, hupdate, or_twoPow]
  · rw [if_neg hk, rowMask, rowMask]
    show ((((db.mappings.upsert key row fun old => some (update old)).1.lookup k).map
      MappingRow.domains).getD 0) = _
    rw [Table.lookup_upsert_ne hk]

theorem MappingTags.of_lookup {db' : Db} (h : db.MappingTags) (htags : db'.tags = db.tags)
    (hrows : ∀ f t s row, db'.mappings.lookup (f, t, s) = some row →
      t ∈ db.tags.ids) : db'.MappingTags := by
  refine ⟨by rw [htags]; exact h.tags_unique, ?_⟩
  intro f t s row hl
  rw [htags]
  exact hrows f t s row hl

theorem MappingTags.retract (h : db.MappingTags) (bit : BitVec 64)
    (p : Nat × Nat × Nat → MappingRow → Bool) : (db.retract bit p).MappingTags := by
  refine h.of_lookup rfl ?_
  intro f t s row hl
  obtain ⟨old, hold, _⟩ := Option.map_eq_some_iff.1
    ((Table.lookup_modify _ _ _).symm.trans hl)
  exact h.mapping_tag f t s old hold

theorem MappingTags.deleteMappings (h : db.MappingTags)
    (p : Nat × Nat × Nat → MappingRow → Bool) : (db.deleteMappings p).MappingTags := by
  refine h.of_lookup rfl ?_
  intro f t s row hl
  obtain ⟨hold, _⟩ := Option.filter_eq_some_iff.1 ((Table.lookup_select _ _ _).symm.trans hl)
  exact h.mapping_tag f t s row hold

theorem lookup_insertMapping_isSome {key k : Nat × Nat × Nat} {row row' : MappingRow}
    {update : MappingRow → MappingRow}
    (hl : (db.insertMapping key row update).mappings.lookup k = some row') :
    k = key ∨ ∃ old, db.mappings.lookup k = some old := by
  by_cases hk : k = key
  · exact .inl hk
  · right
    have hne : (db.insertMapping key row update).mappings.lookup k = db.mappings.lookup k :=
      Table.lookup_upsert_ne hk
    exact ⟨row', hne.symm.trans hl⟩

theorem MappingTags.insertMapping (h : db.MappingTags) {f t s : Nat} (ht : t ∈ db.tags.ids)
    (row : MappingRow) (update : MappingRow → MappingRow) :
    (db.insertMapping (f, t, s) row update).MappingTags := by
  refine h.of_lookup rfl ?_
  intro f' t' s' row' hl
  rcases lookup_insertMapping_isSome hl with heq | ⟨old, hold⟩
  · cases heq
    exact ht
  · exact h.mapping_tag f' t' s' old hold

/-! ## Changes of one flag -/

/-- `db'` is `db` with new values for one flag of the rows of one service. -/
structure Sets (service i : Nat) (v : Nat → Tag → Bool → Bool) (db db' : Db) : Prop where
  files : db'.files = db.files
  tags : db'.MappingTags
  ids : ∀ tag id, db.tags.idOf tag = some id → db'.tags.idOf tag = some id
  mask : ∀ f tag s, db'.mask f tag s =
    if s = service then setFlag (db.mask f tag s) i (v f tag ((db.mask f tag s).getLsbD i))
    else db.mask f tag s
  others : ∀ f t s, s ≠ service → db'.mappings.lookup (f, t, s) = db.mappings.lookup (f, t, s)

theorem Sets.refl {service i : Nat} (h : db.MappingTags) :
    Sets service i (fun _ _ b => b) db db := by
  refine ⟨rfl, h, fun _ _ hid => hid, ?_, fun _ _ _ _ => rfl⟩
  intro f tag s
  rw [setFlag_self, ite_self]

theorem Sets.trans {service i : Nat} (hi : i < 64) {v v' : Nat → Tag → Bool → Bool} {db' db'' : Db}
    (h : Sets service i v db db') (h' : Sets service i v' db' db'') :
    Sets service i (fun f tag b => v' f tag (v f tag b)) db db'' := by
  refine ⟨h'.files.trans h.files, h'.tags, fun tag id hid => h'.ids tag id (h.ids tag id hid), ?_,
    fun f t s hs => (h'.others f t s hs).trans (h.others f t s hs)⟩
  intro f tag s
  rw [h'.mask, h.mask]
  by_cases hs : s = service
  · rw [if_pos hs, if_pos hs, if_pos hs, getLsbD_setFlag _ _ hi, if_pos rfl, setFlag_setFlag]
  · rw [if_neg hs, if_neg hs, if_neg hs]

theorem Sets.congr {service i : Nat} {v v' : Nat → Tag → Bool → Bool} {db' : Db}
    (h : Sets service i v db db') (hv : ∀ f tag b, v f tag b = v' f tag b) :
    Sets service i v' db db' := by
  have heq : v = v' := by
    funext f tag b
    exact hv f tag b
  rw [← heq]
  exact h

/-- Only the flags the rows have count. -/
theorem Sets.congr_flag {service i : Nat} {v v' : Nat → Tag → Bool → Bool} {db' : Db}
    (h : Sets service i v db db')
    (hv : ∀ f tag, v f tag ((db.mask f tag service).getLsbD i) =
      v' f tag ((db.mask f tag service).getLsbD i)) : Sets service i v' db db' := by
  refine ⟨h.files, h.tags, h.ids, ?_, h.others⟩
  intro f tag s
  rw [h.mask]
  by_cases hs : s = service
  · rw [if_pos hs, if_pos hs, hs, hv]
  · rw [if_neg hs, if_neg hs]

/-- A change of rows by id, seen by tag. -/
theorem Sets.of_rowMask {service i : Nat} {u : Nat → Nat → Bool → Bool}
    {v : Nat → Tag → Bool → Bool} {db' : Db} (hfiles : db'.files = db.files)
    (htags : db'.tags = db.tags) (hmapping : db'.MappingTags)
    (hrow : ∀ f t s, db'.rowMask (f, t, s) =
      if s = service then
        setFlag (db.rowMask (f, t, s)) i (u f t ((db.rowMask (f, t, s)).getLsbD i))
      else db.rowMask (f, t, s))
    (hothers : ∀ f t s, s ≠ service →
      db'.mappings.lookup (f, t, s) = db.mappings.lookup (f, t, s))
    (hsome : ∀ f tag id b, db.tags.idOf tag = some id → u f id b = v f tag b)
    (hnone : ∀ f tag, db.tags.idOf tag = none → v f tag false = false) :
    Sets service i v db db' := by
  refine ⟨hfiles, hmapping, fun tag id hid => by rw [htags]; exact hid, ?_, hothers⟩
  intro f tag s
  rw [Db.mask, Db.mask, htags]
  cases hid : db.tags.idOf tag with
  | none => simp [hnone f tag hid, setFlag]
  | some id =>
    rw [Option.map_some, Option.getD_some, Option.map_some, Option.getD_some, hrow,
      hsome f tag id _ hid]

/-- Clear the flag of some rows of the service. -/
theorem sets_retract (service : Nat) {i : Nat} {p : Nat × Nat × Nat → MappingRow → Bool}
    {P : Nat → Nat → Bool} {Q : Nat → Tag → Bool} (h : db.MappingTags)
    (hp : ∀ f t s row, p (f, t, s) row = true → s = service ∧ P f t = true)
    (hflag : ∀ f t row, P f t = true → row.domains.getLsbD i = true →
      p (f, t, service) row = true)
    (hQ : ∀ f tag id, db.tags.idOf tag = some id → Q f tag = P f id) :
    Sets service i (fun f tag b => !Q f tag && b) db (db.retract (BitVec.twoPow 64 i) p) := by
  refine Sets.of_rowMask (u := fun f t b => !P f t && b) rfl rfl (h.retract _ _) ?_ ?_ ?_ ?_
  · intro f t s
    rw [rowMask_retract]
    by_cases hs : s = service
    · subst hs
      rw [if_pos rfl]
      cases hP : P f t with
      | false =>
        rw [if_neg]
        · simp [setFlag_self]
        · intro hrow
          obtain ⟨row, _, hrow⟩ := hrow
          have := (hp f t s row hrow).2
          rw [hP] at this
          cases this
      | true =>
        cases hl : db.mappings.lookup (f, t, s) with
        | none => simp [rowMask, hl, setFlag]
        | some row =>
          by_cases hrow : p (f, t, s) row = true
          · simp [hrow]
          · have hoff : row.domains.getLsbD i = false := by
              cases hb : row.domains.getLsbD i with
              | false => rfl
              | true => exact absurd (hflag f t row hP hb) hrow
            have hself := setFlag_self row.domains i
            rw [hoff] at hself
            simp [rowMask, hl, hrow, hself]
    · rw [if_neg hs, if_neg]
      intro hrow
      obtain ⟨row, _, hrow⟩ := hrow
      exact hs (hp f t s row hrow).1
  · intro f t s hs
    refine (Table.lookup_modify _ _ _).trans ?_
    cases hl : db.mappings.lookup (f, t, s) with
    | none => rfl
    | some row => simp [show ¬ p (f, t, s) row = true from fun hrow => hs (hp f t s row hrow).1]
  · intro f tag id b hid
    rw [hQ f tag id hid]
  · intro f tag _
    simp

/-- Deleting rows without a domain changes no mask. -/
theorem sets_reap (service : Nat) {i : Nat} {p : Nat × Nat × Nat → MappingRow → Bool} (h : db.MappingTags)
    (hp : ∀ f t s row, p (f, t, s) row = true → s = service ∧ row.domains = 0) :
    Sets service i (fun _ _ b => b) db (db.deleteMappings p) := by
  refine Sets.of_rowMask (u := fun _ _ b => b) rfl rfl (h.deleteMappings _) ?_ ?_
    (fun _ _ _ _ _ => rfl) (fun _ _ _ => rfl)
  · intro f t s
    rw [setFlag_self, ite_self, rowMask_deleteMappings]
    split
    · rename_i hrow
      obtain ⟨row, hl, hrow⟩ := hrow
      rw [rowMask, hl, Option.map_some, Option.getD_some, (hp f t s row hrow).2]
    · rfl
  · intro f t s hs
    refine (Table.lookup_select _ _ _).trans ?_
    cases hl : db.mappings.lookup (f, t, s) with
    | none => rfl
    | some row =>
      simp [Option.filter, show ¬ p (f, t, s) row = true from fun hrow => hs (hp f t s row hrow).1]

/-- Set the flag of one row. -/
theorem sets_insertMapping (service : Nat) {i f t : Nat} {tag : Tag} (h : db.MappingTags)
    (ht : db.tags.idOf tag = some t) (row : MappingRow) {update : MappingRow → MappingRow}
    (hrow : row.domains = BitVec.twoPow 64 i)
    (hupdate : ∀ old, (update old).domains = old.domains ||| BitVec.twoPow 64 i) :
    Sets service i (fun f' tag' b => (f' = f ∧ tag' = tag : Bool) || b) db
      (db.insertMapping (f, t, service) row update) := by
  have hmem : (t, tag) ∈ db.tags.rows := IdTable.mem_of_idOf ht
  refine Sets.of_rowMask (u := fun f' t' b => (f' = f ∧ t' = t : Bool) || b) rfl rfl
    (h.insertMapping (IdTable.mem_ids_of_mem hmem) row update) ?_ ?_ ?_ ?_
  · intro f' t' s
    rw [rowMask_insertMapping db _ hrow hupdate]
    by_cases hk : f' = f ∧ t' = t
    · obtain ⟨rfl, rfl⟩ := hk
      simp
    · have hne : ¬ (f', t', s) = (f, t, service) := by
        intro heq
        cases heq
        exact hk ⟨rfl, rfl⟩
      simp [hne, hk, setFlag_self]
  · intro f' t' s hs
    refine Table.lookup_upsert_ne ?_
    intro heq
    cases heq
    exact hs rfl
  · intro f' tag' id b hid
    have hiff : id = t ↔ tag' = tag := by
      constructor
      · intro heq
        subst heq
        exact IdTable.mem_rows_unique (IdTable.mem_of_idOf hid) hmem
      · intro heq
        subst heq
        rw [ht] at hid
        exact (Option.some.inj hid).symm
    simp only [hiff]
  · intro f' tag' hid
    have hne : tag' ≠ tag := by
      intro heq
      rw [heq, ht] at hid
      cases hid
    simp [hne]

theorem sets_internTag (service : Nat) {i : Nat} (h : db.MappingTags) (tag : Tag) :
    Sets service i (fun _ _ b => b) db (db.internTag tag) := by
  refine ⟨rfl, h.internTag tag, fun _ _ hid => IdTable.idOf_intern_of_some hid, ?_,
    fun _ _ _ _ => rfl⟩
  intro f tag' s
  rw [setFlag_self, ite_self, mask_internTag h]

theorem sets_internOrigin (service : Nat) {i : Nat} (h : db.MappingTags) (origin : Option String) :
    Sets service i (fun _ _ b => b) db (db.internOrigin origin).1 := by
  obtain ⟨hmappings, htags, hfiles⟩ := internOrigin_frame db origin
  refine Sets.of_rowMask (u := fun _ _ b => b) hfiles htags ?_ ?_ ?_ (fun _ _ _ _ _ => rfl)
    (fun _ _ _ => rfl)
  · refine h.of_lookup htags ?_
    intro f t s row hl
    rw [hmappings] at hl
    exact h.mapping_tag f t s row hl
  · intro f t s
    rw [setFlag_self, ite_self, rowMask, rowMask, hmappings]
  · intro f t s _
    rw [hmappings]

/-- Asserting a tag sets the flag of its row. -/
theorem sets_assertTag {service i : Nat} (hi : i < 64) (h : db.MappingTags) {now : Int}
    {update : MappingRow → MappingRow}
    (hupdate : ∀ old, (update old).domains = old.domains ||| BitVec.twoPow 64 i) (f : Nat)
    (tag : Tag) (origin : Option String) :
    Sets service i (fun f' tag' b => (f' = f ∧ tag' = tag : Bool) || b) db
      (db.assertTag service (BitVec.twoPow 64 i) now update f tag origin) := by
  have hintern := sets_internTag service (i := i) h tag
  have horigin := sets_internOrigin service (i := i) hintern.tags origin
  have hid := horigin.ids tag _ (idOf_internTag tag)
  exact (hintern.trans hi horigin).trans hi
    (sets_insertMapping service horigin.tags hid ⟨.current, now, _, _⟩ rfl hupdate)

/-- A list of changes of one flag, seen through a projection of the state. -/
theorem Sets.foldl {σ α : Type} (proj : σ → Db) (stp : σ → α → σ) (inv : σ → Prop)
    {service i : Nat} (hi : i < 64) {v : α → Nat → Tag → Bool → Bool}
    (l : List α) (hstep : ∀ s, ∀ a ∈ l, inv s → (proj s).MappingTags →
      inv (stp s a) ∧ Sets service i (v a) (proj s) (proj (stp s a))) (s : σ) (hinv : inv s)
    (h : (proj s).MappingTags) :
    inv (l.foldl stp s) ∧
      Sets service i (fun f tag b => l.foldl (fun b a => v a f tag b) b) (proj s)
        (proj (l.foldl stp s)) := by
  induction l generalizing s with
  | nil => exact ⟨hinv, Sets.refl h⟩
  | cons a l ih =>
    obtain ⟨hinv', hfirst⟩ := hstep s a (by simp) hinv h
    obtain ⟨hinv'', hrest⟩ := ih (fun s b hb => hstep s b (List.mem_cons_of_mem _ hb)) (stp s a)
      hinv' hfirst.tags
    exact ⟨hinv'', hfirst.trans hi hrest⟩

/-! ## Rows without a domain -/

/-- Rows that no domain supplies are among these. -/
def ZerosIn (db : Db) (P : Nat × Nat × Nat → Prop) : Prop :=
  ∀ k row, db.mappings.lookup k = some row → row.domains = 0 → P k

theorem ZerosIn.retract {P : Nat × Nat × Nat → Prop} (h : db.ZerosIn P) {bit : BitVec 64}
    {p : Nat × Nat × Nat → MappingRow → Bool} (hp : ∀ k row, p k row = true → P k) :
    (db.retract bit p).ZerosIn P := by
  intro k row hl hzero
  obtain ⟨old, hold, heq⟩ := Option.map_eq_some_iff.1 ((Table.lookup_modify _ _ _).symm.trans hl)
  split at heq
  · rename_i hrow
    exact hp k old hrow
  · rw [heq] at hold
    exact h k row hold hzero

theorem ZerosIn.delete {P : Nat × Nat × Nat → Prop} (h : db.ZerosIn P)
    {p : Nat × Nat × Nat → MappingRow → Bool}
    (hp : ∀ k row, P k → row.domains = 0 → p k row = true) : (db.deleteMappings p).NoZero := by
  intro k row hl hzero
  obtain ⟨hold, hkeep⟩ := Option.filter_eq_some_iff.1 ((Table.lookup_select _ _ _).symm.trans hl)
  rw [hp k row (h k row hold hzero) hzero] at hkeep
  cases hkeep

theorem setFlag_true_ne_zero {i : Nat} (hi : i < 64) (m : BitVec 64) : setFlag m i true ≠ 0 := by
  intro hzero
  have hbit := getLsbD_setFlag m true hi (i := i)
  rw [hzero] at hbit
  simp at hbit

theorem ZerosIn.insertMapping {P : Nat × Nat × Nat → Prop} (h : db.ZerosIn P) {i : Nat} (hi : i < 64)
    {key : Nat × Nat × Nat} (row : MappingRow) {update : MappingRow → MappingRow}
    (hrow : row.domains = BitVec.twoPow 64 i)
    (hupdate : ∀ old, (update old).domains = old.domains ||| BitVec.twoPow 64 i) :
    (db.insertMapping key row update).ZerosIn P := by
  intro k row' hl hzero
  by_cases hk : k = key
  · have hmask := rowMask_insertMapping db key hrow hupdate k
    rw [if_pos hk, rowMask, hl, Option.map_some, Option.getD_some, hzero] at hmask
    exact absurd hmask.symm (setFlag_true_ne_zero hi _)
  · have hne : (db.insertMapping key row update).mappings.lookup k = db.mappings.lookup k :=
      Table.lookup_upsert_ne hk
    exact h k row' (hne.symm.trans hl) hzero

theorem ZerosIn.assertTag {P : Nat × Nat × Nat → Prop} (h : db.ZerosIn P) {i : Nat} (hi : i < 64)
    {service : Nat} {now : Int} {update : MappingRow → MappingRow}
    (hupdate : ∀ old, (update old).domains = old.domains ||| BitVec.twoPow 64 i) (f : Nat)
    (tag : Tag) (origin : Option String) :
    (db.assertTag service (BitVec.twoPow 64 i) now update f tag origin).ZerosIn P := by
  refine ZerosIn.insertMapping ?_ hi ⟨.current, now, _, _⟩ rfl hupdate
  intro k row hl
  rw [(internOrigin_frame _ origin).1] at hl
  exact h k row hl

end

end Db
end Naiad
