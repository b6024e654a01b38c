import Naiad.Bridge.SidecarSeed

/-!
# Naiad.Bridge.Watermark

The update a seed resumes after, as the query computes it: the files of every index joined to their
processed rows, grouped by index, and the greatest index whose group passes.

* `recoverWatermark_query`: the query finds what `recoverWatermark` does.
* `recoverWatermark_greatest`: **it is the greatest index that is processed itself; those before it
  are processed too where no index was processed ahead of another**.
-/

namespace Naiad
namespace Bridge

namespace HydrusDb

variable (db : HydrusDb)

/-! ## The query -/

/-- The files left-joined to the processed rows: the index, and the row if there is one. -/
def joinedRows (updates : List (Nat × Nat)) : List (Nat × Option (Nat × Bool)) :=
  updates.flatMap fun u =>
    match db.updatesProcessed.filter fun p => p.1 = u.2 with
    | [] => [(u.1, none)]
    | p :: ps => (p :: ps).map fun row => (u.1, some row)

/-- `HAVING`: some row, none of them unprocessed, and no file without one. -/
def having (group : List (Option (Nat × Bool))) : Bool :=
  decide (0 < group.countP Option.isSome) &&
    decide (group.countP (fun p => p.any fun row => row.2 = false) = 0) &&
    decide (group.countP Option.isNone = 0)

def groupOf (updates : List (Nat × Nat)) (index : Nat) : List (Option (Nat × Bool)) :=
  ((db.joinedRows updates).filter fun row => row.1 = index).map Prod.snd

/-- `recover_watermark`. -/
def recoverWatermarkQuery : Option Nat :=
  match db.updates with
  | none => none
  | some updates =>
    (((db.joinedRows updates).map Prod.fst).dedup.filter fun index =>
      having (db.groupOf updates index)).max?

/-! ## What it finds -/

/-- The index has files. -/
def Listed (index : Nat) : Prop := ∃ file, (index, file) ∈ db.updates.getD []

/-- The file has processed rows, and all of them are processed. -/
def FileProcessed (file : Nat) : Prop :=
  (∃ processed, (file, processed) ∈ db.updatesProcessed) ∧
    ∀ processed, (file, processed) ∈ db.updatesProcessed → processed = true

/-- Every file of the index is processed. -/
def Processed (index : Nat) : Prop :=
  ∀ file, (index, file) ∈ db.updates.getD [] → db.FileProcessed file

variable {db}

theorem mem_joinedRows {updates : List (Nat × Nat)} {index : Nat} {row : Option (Nat × Bool)} :
    (index, row) ∈ db.joinedRows updates ↔ ∃ file, (index, file) ∈ updates ∧
      match row with
      | none => ∀ processed, (file, processed) ∉ db.updatesProcessed
      | some p => p.1 = file ∧ p ∈ db.updatesProcessed := by
  unfold joinedRows
  rw [List.mem_flatMap]
  constructor
  · intro ⟨⟨i, file⟩, hmem, hrow⟩
    simp only at hrow
    split at hrow
    · rename_i hnil
      cases List.mem_singleton.1 hrow
      refine ⟨file, hmem, ?_⟩
      intro processed hp
      have := List.filter_eq_nil_iff.1 hnil (file, processed) hp
      simp at this
    · rename_i p ps hcons
      obtain ⟨p', hp', heq⟩ := List.mem_map.1 hrow
      cases heq
      rw [← hcons, List.mem_filter, decide_eq_true_iff] at hp'
      exact ⟨file, hmem, hp'.2, hp'.1⟩
  · intro ⟨file, hmem, hrow⟩
    refine ⟨(index, file), hmem, ?_⟩
    simp only
    cases row with
    | none =>
      have hnil : (db.updatesProcessed.filter fun p => p.1 = file) = [] := by
        rw [List.filter_eq_nil_iff]
        intro p hp
        rw [decide_eq_true_iff]
        rintro rfl
        exact hrow p.2 hp
      rw [hnil]
      exact List.mem_singleton.2 rfl
    | some p =>
      have hp : p ∈ db.updatesProcessed.filter fun p => p.1 = file :=
        List.mem_filter.2 ⟨hrow.2, decide_eq_true hrow.1⟩
      split
      · rename_i hnil
        rw [hnil] at hp
        cases hp
      · rename_i hcons
        rw [hcons] at hp
        exact List.mem_map.2 ⟨p, hp, rfl⟩

/-- Every file brings its index a joined row. -/
theorem exists_joined {updates : List (Nat × Nat)} {index file : Nat}
    (h : (index, file) ∈ updates) : ∃ row, (index, row) ∈ db.joinedRows updates := by
  by_cases hfile : ∃ processed, (file, processed) ∈ db.updatesProcessed
  · obtain ⟨processed, hp⟩ := hfile
    exact ⟨some (file, processed), mem_joinedRows.2 ⟨file, h, rfl, hp⟩⟩
  · exact ⟨none, mem_joinedRows.2 ⟨file, h, not_exists.1 hfile⟩⟩

theorem mem_groupOf {updates : List (Nat × Nat)} {index : Nat} {row : Option (Nat × Bool)} :
    row ∈ db.groupOf updates index ↔ (index, row) ∈ db.joinedRows updates := by
  simp [groupOf]

theorem having_iff {group : List (Option (Nat × Bool))} :
    having group = true ↔ group ≠ [] ∧ ∀ row ∈ group, ∃ file, row = some (file, true) := by
  simp only [having, Bool.and_eq_true, decide_eq_true_iff, List.countP_pos_iff, List.countP_eq_zero]
  constructor
  · intro ⟨⟨hsome, hfalse⟩, hnone⟩
    obtain ⟨row, hrow, _⟩ := hsome
    refine ⟨List.ne_nil_of_mem hrow, ?_⟩
    intro row hrow
    cases row with
    | none => exact absurd rfl (hnone none hrow)
    | some p =>
      have hp : p.2 = true := by simpa using hfalse (some p) hrow
      exact ⟨p.1, by rw [← hp]⟩
  · intro ⟨hne, hall⟩
    obtain ⟨first, rest, rfl⟩ := List.exists_cons_of_ne_nil hne
    refine ⟨⟨⟨first, List.mem_cons_self, ?_⟩, ?_⟩, ?_⟩
    · obtain ⟨file, rfl⟩ := hall first List.mem_cons_self
      rfl
    · intro row hrow
      obtain ⟨file, rfl⟩ := hall row hrow
      simp
    · intro row hrow
      obtain ⟨file, rfl⟩ := hall row hrow
      simp

theorem listed_iff {updates : List (Nat × Nat)} (h : db.updates = some updates) {index : Nat} :
    db.Listed index ↔ index ∈ updates.map Prod.fst := by
  simp [Listed, h]

theorem having_groupOf {updates : List (Nat × Nat)} (h : db.updates = some updates) {index : Nat} :
    having (db.groupOf updates index) = true ↔ db.Listed index ∧ db.Processed index := by
  rw [having_iff]
  constructor
  · intro ⟨hne, hall⟩
    obtain ⟨row, hrow⟩ := List.exists_mem_of_ne_nil _ hne
    obtain ⟨file, hmem, _⟩ := mem_joinedRows.1 (mem_groupOf.1 hrow)
    refine ⟨⟨file, by rwa [h]⟩, ?_⟩
    intro file hfile
    rw [h] at hfile
    constructor
    · by_contra hnone
      obtain ⟨_, hrow⟩ := hall none (mem_groupOf.2
        (mem_joinedRows.2 ⟨file, hfile, not_exists.1 hnone⟩))
      cases hrow
    · intro processed hp
      obtain ⟨_, hrow⟩ := hall (some (file, processed)) (mem_groupOf.2
        (mem_joinedRows.2 ⟨file, hfile, rfl, hp⟩))
      cases hrow
      rfl
  · intro ⟨⟨file, hfile⟩, hall⟩
    rw [h] at hfile
    obtain ⟨row, hrow⟩ := exists_joined hfile
    refine ⟨List.ne_nil_of_mem (mem_groupOf.2 hrow), ?_⟩
    intro row hrow
    obtain ⟨file, hmem, hmatch⟩ := mem_joinedRows.1 (mem_groupOf.1 hrow)
    obtain ⟨⟨processed, hp⟩, htrue⟩ := hall file (by rwa [h])
    cases row with
    | none => exact absurd hp (hmatch processed)
    | some p =>
      obtain ⟨rfl, hrow⟩ := hmatch
      exact ⟨p.1, by rw [← htrue p.2 hrow]⟩

theorem fullyProcessed_iff {updates : List (Nat × Nat)} (h : db.updates = some updates)
    {index : Nat} :
    db.fullyProcessed updates index = true ↔ db.Listed index ∧ db.Processed index := by
  have hfiles : ∀ file, file ∈ (updates.filter fun r => r.1 = index).map Prod.snd ↔
      (index, file) ∈ updates := by
    intro file
    simp
  have hany : ∀ file, (db.updatesProcessed.any fun p => p.1 = file) = true ↔
      ∃ processed, (file, processed) ∈ db.updatesProcessed := by
    intro file
    simp only [List.any_eq_true, decide_eq_true_iff, Prod.exists]
    exact exists_comm.trans (by simp)
  have hall : ∀ file, (∀ p ∈ db.updatesProcessed, p.1 = file → p.2 = true) ↔
      ∀ processed, (file, processed) ∈ db.updatesProcessed → processed = true := by
    intro file
    constructor
    · intro h processed hp
      exact h _ hp rfl
    · rintro h ⟨_, processed⟩ hp rfl
      exact h processed hp
  unfold fullyProcessed
  simp only [Bool.and_eq_true, decide_eq_true_iff, List.all_eq_true, hfiles, hany, hall, Listed,
    Processed, FileProcessed, h, Option.getD_some]
  refine and_congr_left fun _ => ?_
  constructor
  · intro hne
    obtain ⟨file, hmem⟩ := List.exists_mem_of_ne_nil _ hne
    exact ⟨file, (hfiles file).1 hmem⟩
  · intro ⟨file, hmem⟩
    exact List.ne_nil_of_mem ((hfiles file).2 hmem)

/-! ## The watermark -/

/-- The greatest index that is listed and processed. -/
theorem recoverWatermark_eq_some {w : Nat} :
    db.recoverWatermark = some w ↔ (db.Listed w ∧ db.Processed w) ∧
      ∀ i, db.Listed i → db.Processed i → i ≤ w := by
  unfold recoverWatermark
  cases h : db.updates with
  | none => simp [Listed, h]
  | some updates =>
    simp only [List.max?_eq_some_iff, List.mem_filter, fullyProcessed_iff h, ← listed_iff h]
    refine and_congr ⟨And.right, fun hw => ⟨hw.1, hw⟩⟩ ?_
    exact ⟨fun hle i hi hp => hle i ⟨hi, hi, hp⟩, fun hle i hi => hle i hi.2.1 hi.2.2⟩

theorem recoverWatermark_eq_none :
    db.recoverWatermark = none ↔ ∀ i, db.Listed i → ¬db.Processed i := by
  unfold recoverWatermark
  cases h : db.updates with
  | none => simp [Listed, h]
  | some updates =>
    simp only [List.max?_eq_none_iff, List.filter_eq_nil_iff, fullyProcessed_iff h, ← listed_iff h]
    exact ⟨fun hno i hi hp => hno i hi ⟨hi, hp⟩, fun hno i hi hp => hno i hi hp.2⟩

variable (db)

theorem recoverWatermark_query : db.recoverWatermarkQuery = db.recoverWatermark := by
  unfold recoverWatermarkQuery recoverWatermark
  cases h : db.updates with
  | none => rfl
  | some updates =>
    have hmem : ∀ index, index ∈ ((db.joinedRows updates).map Prod.fst).dedup.filter (fun i =>
        having (db.groupOf updates i)) ↔
          index ∈ (updates.map Prod.fst).filter (db.fullyProcessed updates) := by
      intro index
      rw [List.mem_filter, List.mem_filter, having_groupOf h, fullyProcessed_iff h, List.mem_dedup,
        ← listed_iff h]
      refine and_congr_left fun hp => iff_of_true ?_ hp.1
      obtain ⟨file, hfile⟩ := hp.1
      rw [h] at hfile
      obtain ⟨row, hrow⟩ := exists_joined hfile
      exact List.mem_map.2 ⟨(index, row), hrow, rfl⟩
    refine Option.ext fun w => ?_
    simp only [List.max?_eq_some_iff, hmem]

/-- **`recover_watermark` finds the greatest listed index whose own files are all processed, and
none just in case there is none. No greater listed index has all those up to it processed, and where
no index was processed ahead of one before it the watermark has.** -/
theorem recoverWatermark_greatest :
    (∀ w, db.recoverWatermarkQuery = some w ↔ (db.Listed w ∧ db.Processed w) ∧
        ∀ i, db.Listed i → db.Processed i → i ≤ w) ∧
      (db.recoverWatermarkQuery = none ↔ ∀ i, db.Listed i → ¬db.Processed i) ∧
      (∀ i, db.Listed i → (∀ j, db.Listed j → j ≤ i → db.Processed j) →
        ∃ w, db.recoverWatermarkQuery = some w ∧ i ≤ w) ∧
      ((∀ i j, db.Listed i → db.Listed j → i ≤ j → db.Processed j → db.Processed i) →
        ∀ w, db.recoverWatermarkQuery = some w → ∀ i, db.Listed i → i ≤ w → db.Processed i) := by
  rw [recoverWatermark_query]
  refine ⟨fun _ => recoverWatermark_eq_some, recoverWatermark_eq_none, ?_, ?_⟩
  · intro i hi hall
    cases hw : db.recoverWatermark with
    | none => exact absurd (hall i hi (Nat.le_refl i)) (recoverWatermark_eq_none.1 hw i hi)
    | some w => exact ⟨w, rfl, (recoverWatermark_eq_some.1 hw).2 i hi (hall i hi (Nat.le_refl i))⟩
  · intro hordered w hw i hi hle
    obtain ⟨⟨hlisted, hprocessed⟩, _⟩ := recoverWatermark_eq_some.1 hw
    exact hordered i w hi hlisted hle hprocessed

/-- Update 1 is processed and update 0 is not. -/
def processedAhead : HydrusDb where
  hashes := ∅
  tags := ∅
  hashIdMap := []
  tagIdMap := []
  currentMappings := []
  updates := some [(0, 100), (1, 101)]
  updatesProcessed := [(100, false), (101, true)]

/-- The seed resumes after update 1, and nobody reads update 0. -/
theorem recoverWatermark_processedAhead :
    processedAhead.recoverWatermarkQuery = some 1 ∧ processedAhead.nextIndex = 2 ∧
      ¬∀ (db : HydrusDb) (w : Nat), db.recoverWatermarkQuery = some w →
        ∀ i, db.Listed i → i ≤ w → db.Processed i := by
  have hw : processedAhead.recoverWatermarkQuery = some 1 := by decide
  refine ⟨hw, by decide, ?_⟩
  intro h
  have hfile := h processedAhead 1 hw 0 ⟨100, by decide⟩ (by omega) 100 (by decide)
  exact absurd (hfile.2 false (by decide)) (by decide)

end HydrusDb

end Bridge
end Naiad
