import Naiad.Bridge.Follow
import Naiad.Bridge.Sidecar

/-!
# Naiad.Bridge.SidecarSync

A pass of the sidecar over the updates the upstream has published: the definitions of an index in
one transaction, its mappings regrouped by hash and written in batches of hashes, the last of them
together with the cursor.

* `SidecarDb.applyAll`: the mapping rows applied one at a time in index, file and wire order.
* `sidecarSyncOnce`: the pass.
* `current_applyShas`: regrouped by hash the rows come to the same.
-/

namespace Naiad
namespace Bridge

open Lib Netproto Server

/-! ## One update index -/

def parseHashDef (row : Nat × String) : Except SidecarError (Nat × Hash) :=
  match Hash.parse row.2 with
  | none => .error (.malformedHash row.1 row.2)
  | some hash => .ok (row.1, hash)

/-- A tag in its parsed form; one that does not parse is dropped. -/
def parseTagDef (u : Unicode) (row : Nat × String) : Option (Nat × String) :=
  match Tag.parse u row.2 with
  | .error _ => none
  | .ok tag => some (row.1, tag.display)

def insertSidecarDefs (u : Unicode) (sc : SidecarDb) : Update → Except SidecarError SidecarDb
  | .content _ => .ok sc
  | .definitions d =>
    match d.hashes.mapM parseHashDef with
    | .error e => .error e
    | .ok rows =>
      .ok ((sc.insertDefsHashes rows).insertDefsTags (d.tags.filterMap (parseTagDef u)))

/-- `(sha256, service_tag_id, is_delete)` -/
abbrev WireRow := Hash × Nat × Bool

def sha256For (hashes : Nat → Option Hash) (id : Nat) : Except SidecarError Hash :=
  match hashes id with
  | none => .error (.unresolvedHashId id)
  | some sha => .ok sha

def gatherRow (hashes : Nat → Option Hash) (row : MappingUpdate) :
    Except SidecarError (List WireRow) := do
  let shas ← row.hashIds.mapM (sha256For hashes)
  return shas.map fun sha => (sha, row.tagId, decide (row.action = .delete))

/-- The mapping rows of an index in wire order. -/
def gather (hashes : Nat → Option Hash) (decoded : List Update) :
    Except SidecarError (List WireRow) := do
  let rows ← ((contents decoded).flatMap ContentUpdate.mappings).mapM (gatherRow hashes)
  return rows.flatten

/-- The hashes in the order in which they first occur. -/
def order (rows : List WireRow) : List Hash :=
  rows.foldl (fun order r => if r.1 ∈ order then order else order ++ [r.1]) []

/-- The mutations of one hash, in their order. -/
def muts (rows : List WireRow) (sha : Hash) : List (Nat × Bool) :=
  (rows.filter fun r => r.1 = sha).map Prod.snd

def applyShas (rows : List WireRow) (sc : SidecarDb) (shas : List Hash) : SidecarDb :=
  shas.foldl (fun sc sha => sc.applyMutations sha (muts rows sha)) sc

/-- Where there is a store to take them. -/
def applySidecarRelations (u : Unicode) (ts : Int) (relations : Option Signer)
    (tags : Nat → Option String) (decoded : List Update) : SidecarM Unit :=
  match relations with
  | none => pure ()
  | some bridge =>
    .write fun node =>
      match node.repo.applyBridgeRelations ts (buildRelationSubs u bridge tags decoded) with
      | .error e => .error (.store e)
      | .ok (db, _) => .ok ({ node with repo := db }, ())

section

variable (u : Unicode) (relations : Option Signer) (ts : Int) (src : UpdateSource)

def applyIndexBatched (batchHashes : Nat) (entry : MetadataEntry) : SidecarM Nat := do
  let decoded ← Prog.read fun _ => (entry.updateHashes.mapM src.fetchUpdate).mapError .upstream
  trySidecar fun sc => decoded.foldlM (insertSidecarDefs u) sc
  let sc ← Prog.read fun node => .ok node.sidecar
  let rows ← Prog.read fun _ => gather sc.defsHashes.lookup decoded
  let chunks := chunksFrom (max 1 batchHashes) [] (order rows)
  Prog.forEach (fun chunk => onSidecar fun sc => applyShas rows sc chunk) chunks.dropLast
  applySidecarRelations u ts relations sc.defsTags.lookup decoded
  -- the last batch and the cursor in one transaction, opened before the relations are applied
  onSidecar fun sc =>
    (applyShas rows sc (chunks.getLast?.getD [])).setNextUpdateIndex (entry.updateIndex + 1)
  return rows.length

/-- The entries in turn; the number of mappings applied. -/
def applySidecarEntries (batchHashes : Nat) : List MetadataEntry → SidecarM Nat
  | [] => return 0
  | entry :: entries => do
    let applied ← applyIndexBatched u relations ts src batchHashes entry
    let rest ← applySidecarEntries batchHashes entries
    return applied + rest

def sidecarSyncOnce (batchHashes : Nat) : SidecarM Nat := do
  let since ← Prog.read fun node => .ok node.sidecar.nextUpdateIndex
  let entries ← Prog.read fun _ => (src.metadata since).mapError .upstream
  applySidecarEntries u relations ts src batchHashes (pendingEntries since entries)

end

/-! ## The updates in sequence -/

namespace SidecarDb

/-- One row at a time. -/
def applyRows (sc : SidecarDb) (rows : List WireRow) : SidecarDb :=
  rows.foldl (fun sc r => sc.applyMutations r.1 [r.2]) sc

def applyEntry (u : Unicode) (h : History) (sc : SidecarDb) (entry : MetadataEntry) :
    Except SidecarError SidecarDb := do
  let decoded ← (entry.updateHashes.mapM h.content).mapError .upstream
  let sc ← decoded.foldlM (insertSidecarDefs u) sc
  let rows ← gather sc.defsHashes.lookup decoded
  return (sc.applyRows rows).setNextUpdateIndex (entry.updateIndex + 1)

def applyAll (u : Unicode) (h : History) (sc : SidecarDb) (entries : List MetadataEntry) :
    Except SidecarError SidecarDb :=
  entries.foldlM (applyEntry u h) sc

end SidecarDb

/-! ## Regrouping -/

def rowWrite (r : WireRow) : (Hash × Nat) × Bool := SidecarDb.pairWrite r.1 r.2

/-- The writes of hashes taken one after another. -/
def shaWrites (rows : List WireRow) (shas : List Hash) : List ((Hash × Nat) × Bool) :=
  shas.flatMap fun sha => (muts rows sha).map (SidecarDb.pairWrite sha)

theorem order_spec (rows : List WireRow) :
    (order rows).Nodup ∧ ∀ sha, sha ∈ order rows ↔ ∃ r ∈ rows, r.1 = sha := by
  have hgen : ∀ (rows : List WireRow) (seen : List Hash), seen.Nodup →
      (rows.foldl (fun order r => if r.1 ∈ order then order else order ++ [r.1]) seen).Nodup ∧
      ∀ sha, sha ∈ rows.foldl (fun order r => if r.1 ∈ order then order else order ++ [r.1]) seen ↔
        sha ∈ seen ∨ ∃ r ∈ rows, r.1 = sha := by
    intro rows
    induction rows with
    | nil => simp
    | cons r rows ih =>
      intro seen hseen
      rw [List.foldl_cons]
      by_cases hr : r.1 ∈ seen
      · rw [if_pos hr]
        obtain ⟨hnodup, hmem⟩ := ih seen hseen
        refine ⟨hnodup, ?_⟩
        intro sha
        rw [hmem]
        grind
      · rw [if_neg hr]
        obtain ⟨hnodup, hmem⟩ := ih (seen ++ [r.1]) (by
          rw [List.nodup_append]
          simp [hseen]
          grind)
        refine ⟨hnodup, ?_⟩
        intro sha
        rw [hmem]
        grind
  obtain ⟨hnodup, hmem⟩ := hgen rows [] List.nodup_nil
  refine ⟨hnodup, ?_⟩
  intro sha
  refine (hmem sha).trans ?_
  simp

/-- The writes of one pair, of all rows of the hashes. -/
theorem filter_shaWrites (rows : List WireRow) {shas : List Hash} (hnodup : shas.Nodup)
    (k : Hash × Nat) :
    ((shaWrites rows shas).filter fun w => w.1 = k) =
      if k.1 ∈ shas then (rows.map rowWrite).filter fun w => w.1 = k else [] := by
  have hone : ∀ sha, (((muts rows sha).map (SidecarDb.pairWrite sha)).filter fun w => w.1 = k) =
      if k.1 = sha then (rows.map rowWrite).filter fun w => w.1 = k else [] := by
    intro sha
    rw [muts, List.map_map, List.filter_map, List.filter_filter]
    by_cases hk : k.1 = sha
    · rw [if_pos hk, List.filter_map]
      have hfilter : (rows.filter fun r =>
          ((fun w => decide (w.1 = k)) ∘ SidecarDb.pairWrite sha ∘ Prod.snd) r &&
            decide (r.1 = sha)) =
          rows.filter ((fun w => decide (w.1 = k)) ∘ rowWrite) := by
        refine List.filter_congr ?_
        intro r _
        simp only [Function.comp_apply, rowWrite, SidecarDb.pairWrite, Prod.ext_iff, hk]
        grind
      rw [← hfilter]
      refine List.map_congr_left ?_
      intro r hr
      have hsha : r.1 = sha := by
        have := (List.mem_filter.1 hr).2
        grind
      simp [rowWrite, hsha]
    · rw [if_neg hk, List.map_eq_nil_iff, List.filter_eq_nil_iff]
      intro r _
      simp [SidecarDb.pairWrite, Prod.ext_iff, Ne.symm hk]
  induction shas with
  | nil => rfl
  | cons sha shas ih =>
    obtain ⟨hfresh, hnodup⟩ := List.nodup_cons.1 hnodup
    have hcons : shaWrites rows (sha :: shas) =
        (muts rows sha).map (SidecarDb.pairWrite sha) ++ shaWrites rows shas := rfl
    rw [hcons, List.filter_append, hone, ih hnodup]
    by_cases hk : k.1 = sha
    · simp [hk, hfresh]
    · simp [hk]

/-- Regrouped by hash the writes come to the same. -/
theorem writeAll_shaWrites (rows : List WireRow) (f : Hash × Nat → Option Bool) :
    writeAll f (shaWrites rows (order rows)) = writeAll f (rows.map rowWrite) := by
  obtain ⟨hnodup, hmem⟩ := order_spec rows
  apply writeAll_regroup
  intro k
  rw [filter_shaWrites rows hnodup]
  split
  · rfl
  · rename_i hk
    symm
    rw [List.filter_eq_nil_iff]
    intro w hw
    obtain ⟨r, hr, rfl⟩ := List.mem_map.1 hw
    have hne : r.1 ≠ k.1 := fun heq => hk ((hmem k.1).2 ⟨r, hr, heq⟩)
    simp [rowWrite, SidecarDb.pairWrite, Prod.ext_iff, hne]

theorem shaWrites_subset (rows : List WireRow) (shas : List Hash) :
    shaWrites rows shas ⊆ rows.map rowWrite := by
  intro w hw
  obtain ⟨sha, _, hw⟩ := List.mem_flatMap.1 hw
  obtain ⟨m, hm, rfl⟩ := List.mem_map.1 hw
  obtain ⟨r, hr, rfl⟩ := List.mem_map.1 hm
  obtain ⟨hrow, hsha⟩ := List.mem_filter.1 hr
  obtain rfl : r.1 = sha := of_decide_eq_true hsha
  exact List.mem_map_of_mem hrow

/-! ## What the statements leave alone -/

namespace SidecarDb

variable {sc : SidecarDb}

theorem current_applyShas (rows : List WireRow) (h : sc.Packed) (shas : List Hash) :
    (applyShas rows sc shas).Packed ∧
      (applyShas rows sc shas).current = writeAll sc.current (shaWrites rows shas) := by
  induction shas generalizing sc with
  | nil => exact ⟨h, rfl⟩
  | cons sha shas ih =>
    obtain ⟨hpacked, hcurrent⟩ := ih (h.applyMutations sha (muts rows sha))
    refine ⟨hpacked, hcurrent.trans ?_⟩
    rw [current_applyMutations h, ← writeAll_append]
    rfl

theorem current_applyRows (h : sc.Packed) (rows : List WireRow) :
    (sc.applyRows rows).Packed ∧
      (sc.applyRows rows).current = writeAll sc.current (rows.map rowWrite) := by
  induction rows generalizing sc with
  | nil => exact ⟨h, rfl⟩
  | cons r rows ih =>
    obtain ⟨hpacked, hcurrent⟩ := ih (h.applyMutations r.1 [r.2])
    refine ⟨hpacked, hcurrent.trans ?_⟩
    rw [current_applyMutations h]
    rfl

/-- Everything but the map. -/
structure SameDefs (sc sc' : SidecarDb) : Prop where
  defsHashes : sc'.defsHashes = sc.defsHashes
  defsTags : sc'.defsTags = sc.defsTags
  nextIndex : sc'.nextIndex = sc.nextIndex
  seedDefsDone : sc'.seedDefsDone = sc.seedDefsDone
  seedMergeDone : sc'.seedMergeDone = sc.seedMergeDone
  seedIdbandDone : sc'.seedIdbandDone = sc.seedIdbandDone

theorem SameDefs.refl (sc : SidecarDb) : SameDefs sc sc := ⟨rfl, rfl, rfl, rfl, rfl, rfl⟩

theorem SameDefs.trans {sc' sc'' : SidecarDb} (h : SameDefs sc sc') (h' : SameDefs sc' sc'') :
    SameDefs sc sc'' :=
  ⟨h'.1.trans h.1, h'.2.trans h.2, h'.3.trans h.3, h'.4.trans h.4, h'.5.trans h.5, h'.6.trans h.6⟩

theorem sameDefs_applyMutations (hash : Hash) (mutations : List (Nat × Bool)) :
    SameDefs sc (sc.applyMutations hash mutations) :=
  ⟨rfl, rfl, rfl, rfl, rfl, rfl⟩

theorem sameDefs_applyShas (rows : List WireRow) (sc : SidecarDb) (shas : List Hash) :
    SameDefs sc (applyShas rows sc shas) := by
  induction shas generalizing sc with
  | nil => exact .refl sc
  | cons sha shas ih => exact (sameDefs_applyMutations sha _).trans (ih _)

theorem sameDefs_applyRows (rows : List WireRow) (sc : SidecarDb) :
    SameDefs sc (sc.applyRows rows) := by
  induction rows generalizing sc with
  | nil => exact .refl sc
  | cons r rows ih => exact (sameDefs_applyMutations r.1 _).trans (ih _)

end SidecarDb

end Bridge
end Naiad
