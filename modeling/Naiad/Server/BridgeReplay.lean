import Naiad.Server.Relations

/-!
# Naiad.Server.BridgeReplay

An update index of the bridge that is applied again, as after a crash before its progress was noted.

* `bridgeRelation_cases`: a row restates what is stored and does nothing, or takes a new sequence
  number.
* `bridgeRelations_eq_iff`: rows leave a store as it is just when each restates what is stored.
* `applyBridgeRelations_replay_iff`: **which update indexes can be replayed**.
-/

namespace Naiad
namespace Server

open Lib Netproto

namespace RepoDb

/-- The store after the call: a transaction that fails is rolled back. -/
def bridged (db : RepoDb) (ts : Int) (rows : List RelationSubmission) : RepoDb :=
  match db.applyBridgeRelations ts rows with
  | .ok (db', _) => db'
  | .error _ => db

end RepoDb

section

variable {ts : Int} {acc acc' : RepoDb × Nat} {sub : RelationSubmission}
  {subs : List RelationSubmission}

theorem relationCursor_insert {t : Table RelationKey RelationRow} {k : RelationKey}
    {row : RelationRow} (h : Table.maxOf t RelationRow.seq < row.seq) :
    Table.maxOf t RelationRow.seq < Table.maxOf (t.insert k row) RelationRow.seq :=
  h.trans_le (Table.le_maxOf (AList.lookup_insert t))

/-- What one row does: nothing where its status is stored, else a change past the cursor. -/
theorem bridgeRelation_cases (h : RepoDb.bridgeRelation ts acc sub = .ok acc') :
    (acc.1.relationStatuses (.of sub) = some sub.op.status ∧ acc' = acc) ∨
      (acc.1.relationStatuses (.of sub) ≠ some sub.op.status ∧
        acc.1.relationCursor < acc'.1.relationCursor) := by
  unfold RepoDb.bridgeRelation at h
  cases hsig : hexDecode sub.signature with
  | none =>
    simp only [hsig] at h
    cases h
  | some signature =>
    simp only [hsig] at h
    generalize hwritten : (⟨sub.op.status, signature, ts, acc.1.relationCursor + 1⟩ :
      RelationRow) = written at h
    have hstatus : written.status = sub.op.status := by rw [← hwritten]
    cases h
    rcases Table.upsert_cases acc.1.relations (.of sub) written (mergeBridgeRelation written) with
      ⟨old, hold, hmerge, hup⟩ | ⟨new, hup, hnew⟩
    · left
      have hsame : old.status = written.status := by
        by_contra hne
        simp [mergeBridgeRelation, hne] at hmerge
      rw [hup]
      exact ⟨by simp [RepoDb.relationStatuses, hold, hsame, hstatus], rfl⟩
    · right
      have hrow : new = written ∧
          acc.1.relationStatuses (.of sub) ≠ some sub.op.status := by
        rcases hnew with ⟨hnone, rfl⟩ | ⟨old, hold, hmerge⟩
        · exact ⟨rfl, by simp [RepoDb.relationStatuses, hnone]⟩
        · unfold mergeBridgeRelation at hmerge
          split at hmerge
          · cases hmerge
          · rename_i hne
            cases hmerge
            exact ⟨rfl, by simpa [RepoDb.relationStatuses, hold, hstatus] using hne⟩
      rw [hup]
      refine ⟨hrow.2, relationCursor_insert ?_⟩
      rw [hrow.1, ← hwritten]
      exact Nat.lt_succ_self _

theorem bridgeRelations_cursor_le (h : RepoDb.bridgeRelations ts acc subs = .ok acc') :
    acc.1.relationCursor ≤ acc'.1.relationCursor := by
  induction subs generalizing acc with
  | nil =>
    cases h
    exact Nat.le_refl _
  | cons sub subs ih =>
    rw [RepoDb.bridgeRelations] at h
    split at h
    · cases h
    · rename_i acc₁ hsub
      have hrest := ih h
      rcases bridgeRelation_cases hsub with ⟨_, rfl⟩ | ⟨_, hlt⟩
      · exact hrest
      · omega

/-- Rows leave the store as it is just when each restates what is stored: one that does not takes a
sequence number, and the cursor never goes back. -/
theorem bridgeRelations_eq_iff (h : RepoDb.bridgeRelations ts acc subs = .ok acc') :
    acc'.1 = acc.1 ↔ ∀ sub ∈ subs, acc.1.relationStatuses (.of sub) = some sub.op.status := by
  induction subs generalizing acc with
  | nil =>
    cases h
    simp
  | cons sub subs ih =>
    rw [RepoDb.bridgeRelations] at h
    split at h
    · cases h
    · rename_i acc₁ hsub
      rcases bridgeRelation_cases hsub with ⟨hsame, rfl⟩ | ⟨hother, hlt⟩
      · rw [ih h, List.forall_mem_cons]
        exact ⟨fun hall => ⟨hsame, hall⟩, fun hall => hall.2⟩
      · have hle := bridgeRelations_cursor_le h
        constructor
        · intro heq
          rw [heq] at hle
          omega
        · intro hall
          exact absurd (hall sub (by simp)) hother

/-- Whether a batch fails depends on its signatures alone. -/
theorem bridgeRelations_error_iff :
    (∃ e, RepoDb.bridgeRelations ts acc subs = .error e) ↔
      ∃ sub ∈ subs, hexDecode sub.signature = none := by
  induction subs generalizing acc with
  | nil => simp [RepoDb.bridgeRelations]
  | cons sub subs ih =>
    rw [RepoDb.bridgeRelations, RepoDb.bridgeRelation]
    cases hsig : hexDecode sub.signature with
    | none => simp [hsig]
    | some signature => simpa [hsig] using ih

end

/-- All rows of an edge do the same. -/
def OneOp (rows : List RelationSubmission) : Prop :=
  ∀ sub ∈ rows, ∀ sub' ∈ rows, RelationKey.of sub = RelationKey.of sub' → sub.op = sub'.op

/-- Each row is restated by what all rows leave just when no edge is both added and removed. -/
theorem writeAll_restates_iff {rows : List RelationSubmission}
    {f : RelationKey → Option MappingStatus} :
    (∀ sub ∈ rows, writeAll f (rows.map relationWrite) (.of sub) = some sub.op.status) ↔
      OneOp rows := by
  constructor
  · intro h sub hsub sub' hsub' hkey
    have hstatus := (h sub hsub).symm.trans (hkey ▸ h sub' hsub')
    cases hop : sub.op <;> cases hop' : sub'.op <;> simp [hop, hop', Op.status] at hstatus ⊢
  · intro h sub hsub
    cases hlast : lastWrite (rows.map relationWrite) (.of sub) with
    | none =>
      exact absurd rfl (lastWrite_eq_none.1 hlast _ (List.mem_map_of_mem hsub))
    | some status =>
      obtain ⟨sub', hsub', hwrite⟩ := List.mem_map.1 (mem_of_lastWrite hlast)
      obtain ⟨hkey, hstatus⟩ := Prod.mk.inj hwrite
      rw [writeAll_of_lastWrite hlast, ← hstatus, h sub hsub sub' hsub' hkey.symm]

theorem ensureAccount_again (s : RepoStore) (pubkey : String) (ts ts' : Int) :
    (s.ensureAccount pubkey ts).ensureAccount pubkey ts' = s.ensureAccount pubkey ts := by
  have hmem : pubkey ∈ (s.ensureAccount pubkey ts).accounts := by
    unfold RepoStore.ensureAccount
    split
    · assumption
    · simp [AList.mem_insert]
  rw [RepoStore.ensureAccount, if_pos hmem]

/-- **Update indexes that can be replayed.** In any store, applying the rows once more changes
nothing just when the rows are refused for a signature that is no hex, or no edge is both added and
removed by them. -/
theorem applyBridgeRelations_replay_iff (db : RepoDb) (ts ts' : Int)
    (rows : List RelationSubmission) :
    (db.bridged ts rows).bridged ts' rows = db.bridged ts rows ↔
      (∃ sub ∈ rows, hexDecode sub.signature = none) ∨ OneOp rows := by
  cases rows with
  | nil => simp [RepoDb.bridged, RepoDb.applyBridgeRelations, OneOp]
  | cons row rows =>
    by_cases hbad : ∃ sub ∈ row :: rows, hexDecode sub.signature = none
    · have hfail : ∀ (db : RepoDb) (ts : Int), db.bridged ts (row :: rows) = db := by
        intro db ts
        obtain ⟨e, he⟩ := bridgeRelations_error_iff.2 hbad
        rw [RepoDb.bridged, RepoDb.applyBridgeRelations, he]
      rw [hfail, hfail]
      exact iff_of_true rfl (.inl hbad)
    · have hok : ∀ (ts : Int) (acc : RepoDb × Nat),
          ∃ acc', RepoDb.bridgeRelations ts acc (row :: rows) = .ok acc' := by
        intro ts acc
        cases hrun : RepoDb.bridgeRelations ts acc (row :: rows) with
        | error e => exact absurd (bridgeRelations_error_iff.1 ⟨e, hrun⟩) hbad
        | ok acc' => exact ⟨acc', rfl⟩
      obtain ⟨first, hfirst⟩ :=
        hok ts ({ db with toRepoStore := db.ensureAccount row.author ts }, 0)
      obtain ⟨hrepo, hstatuses⟩ := bridgeRelations_ok hfirst
      -- the account is there, so the second application starts from the store as it is
      have hstore : first.1.toRepoStore = db.ensureAccount row.author ts := hrepo
      have hagain : first.1.ensureAccount row.author ts' = first.1.toRepoStore := by
        rw [hstore, ensureAccount_again]
      have haccount : ({ first.1 with toRepoStore := first.1.ensureAccount row.author ts' } :
          RepoDb) = first.1 := by
        rw [hagain]
      obtain ⟨second, hsecond⟩ := hok ts' (first.1, 0)
      have hone : db.bridged ts (row :: rows) = first.1 := by
        rw [RepoDb.bridged, RepoDb.applyBridgeRelations, hfirst]
      have htwo : first.1.bridged ts' (row :: rows) = second.1 := by
        rw [RepoDb.bridged, RepoDb.applyBridgeRelations, haccount, hsecond]
      rw [hone, htwo, bridgeRelations_eq_iff hsecond, hstatuses, writeAll_restates_iff,
        or_iff_right hbad]

/-- An edge added and removed by one index, as the bridge's author. -/
def addedAndRemoved : List RelationSubmission :=
  let sub := fun op => (⟨8, op, .sibling, "t:a", "t:b", "bridge", "00", none⟩ : RelationSubmission)
  [sub .add, sub .remove]

/-- Applied again, both rows change the edge once more and its sequence number moves on. -/
theorem applyBridgeRelations_churns :
    ((RepoDb.empty.bridged 5 addedAndRemoved).relations.lookup
        ⟨.sibling, "t:a", "t:b", "bridge"⟩).map (·.seq) = some 2 ∧
      (((RepoDb.empty.bridged 5 addedAndRemoved).bridged 5 addedAndRemoved).relations.lookup
        ⟨.sibling, "t:a", "t:b", "bridge"⟩).map (·.seq) = some 4 := by
  decide +kernel

end Server
end Naiad
