import Mathlib.Data.Finset.Max
import Naiad.Lib.DeltaLog
import Naiad.Lib.Run
import Naiad.Server.Relations

/-!
# Naiad.Server.RelationSync

Runs over the relation table: what the signed submissions of a row come to in any order, and a
client that holds every author's row and replays the rows past its cursor.

* `verdict_run`: what the accepted submissions make of a row, in any order.
* `advances_act`: every change takes a sequence number past the cursor.
* `mem_edgesOf`: the listing has an edge for the authors that hold it current, under the least of
  them.
* `relations_converge`: order independence, and the replay from any cursor.
-/

namespace Naiad
namespace Server

open Lib Netproto

/-- What a run does, as far as the relations can tell. -/
inductive RelationAction
  | submit (ts : Int) (sub : RelationSubmission)
  | bridge (ts : Int) (rows : List RelationSubmission)
  | other (s : RepoStore)

namespace RepoDb

/-- A failed write of the bridge leaves the tables as they were. -/
def act (db : RepoDb) : RelationAction → RepoDb
  | .submit ts sub => (db.applyRelation ts sub).1
  | .bridge ts rows =>
    match db.applyBridgeRelations ts rows with
    | .ok out => out.1
    | .error _ => db
  | .other s => { db with toRepoStore := s }

/-- The submissions an action finds accepted. -/
def acceptedBy (db : RepoDb) : RelationAction → List RelationSubmission
  | .submit ts sub =>
    match (db.applyRelation ts sub).2 with
    | .ok _ => [sub]
    | .error _ => []
  | _ => []

def accepted : RepoDb → List RelationAction → List RelationSubmission
  | _, [] => []
  | db, a :: as => db.acceptedBy a ++ accepted (db.act a) as

end RepoDb

def RelationAction.Bridges (k : RelationKey) : RelationAction → Prop
  | .bridge _ rows => ∃ row ∈ rows, RelationKey.of row = k
  | _ => False

/-! ## One row -/

/-- What a submission makes of a row: a removal dominates. -/
def absorb (old : Option MappingStatus) (new : MappingStatus) : Option MappingStatus :=
  if old = some .deleted ∨ new = .deleted then some .deleted else some .current

/-- The status submissions give a row. -/
def verdict (old : Option MappingStatus) (subs : List RelationSubmission) (k : RelationKey) :
    Option MappingStatus :=
  (subs.filter fun sub => RelationKey.of sub = k).foldl (fun st sub => absorb st sub.op.status) old

theorem absorb_comm (old : Option MappingStatus) (a b : MappingStatus) :
    absorb (absorb old a) b = absorb (absorb old b) a := by
  cases a <;> cases b <;> simp [absorb]

theorem verdict_append (old : Option MappingStatus) (as bs : List RelationSubmission)
    (k : RelationKey) : verdict old (as ++ bs) k = verdict (verdict old as k) bs k := by
  simp [verdict]

theorem verdict_perm {subs subs' : List RelationSubmission} (h : subs.Perm subs')
    (old : Option MappingStatus) (k : RelationKey) : verdict old subs k = verdict old subs' k :=
  (h.filter _).foldl_eq' (fun _ _ _ _ st => absorb_comm st _ _) old

theorem verdict_cons (old : Option MappingStatus) (sub : RelationSubmission)
    (subs : List RelationSubmission) (k : RelationKey) :
    verdict old (sub :: subs) k =
      verdict (if RelationKey.of sub = k then absorb old sub.op.status else old) subs k := by
  by_cases hk : RelationKey.of sub = k
  · simp [verdict, hk]
  · simp [verdict, hk]

/-- A row ends removed just in case it was, or some submission removes it. -/
theorem verdict_deleted {old : Option MappingStatus} {subs : List RelationSubmission}
    {k : RelationKey} : verdict old subs k = some .deleted ↔
      old = some .deleted ∨ ∃ sub ∈ subs, RelationKey.of sub = k ∧ sub.op = .remove := by
  induction subs generalizing old with
  | nil => simp [verdict]
  | cons sub subs ih =>
    rw [verdict_cons, ih]
    by_cases hk : RelationKey.of sub = k
    · cases hop : sub.op with
      | add => simp [hk, hop, absorb, Op.status]
      | remove => simp [hk, hop, absorb, Op.status]
    · simp [hk]

theorem verdict_none {old : Option MappingStatus} {subs : List RelationSubmission}
    {k : RelationKey} : verdict old subs k = none ↔
      old = none ∧ ∀ sub ∈ subs, RelationKey.of sub ≠ k := by
  induction subs generalizing old with
  | nil => simp [verdict]
  | cons sub subs ih =>
    rw [verdict_cons, ih]
    by_cases hk : RelationKey.of sub = k
    · have habs : absorb old sub.op.status ≠ none := by
        unfold absorb
        split <;> simp
      simp [hk, habs]
    · simp [hk]

theorem mergeRelation_seq (new old r : RelationRow) (h : mergeRelation new old = some r) :
    r.seq = new.seq := by
  cases h
  rfl

theorem mergeBridgeRelation_seq (new old r : RelationRow)
    (h : mergeBridgeRelation new old = some r) : r.seq = new.seq := by
  unfold mergeBridgeRelation at h
  split at h
  · cases h
  · cases h
    rfl

namespace RepoDb

theorem relationStatuses_upsert (db : RepoDb) (k : RelationKey) (new : RelationRow) :
    ({ db with relations := (Table.upsert db.relations k new (mergeRelation new)).1 } :
        RepoDb).relationStatuses =
      fun k' => if k' = k then absorb (db.relationStatuses k) new.status
        else db.relationStatuses k' := by
  funext k'
  by_cases hk : k' = k
  · subst hk
    rw [if_pos rfl]
    rcases Table.upsert_cases db.relations k' new (mergeRelation new) with
      ⟨old, _, hm, _⟩ | ⟨r, hu, hr⟩
    · cases hm
    · simp only [relationStatuses, hu, AList.lookup_insert, Option.map_some]
      rcases hr with ⟨hnone, rfl⟩ | ⟨old, hold, hm⟩
      · cases hst : r.status <;> simp [hnone, absorb]
      · cases hm
        by_cases hdel : old.status = .deleted ∨ new.status = .deleted
        · simp [hold, absorb, hdel]
        · simp [hold, absorb, hdel]
  · simp only [relationStatuses, Table.lookup_upsert_ne hk, if_neg hk]

/-- A submission is refused before it touches a relation, or it changes its own row. -/
theorem applyRelation_cases (db : RepoDb) (ts : Int) (sub : RelationSubmission) :
    ((∃ e, (db.applyRelation ts sub).2 = .error e) ∧
        (db.applyRelation ts sub).1.relations = db.relations) ∨
      (db.applyRelation ts sub).2 = .ok () ∧ ∃ signature,
        (db.applyRelation ts sub).1.relations = (Table.upsert db.relations (.of sub)
          ⟨sub.op.status, signature, ts, db.relationCursor + 1⟩
          (mergeRelation ⟨sub.op.status, signature, ts, db.relationCursor + 1⟩)).1 := by
  unfold applyRelation
  simp only
  split
  · exact .inl ⟨⟨_, rfl⟩, rfl⟩
  · split
    · exact .inl ⟨⟨_, rfl⟩, rfl⟩
    · exact .inr ⟨rfl, _, rfl⟩

theorem relationStatuses_act (db : RepoDb) (a : RelationAction) {k : RelationKey}
    (hb : ¬ a.Bridges k) :
    (db.act a).relationStatuses k = verdict (db.relationStatuses k) (db.acceptedBy a) k := by
  cases a with
  | submit ts sub =>
    rcases db.applyRelation_cases ts sub with ⟨⟨e, he⟩, hrel⟩ | ⟨hok, signature, hrel⟩
    · simp only [act, acceptedBy, he]
      simp [relationStatuses, hrel, verdict]
    · simp only [act, acceptedBy, hok]
      have hst := congrFun (db.relationStatuses_upsert (.of sub)
        ⟨sub.op.status, signature, ts, db.relationCursor + 1⟩) k
      rw [verdict_cons]
      simp only [relationStatuses, hrel]
      refine hst.trans ?_
      by_cases hk : RelationKey.of sub = k
      · subst hk
        simp [verdict, relationStatuses]
      · simp [verdict, hk, Ne.symm hk, relationStatuses]
  | bridge ts rows =>
    simp only [act, acceptedBy]
    split
    · rename_i out hok
      obtain ⟨db', n⟩ := out
      rw [(relationStatuses_applyBridgeRelations hok).2, writeAll_of_not_written]
      · rfl
      · rw [lastWrite_eq_none]
        intro w hw hk
        obtain ⟨row, hrow, rfl⟩ := List.mem_map.1 hw
        exact hb ⟨row, hrow, hk⟩
    · rfl
  | other s => rfl

/-- What the accepted submissions of a run make of a row the bridge does not write. -/
theorem verdict_run (db : RepoDb) {acts : List RelationAction} {k : RelationKey}
    (hb : ∀ a ∈ acts, ¬ a.Bridges k) :
    (run act db acts).relationStatuses k =
      verdict (db.relationStatuses k) (db.accepted acts) k := by
  induction acts generalizing db with
  | nil => rfl
  | cons a acts ih =>
    rw [run_cons, ih _ fun b hb' => hb b (List.mem_cons_of_mem _ hb'),
      db.relationStatuses_act a (hb a (by simp)), accepted, verdict_append]

/-! ## The sequence numbers -/

def relationLog (db : RepoDb) : Log RelationKey MappingStatus := fun k =>
  (db.relations.lookup k).map fun r => (r.status, r.seq)

theorem relationLog_eq_some {db : RepoDb} {k : RelationKey} {st : MappingStatus} {n : Nat} :
    db.relationLog k = some (st, n) ↔
      ∃ r, db.relations.lookup k = some r ∧ r.status = st ∧ r.seq = n := by
  simp [relationLog, Option.map_eq_some_iff]

theorem relationLog_bounded (db : RepoDb) : Bounded db.relationLog db.relationCursor := by
  intro k st n hlog
  obtain ⟨r, hr, _, rfl⟩ := relationLog_eq_some.1 hlog
  exact Table.le_maxOf hr

/-- An upsert under the number past the cursor. -/
theorem advances_upsert {db db' : RepoDb} {k : RelationKey} {new : RelationRow}
    {merge : RelationRow → Option RelationRow}
    (hmerge : ∀ old r, merge old = some r → r.seq = new.seq)
    (hseq : new.seq = db.relationCursor + 1)
    (h : db'.relations = (Table.upsert db.relations k new merge).1) :
    Advances db.relationCursor db.relationLog db'.relationLog ∧
      db.relationCursor ≤ db'.relationCursor := by
  rcases Table.upsert_cases db.relations k new merge with ⟨old, _, _, hu⟩ | ⟨r, hu, hr⟩
  · rw [hu] at h
    have hlog : db'.relationLog = db.relationLog := by
      funext k
      simp only [relationLog, h]
    rw [hlog, relationCursor, relationCursor, h]
    exact ⟨.refl _ _, le_refl _⟩
  · rw [hu] at h
    have hrs : r.seq = db.relationCursor + 1 := by
      rcases hr with ⟨_, rfl⟩ | ⟨old, _, hm⟩
      · exact hseq
      · rw [hmerge old r hm, hseq]
    have hrow : db'.relations.lookup k = some r := by
      rw [h, AList.lookup_insert]
    refine ⟨fun k' => ?_, ?_⟩
    · by_cases hk : k' = k
      · subst hk
        exact .inr ⟨r.status, r.seq, relationLog_eq_some.2 ⟨r, hrow, rfl, rfl⟩, by omega⟩
      · left
        simp only [relationLog, h, AList.lookup_insert_ne hk]
    · have hle : r.seq ≤ db'.relationCursor := Table.le_maxOf hrow
      omega

theorem advances_bridgeRelations {ts : Int} {rows : List RelationSubmission}
    {acc acc' : RepoDb × Nat} (h : bridgeRelations ts acc rows = .ok acc') :
    Advances acc.1.relationCursor acc.1.relationLog acc'.1.relationLog ∧
      acc.1.relationCursor ≤ acc'.1.relationCursor := by
  induction rows generalizing acc with
  | nil =>
    cases h
    exact ⟨.refl _ _, le_refl _⟩
  | cons row rows ih =>
    rw [bridgeRelations] at h
    split at h
    · cases h
    · rename_i acc₁ hrow
      obtain ⟨hadv₂, hcur₂⟩ := ih h
      unfold bridgeRelation at hrow
      split at hrow
      · cases hrow
      · rename_i signature _
        let new : RelationRow := ⟨row.op.status, signature, ts, acc.1.relationCursor + 1⟩
        have hrel : acc₁.1.relations =
            (Table.upsert acc.1.relations (.of row) new (mergeBridgeRelation new)).1 := by
          cases hrow
          rfl
        obtain ⟨hadv₁, hcur₁⟩ := advances_upsert (mergeBridgeRelation_seq new) rfl hrel
        exact ⟨hadv₁.trans (hadv₂.mono hcur₁), hcur₁.trans hcur₂⟩

/-- Every change of a relation takes a sequence number past the cursor. -/
theorem advances_act (db : RepoDb) (a : RelationAction) :
    Advances db.relationCursor db.relationLog (db.act a).relationLog ∧
      db.relationCursor ≤ (db.act a).relationCursor := by
  cases a with
  | submit ts sub =>
    rcases db.applyRelation_cases ts sub with ⟨_, hrel⟩ | ⟨_, signature, hrel⟩
    · simp only [act]
      have hlog : (db.applyRelation ts sub).1.relationLog = db.relationLog := by
        funext k
        simp only [relationLog, hrel]
      rw [hlog, relationCursor, relationCursor, hrel]
      exact ⟨.refl _ _, le_refl _⟩
    · exact advances_upsert (mergeRelation_seq _) rfl hrel
  | bridge ts rows =>
    simp only [act]
    split
    · rename_i out hok
      cases rows with
      | nil =>
        cases hok
        exact ⟨.refl _ _, le_refl _⟩
      | cons row rows => exact advances_bridgeRelations hok
    · exact ⟨.refl _ _, le_refl _⟩
  | other s => exact ⟨.refl _ _, le_refl _⟩

theorem advances_run (db : RepoDb) (acts : List RelationAction) :
    Advances db.relationCursor db.relationLog (run act db acts).relationLog ∧
      db.relationCursor ≤ (run act db acts).relationCursor := by
  induction acts generalizing db with
  | nil => exact ⟨.refl _ _, le_refl _⟩
  | cons a acts ih =>
    obtain ⟨h₁, hc₁⟩ := db.advances_act a
    obtain ⟨h₂, hc₂⟩ := ih (db.act a)
    exact ⟨h₁.trans (h₂.mono hc₁), hc₁.trans hc₂⟩

/-! ## The reads -/

/-- The rows some author holds current. -/
def currentRows (db : RepoDb) : Finset RelationKey :=
  ((db.relations.entries.filter fun e => e.2.status = .current).map fun e => e.1).toFinset

theorem mem_currentRows {db : RepoDb} {k : RelationKey} :
    k ∈ db.currentRows ↔ ∃ r, db.relations.lookup k = some r ∧ r.status = .current := by
  simp only [currentRows, List.mem_toFinset, List.mem_map, List.mem_filter, decide_eq_true_eq]
  constructor
  · rintro ⟨⟨k', r⟩, ⟨he, hst⟩, rfl⟩
    exact ⟨r, Table.mem_entries.1 he, hst⟩
  · rintro ⟨r, hl, hst⟩
    exact ⟨⟨k, r⟩, ⟨Table.mem_entries.2 hl, hst⟩, rfl⟩

theorem mem_edgesSince {db : RepoDb} {since : Nat} {e : DeltaEdge} :
    e ∈ db.edgesSince since ↔ since < e.seq ∧ ∃ r,
      db.relations.lookup ⟨e.kind, e.fromTag, e.toTag, e.author⟩ = some r ∧
        r.status = e.status ∧ r.seq = e.seq := by
  rw [edgesSince, mem_orderBy, List.mem_filterMap]
  constructor
  · rintro ⟨⟨k, r⟩, hmem, he⟩
    split at he
    · rename_i hlt
      cases he
      exact ⟨hlt, r, Table.mem_entries.1 hmem, rfl, rfl⟩
    · cases he
  · rintro ⟨hlt, r, hl, hst, hseq⟩
    refine ⟨⟨_, r⟩, Table.mem_entries.2 hl, ?_⟩
    simp [hst, hseq, hlt]

/-- The current rows of a kind, edge and author. -/
theorem mem_currentOf {db : RepoDb} {kind : RelKind} {fromTag toTag author : String} :
    (∃ r, (⟨⟨kind, fromTag, toTag, author⟩, r⟩ : Sigma fun _ : RelationKey => RelationRow) ∈
      db.relations.entries.filter fun e => e.1.kind = kind ∧ e.2.status = .current) ↔
      ⟨kind, fromTag, toTag, author⟩ ∈ db.currentRows := by
  rw [mem_currentRows]
  simp only [List.mem_filter, true_and, decide_eq_true_eq, Table.mem_entries]

/-- An edge is listed under the least author who holds it current. -/
theorem mem_edgesOf {db : RepoDb} {kind : RelKind} {fromTag toTag author : String} :
    (⟨fromTag, toTag, author⟩ : AuthoredEdge) ∈ db.edgesOf kind ↔
      IsLeast {a | ⟨kind, fromTag, toTag, a⟩ ∈ db.currentRows} author := by
  let current := db.relations.entries.filter fun e => e.1.kind = kind ∧ e.2.status = .current
  have hkind : ∀ e ∈ current, e.1.kind = kind := by
    intro e he
    have := List.of_mem_filter he
    simp only [decide_eq_true_eq] at this
    exact this.1
  have hauthor : ∀ a, a ∈ ((current.filter fun e =>
      (e.1.fromTag, e.1.toTag) = (fromTag, toTag)).map fun e => e.1.author) ↔
        ⟨kind, fromTag, toTag, a⟩ ∈ db.currentRows := by
    intro a
    rw [← mem_currentOf]
    constructor
    · intro h
      obtain ⟨⟨⟨k, f, t, a'⟩, r⟩, he, rfl⟩ := List.mem_map.1 h
      obtain ⟨hcur, hp⟩ := List.mem_filter.1 he
      have hk : k = kind := hkind _ hcur
      simp only [Prod.mk.injEq, decide_eq_true_eq] at hp
      obtain ⟨rfl, rfl⟩ := hp
      subst hk
      exact ⟨r, hcur⟩
    · rintro ⟨r, hcur⟩
      exact List.mem_map.2 ⟨_, List.mem_filter.2 ⟨hcur, by simp⟩, rfl⟩
  have hleast : ((current.filter fun e =>
      (e.1.fromTag, e.1.toTag) = (fromTag, toTag)).map fun e => e.1.author).min? = some author ↔
        IsLeast {a | ⟨kind, fromTag, toTag, a⟩ ∈ db.currentRows} author := by
    rw [List.min?_eq_some_iff]
    simp only [hauthor]
    rfl
  rw [← hleast, edgesOf, mem_orderBy, List.mem_filterMap]
  constructor
  · rintro ⟨p, _, hp⟩
    obtain ⟨a, hmin, he⟩ := Option.map_eq_some_iff.1 hp
    cases he
    exact hmin
  · intro hmin
    refine ⟨(fromTag, toTag), List.mem_dedup.2 ?_, by rw [hmin]; rfl⟩
    obtain ⟨e, he, _⟩ := List.mem_map.1 (List.min?_mem hmin)
    obtain ⟨hcur, hp⟩ := List.mem_filter.1 he
    exact List.mem_map.2 ⟨e, hcur, by simpa using hp⟩

/-- An edge is listed while some author holds it current. -/
theorem exists_edgesOf {db : RepoDb} {kind : RelKind} {fromTag toTag : String} :
    (∃ author, (⟨fromTag, toTag, author⟩ : AuthoredEdge) ∈ db.edgesOf kind) ↔
      ∃ author, ⟨kind, fromTag, toTag, author⟩ ∈ db.currentRows := by
  constructor
  · rintro ⟨author, h⟩
    exact ⟨author, (mem_edgesOf.1 h).1⟩
  · rintro ⟨a, ha⟩
    obtain ⟨k, hk, hmin⟩ := Finset.exists_min_image
      (db.currentRows.filter fun k => k.kind = kind ∧ k.fromTag = fromTag ∧ k.toTag = toTag)
      RelationKey.author ⟨_, Finset.mem_filter.2 ⟨ha, rfl, rfl, rfl⟩⟩
    obtain ⟨hmem, rfl, rfl, rfl⟩ := Finset.mem_filter.1 hk
    exact ⟨k.author, mem_edgesOf.2
      ⟨hmem, fun b hb => hmin _ (Finset.mem_filter.2 ⟨hb, rfl, rfl, rfl⟩)⟩⟩

/-- No edge is listed twice. -/
theorem edgesOf_nodup (db : RepoDb) (kind : RelKind) :
    ((db.edgesOf kind).map fun e => (e.fromTag, e.toTag)).Nodup := by
  have hsub : ∀ (f : String × String → Option AuthoredEdge),
      (∀ p e, f p = some e → (e.fromTag, e.toTag) = p) → ∀ l : List (String × String),
        ((l.filterMap f).map fun e => (e.fromTag, e.toTag)).Sublist l := by
    intro f hf l
    induction l with
    | nil => exact .slnil
    | cons p l ih =>
      cases hp : f p with
      | none =>
        rw [List.filterMap_cons_none hp]
        exact ih.cons p
      | some e =>
        rw [List.filterMap_cons_some hp, List.map_cons, hf p e hp]
        exact ih.cons_cons p
  rw [edgesOf, ((perm_orderBy _ _).map _).nodup_iff]
  refine (List.nodup_dedup _).sublist (hsub _ (fun p e hp => ?_) _)
  obtain ⟨a, _, rfl⟩ := Option.map_eq_some_iff.1 hp
  rfl

end RepoDb

/-! ## The replica -/

/-- A row of a delta on a set of current rows. -/
def DeltaEdge.change (e : DeltaEdge) : RelationKey × Bool :=
  (⟨e.kind, e.fromTag, e.toTag, e.author⟩, e.status = .current)

def RelationGraph.edges (g : RelationGraph) : RelKind → List AuthoredEdge
  | .sibling => g.siblings
  | .parent => g.parents

namespace RepoDb

def Held (st : MappingStatus) : Prop := st = .current

theorem exact_currentRows (db : RepoDb) :
    Exact Held (fun _ => True) db.relationLog (· ∈ db.currentRows) := by
  intro k _
  refine mem_currentRows.trans ?_
  constructor
  · rintro ⟨r, hl, hst⟩
    exact ⟨r.status, r.seq, relationLog_eq_some.2 ⟨r, hl, rfl, rfl⟩, hst⟩
  · rintro ⟨st, n, hlog, hst⟩
    obtain ⟨r, hl, rfl, _⟩ := relationLog_eq_some.1 hlog
    exact ⟨r, hl, hst⟩

theorem mem_changesSince {db : RepoDb} {since : Nat} {k : RelationKey} {b : Bool} :
    (k, b) ∈ (db.edgesSince since).map DeltaEdge.change ↔ ∃ r, db.relations.lookup k = some r ∧
      since < r.seq ∧ decide (r.status = .current) = b := by
  rw [List.mem_map]
  constructor
  · rintro ⟨e, he, hch⟩
    obtain ⟨hlt, r, hl, hst, hseq⟩ := mem_edgesSince.1 he
    cases hch
    exact ⟨r, hl, by omega, by rw [hst]⟩
  · rintro ⟨r, hl, hlt, rfl⟩
    exact ⟨⟨k.kind, k.fromTag, k.toTag, k.author, r.status, r.seq⟩,
      mem_edgesSince.2 ⟨hlt, r, hl, rfl, rfl⟩, rfl⟩

/-- Rows in sync up to a cursor, and the rows past it, are the current rows. -/
theorem replay_edgesSince {db : RepoDb} {since : Nat} {view : Finset RelationKey}
    (h : InSync Held (fun _ => True) since db.relationLog (· ∈ view)) :
    replay ((db.edgesSince since).map DeltaEdge.change) view = db.currentRows := by
  have hexact : Exact Held (fun _ => True) db.relationLog
      (· ∈ replay ((db.edgesSince since).map DeltaEdge.change) view) := by
    apply h.pull
    intro k _
    by_cases hsent : ∃ r, db.relations.lookup k = some r ∧ since < r.seq
    · left
      obtain ⟨r, hl, hlt⟩ := hsent
      refine ⟨r.status, r.seq, relationLog_eq_some.2 ⟨r, hl, rfl, rfl⟩, ?_⟩
      rw [mem_replay (mem_changesSince.2 ⟨r, hl, hlt, rfl⟩)]
      · simp [Held]
      · intro b' hb'
        obtain ⟨r', hl', _, rfl⟩ := mem_changesSince.1 hb'
        rw [hl] at hl'
        cases hl'
        rfl
    · right
      constructor
      · intro st n hlog
        obtain ⟨r, hl, _, rfl⟩ := relationLog_eq_some.1 hlog
        exact Nat.le_of_not_lt fun hlt => hsent ⟨r, hl, hlt⟩
      · apply mem_replay_of_not_mem
        intro b hb
        obtain ⟨r, hl, hlt, _⟩ := mem_changesSince.1 hb
        exact hsent ⟨r, hl, hlt⟩
  ext k
  exact (hexact k trivial).trans (db.exact_currentRows k trivial).symm

/-- A client that held the current rows at some cursor, after replaying the rows past it. -/
theorem replay_run (db : RepoDb) (acts : List RelationAction) :
    replay (((run act db acts).edgesSince db.relationCursor).map DeltaEdge.change)
      db.currentRows = (run act db acts).currentRows :=
  replay_edgesSince ((db.exact_currentRows.inSync _).advance (db.advances_run acts).1)

/-- **Relations converge.** In every run of submissions, of the bridge's writes and of writes to
other tables: a row the bridge does not write ends removed just in case it was removed at the start
or an accepted submission removed it, and as any other run with the same accepted submissions ends
it, in whatever order; and a client that held the rows current at some point, after replaying the
rows past that cursor, holds the rows current now, whose edges are the edges listed, each once and
under its least author. -/
theorem relations_converge (db : RepoDb) (acts : List RelationAction) :
    (∀ k, (∀ a ∈ acts, ¬ a.Bridges k) →
      ((run act db acts).relationStatuses k = some .deleted ↔
        db.relationStatuses k = some .deleted ∨
          ∃ sub ∈ db.accepted acts, RelationKey.of sub = k ∧ sub.op = .remove) ∧
      ((run act db acts).relationStatuses k = none ↔ db.relationStatuses k = none ∧
        ∀ sub ∈ db.accepted acts, RelationKey.of sub ≠ k) ∧
      ∀ acts', (∀ a ∈ acts', ¬ a.Bridges k) → (db.accepted acts').Perm (db.accepted acts) →
        (run act db acts').relationStatuses k = (run act db acts).relationStatuses k) ∧
    ∀ later,
      let before := run act db acts
      let now := run act db (acts ++ later)
      let rows := replay ((now.edgesSince before.relationCursor).map DeltaEdge.change)
        before.currentRows
      rows = now.currentRows ∧ ∀ kind,
        (∀ fromTag toTag, (∃ author, ⟨fromTag, toTag, author⟩ ∈ now.relationsGraph.edges kind) ↔
          ∃ author, ⟨kind, fromTag, toTag, author⟩ ∈ rows) ∧
        (∀ fromTag toTag author, ⟨fromTag, toTag, author⟩ ∈ now.relationsGraph.edges kind ↔
          IsLeast {a | ⟨kind, fromTag, toTag, a⟩ ∈ rows} author) ∧
        ((now.relationsGraph.edges kind).map fun e => (e.fromTag, e.toTag)).Nodup := by
  refine ⟨fun k hb => ?_, fun later => ?_⟩
  · rw [db.verdict_run hb]
    refine ⟨verdict_deleted, verdict_none, fun acts' hb' hperm => ?_⟩
    rw [db.verdict_run hb', verdict_perm hperm]
  · intro before now rows
    have hnow : now = run act before later := run_append _ _ _
    have hrows : rows = now.currentRows := by
      simp only [rows, hnow]
      exact replay_run before later
    refine ⟨hrows, fun kind => ?_⟩
    rw [hrows]
    cases kind with
    | sibling => exact ⟨fun _ _ => exists_edgesOf, fun _ _ _ => mem_edgesOf, edgesOf_nodup _ _⟩
    | parent => exact ⟨fun _ _ => exists_edgesOf, fun _ _ _ => mem_edgesOf, edgesOf_nodup _ _⟩

end RepoDb

end Server
end Naiad
