import Naiad.Db.FullMerge
import Naiad.Server.RelationSync

/-!
# Naiad.Daemon.RelationPull

Relation pulls of a client from a repository whose relations change in between, by deltas or by whole
graphs.

* `isLeast_graph`: the graph served offers each slot the least candidate of the current rows.
* `pullRelations_full`, `InStep.deltas`: a pull of either kind brings the client up to date.
* `relationPulls_agree`: **after any run, either kind of pull leaves what the full merge of the
  current graph leaves**.
-/

namespace Naiad
namespace Daemon

open Lib Netproto Db Server

/-- The edges of a graph, those that do not parse left out. -/
def parseEdges (u : Unicode) (edges : List AuthoredEdge) : List PulledEdge :=
  edges.filterMap fun e =>
    match Tag.parse u e.fromTag, Tag.parse u e.toTag with
    | .ok fromTag, .ok toTag => some (fromTag, toTag, e.author)
    | _, _ => none

def deltaInputs (u : Unicode) (edges : List DeltaEdge) : List DeltaEdgeInput :=
  edges.filterMap fun e =>
    match Tag.parse u e.fromTag, Tag.parse u e.toTag with
    | .ok fromTag, .ok toTag =>
      some ⟨e.kind, fromTag, toTag, e.author, e.status = .deleted, e.seq⟩
    | _, _ => none

/-- The cursor of a client is past that of the repository: its numbers were restarted. -/
def restarted (server : RepoDb) (c : RelationDb) (service : Nat) : Bool :=
  (c.db.relationCursor service).any
    ((server.relationDelta ((c.db.relationCursor service).getD 0)).cursor < ·)

/-- The delta that is merged, the second one if the first shows a restart. -/
def pulledDelta (server : RepoDb) (c : RelationDb) (service : Nat) : RelationDelta :=
  if restarted server c service then server.relationDelta 0
  else server.relationDelta ((c.db.relationCursor service).getD 0)

def pullResets (server : RepoDb) (c : RelationDb) (service : Nat) : Bool :=
  (c.db.relationCursor service).getD 0 = 0 || restarted server c service

/-- One relation pull; `incremental` is whether the repository advertises deltas. -/
def pullRelations (u : Unicode) (server : RepoDb) (c : RelationDb) (service : Nat)
    (incremental : Bool) (now : Int) : Except ParseError RelationDb :=
  if incremental then
    let delta := pulledDelta server c service
    (c.mergeRelationDelta u service (pullResets server c service) delta.cursor
      (deltaInputs u delta.edges) now).map Prod.fst
  else
    let graph := server.relationsGraph
    .ok (c.mergePulledRelations service (parseEdges u graph.siblings)
      (parseEdges u graph.parents) now).1

/-- A delta merged batch by batch, each with a cursor; only the first batch resets. -/
def mergeBatches (u : Unicode) (service : Nat) (now : Int) :
    RelationDb → Bool → List (Nat × List DeltaEdgeInput) → Except ParseError RelationDb
  | c, _, [] => .ok c
  | c, reset, batch :: batches =>
    match c.mergeRelationDelta u service reset batch.1 batch.2 now with
    | .error e => .error e
    | .ok (c', _) => mergeBatches u service now c' false batches

/-- The batches are the delta, in any order and cut anywhere; the last brings its cursor. -/
structure Batches (u : Unicode) (delta : RelationDelta) (batches : List (Nat × List DeltaEdgeInput)) :
    Prop where
  edges : (batches.flatMap Prod.snd).Perm (deltaInputs u delta.edges)
  cursor : batches.getLast?.map Prod.fst = some delta.cursor

/-! ## The repository -/

def keyOf (e : Edge) : RelationKey := ⟨e.1, e.2.1, e.2.2.1, e.2.2.2⟩

/-- The edges some author holds current. -/
def truth (server : RepoDb) : Set Edge := {e | keyOf e ∈ server.currentRows}

/-- The edges that changed past a cursor. -/
def pastCursor (server : RepoDb) (cursor : Nat) : Set Edge :=
  {e | ∃ r, server.relations.lookup (keyOf e) = some r ∧ cursor < r.seq}

/-- Texts that are those of tags, as every submission is checked to have. -/
def NormalTexts (u : Unicode) (fromTag toTag : String) : Prop :=
  (∃ tag, Reparses u tag ∧ tag.display = fromTag) ∧ ∃ tag, Reparses u tag ∧ tag.display = toTag

structure Normalized (u : Unicode) (server : RepoDb) : Prop where
  texts : ∀ k r, server.relations.lookup k = some r → NormalTexts u k.fromTag k.toTag
  numbered : ∀ k r, server.relations.lookup k = some r → 0 < r.seq

def submissions : RelationAction → List RelationSubmission
  | .submit _ sub => [sub]
  | .bridge _ rows => rows
  | .other _ => []

section

variable {u : Unicode} {server : RepoDb}

theorem normalTexts_of_verified {scheme : Ed25519} {sub : RelationSubmission}
    (h : verifyRelation u scheme sub = .ok ()) : NormalTexts u sub.fromTag sub.toTag := by
  obtain ⟨⟨a, ha, hfrom⟩, ⟨b, hb, hto⟩, _⟩ := verifyRelation_ok h
  rw [← hfrom] at ha
  rw [← hto] at hb
  exact ⟨⟨a, ha, hfrom⟩, b, hb, hto⟩

theorem key_upsert {t : Table RelationKey RelationRow} {k k' : RelationKey} {row r : RelationRow}
    {merge : RelationRow → Option RelationRow}
    (h : (Table.upsert t k row merge).1.lookup k' = some r) :
    k' = k ∨ ∃ r', t.lookup k' = some r' := by
  by_cases hk : k' = k
  · exact .inl hk
  · rw [Table.lookup_upsert_ne hk] at h
    exact .inr ⟨r, h⟩

theorem key_bridgeRelations {ts : Int} {rows : List RelationSubmission} {acc acc' : RepoDb × Nat}
    (h : RepoDb.bridgeRelations ts acc rows = .ok acc') {k : RelationKey} {r : RelationRow}
    (hl : acc'.1.relations.lookup k = some r) :
    (∃ r', acc.1.relations.lookup k = some r') ∨ ∃ sub ∈ rows, k = .of sub := by
  induction rows generalizing acc with
  | nil =>
    cases h
    exact .inl ⟨r, hl⟩
  | cons row rows ih =>
    rw [RepoDb.bridgeRelations] at h
    split at h
    · cases h
    · rename_i acc₁ hrow
      rcases ih h with ⟨r', hr'⟩ | ⟨sub, hsub, hk⟩
      · unfold RepoDb.bridgeRelation at hrow
        split at hrow
        · cases hrow
        · cases hrow
          rcases key_upsert hr' with hk | hold
          · exact .inr ⟨row, by simp, hk⟩
          · exact .inl hold
      · exact .inr ⟨sub, List.mem_cons_of_mem _ hsub, hk⟩

/-- An action writes the rows of its submissions only. -/
theorem key_act (a : RelationAction) {k : RelationKey} {r : RelationRow}
    (hl : (server.act a).relations.lookup k = some r) :
    (∃ r', server.relations.lookup k = some r') ∨ ∃ sub ∈ submissions a, k = .of sub := by
  cases a with
  | submit ts sub =>
    rcases server.applyRelation_cases ts sub with ⟨_, hrel⟩ | ⟨_, signature, hrel⟩
    · simp only [RepoDb.act, hrel] at hl
      exact .inl ⟨r, hl⟩
    · simp only [RepoDb.act, hrel] at hl
      rcases key_upsert hl with hk | hold
      · exact .inr ⟨sub, by simp [submissions], hk⟩
      · exact .inl hold
  | bridge ts rows =>
    simp only [RepoDb.act] at hl
    split at hl
    · rename_i out hok
      cases rows with
      | nil =>
        cases hok
        exact .inl ⟨r, hl⟩
      | cons row rows => exact key_bridgeRelations hok hl
    · exact .inl ⟨r, hl⟩
  | other s => exact .inl ⟨r, hl⟩

theorem Normalized.act (h : Normalized u server) {a : RelationAction}
    (ha : ∀ sub ∈ submissions a, NormalTexts u sub.fromTag sub.toTag) :
    Normalized u (server.act a) where
  texts := by
    intro k r hl
    rcases key_act a hl with ⟨r', hold⟩ | ⟨sub, hsub, rfl⟩
    · exact h.texts k r' hold
    · exact ha sub hsub
  numbered := by
    intro k r hl
    rcases (server.advances_act a).1 k with hsame | ⟨st, n, hlog, hlt⟩
    · have hlog : (server.act a).relationLog k = some (r.status, r.seq) :=
        RepoDb.relationLog_eq_some.2 ⟨r, hl, rfl, rfl⟩
      rw [hsame] at hlog
      obtain ⟨r', hl', _, hseq⟩ := RepoDb.relationLog_eq_some.1 hlog
      rw [← hseq]
      exact h.numbered k r' hl'
    · obtain ⟨r', hl', _, rfl⟩ := RepoDb.relationLog_eq_some.1 hlog
      rw [hl] at hl'
      cases hl'
      omega

theorem parse_of_reparses {tag : Tag} {text : String} (h : Reparses u tag)
    (htext : tag.display = text) : Tag.parse u text = .ok tag := htext ▸ h

/-- What a delta brings: the rows past the cursor, each as it is stored. -/
theorem mem_deltaInputs (h : Normalized u server) {since : Nat} {x : DeltaEdgeInput} :
    x ∈ deltaInputs u (server.edgesSince since) ↔ x.Parsed u ∧ ∃ r,
      server.relations.lookup (keyOf x.edge) = some r ∧ since < r.seq ∧
        x.deleted = decide (r.status = .deleted) ∧ x.seq = r.seq := by
  rw [deltaInputs, List.mem_filterMap]
  constructor
  · rintro ⟨e, he, hx⟩
    obtain ⟨hlt, r, hl, hst, hseq⟩ := RepoDb.mem_edgesSince.1 he
    obtain ⟨⟨a, ha, hfrom⟩, b, hb, hto⟩ := h.texts _ r hl
    rw [parse_of_reparses ha hfrom, parse_of_reparses hb hto] at hx
    cases hx
    have hkey : keyOf (DeltaEdgeInput.edge ⟨e.kind, a, b, e.author, e.status = .deleted, e.seq⟩) =
        ⟨e.kind, e.fromTag, e.toTag, e.author⟩ := by
      rw [DeltaEdgeInput.edge, keyOf, hfrom, hto]
    exact ⟨⟨ha, hb⟩, r, hkey ▸ hl, by omega, by simp [hst], hseq.symm⟩
  · rintro ⟨⟨ha, hb⟩, r, hl, hlt, hdeleted, hseq⟩
    refine ⟨⟨x.kind, x.fromTag.display, x.toTag.display, x.author, r.status, r.seq⟩,
      RepoDb.mem_edgesSince.2 ⟨hlt, r, hl, rfl, rfl⟩, ?_⟩
    rw [show Tag.parse u x.fromTag.display = .ok x.fromTag from ha,
      show Tag.parse u x.toTag.display = .ok x.toTag from hb]
    simp only [Option.some.injEq]
    rw [← hdeleted, ← hseq]

/-- The graph lists the pairs that some author holds current, under the least of these. -/
theorem mem_parseEdges (h : Normalized u server) {kind : RelKind} {a b : Tag} {author : String} :
    (a, b, author) ∈ parseEdges u (server.edgesOf kind) ↔ Reparses u a ∧ Reparses u b ∧
      IsLeast {x | (⟨kind, a.display, b.display, x⟩ : RelationKey) ∈ server.currentRows} author := by
  rw [parseEdges, List.mem_filterMap]
  constructor
  · rintro ⟨e, he, hx⟩
    have hleast := RepoDb.mem_edgesOf.1 he
    obtain ⟨r, hl, _⟩ := RepoDb.mem_currentRows.1 hleast.1
    obtain ⟨⟨a', ha, hfrom⟩, b', hb, hto⟩ := h.texts _ r hl
    rw [parse_of_reparses ha hfrom, parse_of_reparses hb hto] at hx
    cases hx
    rw [hfrom, hto]
    exact ⟨ha, hb, hleast⟩
  · rintro ⟨ha, hb, hleast⟩
    refine ⟨⟨a.display, b.display, author⟩, RepoDb.mem_edgesOf.2 hleast, ?_⟩
    rw [show Tag.parse u a.display = .ok a from ha, show Tag.parse u b.display = .ok b from hb]

theorem listed_parseEdges (h : Normalized u server) (kind : RelKind) :
    Listed u (parseEdges u (server.edgesOf kind)) where
  parsed := by
    rintro ⟨a, b, author⟩ he
    obtain ⟨ha, hb, _⟩ := (mem_parseEdges h).1 he
    exact ⟨ha, hb⟩
  author := by
    rintro ⟨a, b, author⟩ he ⟨a', b', author'⟩ he' hfrom hto
    cases hfrom
    cases hto
    exact ((mem_parseEdges h).1 he).2.2.unique ((mem_parseEdges h).1 he').2.2

/-- The edges of the graph a full pull merges. -/
def graphEdges (u : Unicode) (server : RepoDb) : Set Edge :=
  pulledEdges (parseEdges u server.relationsGraph.siblings)
    (parseEdges u server.relationsGraph.parents)

theorem mem_graphEdges (h : Normalized u server) {e : Edge} : e ∈ graphEdges u server ↔
    IsLeast {x | (⟨e.1, e.2.1, e.2.2.1, x⟩ : RelationKey) ∈ server.currentRows} e.2.2.2 := by
  constructor
  · rintro (⟨x, hx, rfl⟩ | ⟨x, hx, rfl⟩)
    · exact ((mem_parseEdges h).1 hx).2.2
    · exact ((mem_parseEdges h).1 hx).2.2
  · intro hleast
    obtain ⟨kind, from', to', author⟩ := e
    obtain ⟨r, hl, _⟩ := RepoDb.mem_currentRows.1 hleast.1
    obtain ⟨⟨a, ha, rfl⟩, b, hb, rfl⟩ := h.texts _ r hl
    have hmem := (mem_parseEdges h).2 ⟨ha, hb, hleast⟩
    cases kind with
    | sibling => exact .inl ⟨_, hmem, rfl⟩
    | parent => exact .inr ⟨_, hmem, rfl⟩

/-- A slot asks for edges of one kind and one `from`, whose `to` it accepts. -/
theorem exists_candidates (slot : Slot) : ∃ (kind : RelKind) (fromText : String)
    (accepts : String → Prop), ∀ (S : Set Edge) (w : Lex (String × String)),
      w ∈ candidates S slot ↔ (kind, fromText, ofLex w) ∈ S ∧ accepts (ofLex w).1 := by
  cases slot with
  | sibling bad => exact ⟨_, _, (· ≠ bad.display), fun _ _ => Iff.rfl⟩
  | parent child parent => exact ⟨_, _, (· = parent.display), fun _ _ => Iff.rfl⟩

/-- **The graph served offers each slot the least candidate of the current rows.** -/
theorem isLeast_graph (h : Normalized u server) (slot : Slot) (w : Lex (String × String)) :
    IsLeast (candidates (graphEdges u server) slot) w ↔
      IsLeast (candidates (truth server) slot) w := by
  obtain ⟨kind, fromText, accepts, hmem⟩ := exists_candidates slot
  have hsub : candidates (graphEdges u server) slot ⊆ candidates (truth server) slot := by
    intro v hv
    obtain ⟨hv, haccepts⟩ := (hmem _ v).1 hv
    exact (hmem _ v).2 ⟨((mem_graphEdges h).1 hv).1, haccepts⟩
  constructor
  · rintro ⟨hw, hle⟩
    refine ⟨hsub hw, fun v hv => ?_⟩
    obtain ⟨hv, haccepts⟩ := (hmem _ v).1 hv
    -- the least author of the pair is the one the graph has
    obtain ⟨author, he⟩ := RepoDb.exists_edgesOf.2 ⟨(ofLex v).2, hv⟩
    have hleast := RepoDb.mem_edgesOf.1 he
    have hgraph : toLex ((ofLex v).1, author) ∈ candidates (graphEdges u server) slot :=
      (hmem _ _).2 ⟨(mem_graphEdges h).2 hleast, haccepts⟩
    calc w ≤ toLex ((ofLex v).1, author) := hle hgraph
      _ ≤ toLex ((ofLex v).1, (ofLex v).2) := Prod.Lex.right _ (hleast.2 hv)
  · rintro ⟨hw, hle⟩
    refine ⟨?_, fun v hv => hle (hsub hv)⟩
    obtain ⟨hrow, haccepts⟩ := (hmem _ w).1 hw
    refine (hmem _ w).2 ⟨(mem_graphEdges h).2 ⟨hrow, fun author ha => ?_⟩, haccepts⟩
    have hother : toLex ((ofLex w).1, author) ∈ candidates (truth server) slot :=
      (hmem _ _).2 ⟨ha, haccepts⟩
    rcases Prod.Lex.le_iff.1 (hle hother) with hlt | ⟨_, hauthor⟩
    · exact absurd hlt (lt_irrefl _)
    · exact hauthor

theorem saysCell_graph (h : Normalized u server) {slot : Slot} {o : Option Cell} :
    SaysCell u (graphEdges u server) slot o ↔ SaysCell u (truth server) slot o := by
  simp only [SaysCell, isLeast_graph h]

end

/-! ## One pull -/

/-- A client on its way to the current edges of a repository. -/
structure Following (u : Unicode) (service : Nat) (server : RepoDb) (stale : Set Edge)
    (c : RelationDb) : Prop where
  references : c.References
  pulled : c.Pulled u service
  texts : Texts u (c.heldEdges service)
  trails : Trails Touches (SaysCell u) (Slot.Proper u) (truth server) (c.heldEdges service) stale
    (c.cell service)

section

variable {u : Unicode} {service since : Nat} {server : RepoDb} {stale : Set Edge}
  {c c₀ : RelationDb}

theorem mem_truth {e : Edge} : e ∈ truth server ↔
    ∃ r, server.relations.lookup (keyOf e) = some r ∧ r.status = .current :=
  RepoDb.mem_currentRows

/-- A batch of a delta leaves fewer edges to deliver. -/
theorem Following.batch (h : Following u service server stale c₀) (hn : Normalized u server)
    {reset : Bool} (hreset : c₀ = c.resetRelations service reset) {edges : List DeltaEdgeInput}
    (hedges : ∀ x ∈ edges, x ∈ deltaInputs u (server.edgesSince since)) (cursor : Nat)
    (now : Int) :
    ∃ c' stats, c.mergeRelationDelta u service reset cursor edges now = .ok (c', stats) ∧
      Following u service server (stale \ {e | ∃ x ∈ edges, x.edge = e}) c' ∧
      c'.db.services = (c₀.db.setRelationCursor service cursor now).services := by
  obtain ⟨c', stats, hmerge, hd, hservices⟩ := mergeRelationDelta_spec hreset h.references h.pulled
    h.texts (fun x hx => ((mem_deltaInputs hn).1 (hedges x hx)).1) cursor now
  have hstaged : c'.heldEdges service =
      (edges.foldl (RelationDb.stageEdge service) c₀).heldEdges service :=
    RelationDb.heldEdges_congr hd.staged
  refine ⟨c', stats, hmerge, ⟨hd.references, hd.pulled, hd.texts, ?_⟩, hservices⟩
  have hsplit : ∀ e ∈ stale, e ∈ stale \ {e | ∃ x ∈ edges, x.edge = e} ∨
      e ∈ {e | ∃ x ∈ edges, x.edge = e} := by
    intro e he
    by_cases hd : ∃ x ∈ edges, x.edge = e
    · exact .inr hd
    · exact .inl ⟨he, hd⟩
  refine h.trails.deliver (local_saysCell u) hsplit ?_ ?_ ?_ ?_
  · rintro e ⟨x, hx, rfl⟩ _
    obtain ⟨_, r, hl, _, hdeleted, _⟩ := (mem_deltaInputs hn).1 (hedges x hx)
    rw [hstaged, mem_heldEdges_of_mem hx, mem_truth]
    · rw [hdeleted]
      cases hst : r.status with
      | current => simp [hl, hst]
      | deleted => simp [hl, hst]
    · intro y hy heq
      obtain ⟨_, r', hl', _, hdeleted', _⟩ := (mem_deltaInputs hn).1 (hedges y hy)
      rw [heq, hl] at hl'
      cases hl'
      rw [hdeleted, hdeleted']
  · intro e he
    rw [hstaged]
    exact mem_heldEdges_staged fun x hx heq => he ⟨x, hx, heq⟩
  · rintro slot hslot ⟨e, ⟨x, hx, rfl⟩, ht⟩
    exact hd.fits slot hslot ⟨x, hx, ht⟩
  · intro slot hslot hnot
    refine hd.kept slot hslot ?_
    rintro ⟨x, hx, ht⟩
    exact hnot ⟨_, ⟨x, hx, rfl⟩, ht⟩

/-- Everything of a service cleared: only the current edges are missing. -/
theorem Following.reset (h : c.References) :
    Following u service server (truth server) (c.resetRelations service true) := by
  obtain ⟨href, hcell⟩ := @RelationDb.clearRelations_spec (c.clearStaged service) service
    ⟨h.tags, h.siblings, h.parents⟩
  have hnone : ∀ slot, (c.resetRelations service true).cell service slot = none := by
    intro slot
    exact (hcell service slot).trans (if_pos rfl)
  have hheld : ∀ e, e ∉ (c.resetRelations service true).heldEdges service := by
    rintro e ⟨row, hl, _⟩
    have hselect : (c.relationEdges.select fun k _ => k.1 ≠ service).lookup (service, e) =
        some row := hl
    rw [Table.lookup_select_key] at hselect
    simp at hselect
  refine ⟨href, fun slot x hx => ?_, fun e he => absurd he (hheld e), fun e he => ?_,
    fun slot _ => ?_⟩
  · rw [hnone] at hx
    cases hx
  · exact iff_of_false (hheld e) he
  · by_cases htouched : ∃ e ∈ truth server, Touches e slot
    · exact .inr htouched
    · left
      rw [hnone]
      refine saysCell_none fun w hleast => htouched ?_
      cases slot with
      | sibling bad => exact ⟨_, hleast.1.1, rfl, rfl⟩
      | parent child parent => exact ⟨_, hleast.1.1, rfl, rfl, hleast.1.2⟩

theorem Following.mono (h : Following u service server stale c) {stale' : Set Edge}
    (hstale : stale ⊆ stale') : Following u service server stale' c :=
  ⟨h.references, h.pulled, h.texts,
    h.trails.advance (local_saysCell u) hstale fun _ _ => Iff.rfl⟩

theorem relationCursor_setRelationCursor {db db' : Db} {cursor : Nat} {now : Int}
    (h : db'.services = (db.setRelationCursor service cursor now).services) :
    (db'.relationCursor service).getD 0 ≤ cursor := by
  rw [Db.relationCursor, h, Db.setRelationCursor, Db.lookup_updateService]
  cases db.services.lookup service with
  | none => exact Nat.zero_le _
  | some row => simp [toI64]

/-- Batches are delivered one after another; what they leave is what no batch held. -/
theorem Following.batches (hn : Normalized u server) {batches : List (Nat × List DeltaEdgeInput)}
    {reset : Bool} (hreset : c₀ = c.resetRelations service reset)
    (h : Following u service server stale c₀) (hne : batches ≠ [])
    (hmem : ∀ x ∈ batches.flatMap Prod.snd, x ∈ deltaInputs u (server.edgesSince since))
    (now : Int) :
    ∃ c', mergeBatches u service now c reset batches = .ok c' ∧
      Following u service server (stale \ {e | ∃ x ∈ batches.flatMap Prod.snd, x.edge = e}) c' ∧
      ∀ cursor, batches.getLast?.map Prod.fst = some cursor →
        (c'.db.relationCursor service).getD 0 ≤ cursor := by
  induction batches generalizing c c₀ reset stale with
  | nil => exact absurd rfl hne
  | cons batch batches ih =>
    obtain ⟨c₁, stats, hmerge, hone, hservices⟩ := h.batch hn hreset
      (fun x hx => hmem x (List.mem_append_left _ hx)) batch.1 now
    rw [mergeBatches, hmerge]
    cases batches with
    | nil =>
      refine ⟨c₁, rfl, by simpa using hone, fun cursor hcursor => ?_⟩
      cases hcursor
      exact relationCursor_setRelationCursor hservices
    | cons next rest =>
      have hkeeps : c₁ = c₁.resetRelations service false := rfl
      obtain ⟨c', hrest, hfollow, hlast⟩ := ih hkeeps hone (by simp)
        fun x hx => hmem x (List.mem_append_right _ hx)
      refine ⟨c', hrest, hfollow.mono ?_, fun cursor hcursor => hlast cursor hcursor⟩
      rintro e ⟨⟨he, hone⟩, hrest⟩
      refine ⟨he, ?_⟩
      rintro ⟨x, hx, rfl⟩
      rw [List.flatMap_cons] at hx
      rcases List.mem_append.1 hx with hx | hx
      · exact hone ⟨x, hx, rfl⟩
      · exact hrest ⟨x, hx, rfl⟩

end

/-! ## Runs -/

structure PullNode where
  server : RepoDb
  client : RelationDb

inductive PullEvent
  | act (a : RelationAction)
  | full (now : Int)
  | delta (batches : List (Nat × List DeltaEdgeInput)) (now : Int)
  /-- A write of the client that is no pull of the service. -/
  | other (c : RelationDb)

namespace PullNode

/-- A pull that fails leaves the client as it was. -/
def step (u : Unicode) (service : Nat) (node : PullNode) : PullEvent → PullNode
  | .act a => { node with server := node.server.act a }
  | .full now =>
    match pullRelations u node.server node.client service false now with
    | .ok c => { node with client := c }
    | .error _ => node
  | .delta batches now =>
    match mergeBatches u service now node.client (pullResets node.server node.client service)
      batches with
    | .ok c => { node with client := c }
    | .error _ => node
  | .other c => { node with client := c }

end PullNode

/-- The rows of a service, its cursor and its staged edges are as they were. -/
structure KeepsService (u : Unicode) (service : Nat) (c c' : RelationDb) : Prop where
  references : c'.References
  cell : c'.cell service = c.cell service
  staged : c'.heldEdges service = c.heldEdges service
  cursor : c'.db.relationCursor service = c.db.relationCursor service

def PullNode.Allowed (u : Unicode) (service : Nat) (node : PullNode) : PullEvent → Prop
  | .act a => ∀ sub ∈ submissions a, NormalTexts u sub.fromTag sub.toTag
  | .full _ => True
  | .delta batches _ => Batches u (pulledDelta node.server node.client service) batches
  | .other c => KeepsService u service node.client c

section

variable {u : Unicode} {s service : Nat} {c : RelationDb}

/-- Pulls of other services leave a service alone. -/
theorem keepsService_full (hne : service ≠ s) (h : c.References) {siblings parents : List PulledEdge}
    (hs : Listed u siblings) (hp : Listed u parents) (now : Int) :
    KeepsService u service c (c.mergePulledRelations s siblings parents now).1 := by
  obtain ⟨href, _, hedges, hcursor, _, hother⟩ := @mergePulledRelations_spec u c s _ _ h hs hp now
  exact ⟨href, funext fun slot => hother service slot hne, RelationDb.heldEdges_congr hedges,
    hcursor service⟩

theorem keepsService_delta (hne : service ≠ s) {c₀ : RelationDb} {reset : Bool}
    (hreset : c₀ = c.resetRelations s reset) (h : c.References) (hp : c₀.Pulled u s)
    (hS : Texts u (c₀.heldEdges s)) {edges : List DeltaEdgeInput} (hedges : ∀ e ∈ edges, e.Parsed u)
    (cursor : Nat) (now : Int) :
    ∃ c' stats, c.mergeRelationDelta u s reset cursor edges now = .ok (c', stats) ∧
      KeepsService u service c c' := by
  have hcleared : c₀.References ∧ c₀.cell service = c.cell service ∧
      c₀.heldEdges service = c.heldEdges service ∧ c₀.db.services = c.db.services := by
    rw [hreset]
    cases reset with
    | false => exact ⟨h, rfl, rfl, rfl⟩
    | true =>
      obtain ⟨href, hcell⟩ := @RelationDb.clearRelations_spec (c.clearStaged s) s
        ⟨h.tags, h.siblings, h.parents⟩
      refine ⟨href, funext fun slot => (hcell service slot).trans (if_neg hne), ?_, rfl⟩
      ext e
      have hlookup : (c.relationEdges.select fun k _ => k.1 ≠ s).lookup (service, e) =
          c.relationEdges.lookup (service, e) := by
        rw [Table.lookup_select_key, if_pos (decide_eq_true hne)]
      show (∃ row, (c.relationEdges.select fun k _ => k.1 ≠ s).lookup (service, e) = some row ∧
        row.status = .current) ↔ _
      rw [hlookup]
      rfl
  obtain ⟨href, hcell, hheld, hservices⟩ := hcleared
  obtain ⟨c', stats, hmerge, hd, hcursor⟩ :=
    mergeRelationDelta_spec hreset href hp hS hedges cursor now
  refine ⟨c', stats, hmerge, hd.references,
    funext fun slot => (hd.elsewhere service slot hne).trans (congrFun hcell slot), ?_, ?_⟩
  · rw [← hheld, RelationDb.heldEdges_congr hd.staged]
    ext e
    have hnil : (edges.filter fun x => (s, x.edge) = (service, e)) = [] := by
      rw [List.filter_eq_nil_iff]
      intro x _ heq
      exact hne (Prod.mk.inj (of_decide_eq_true heq)).1.symm
    rw [RelationDb.heldEdges, Set.mem_ofPred_eq, lookup_stageEdges, hnil]
    rfl
  · rw [Db.relationCursor, hcursor, Db.setRelationCursor, Db.lookup_updateService, hservices,
      Db.relationCursor]
    cases c.db.services.lookup service with
    | none => rfl
    | some row => simp [hne]

end

/-- What holds between pulls: a client with a cursor is behind only by what changed past it. -/
structure InStep (u : Unicode) (service : Nat) (node : PullNode) : Prop where
  normalized : Normalized u node.server
  references : node.client.References
  cursor : (node.client.db.relationCursor service).getD 0 ≤ node.server.relationCursor
  following : (node.client.db.relationCursor service).getD 0 = 0 ∨
    Following u service node.server
      (pastCursor node.server ((node.client.db.relationCursor service).getD 0)) node.client

section

variable {u : Unicode} {service : Nat} {node : PullNode}

theorem InStep.not_restarted (h : InStep u service node) :
    restarted node.server node.client service = false := by
  have hcursor := h.cursor
  rw [restarted]
  cases hc : node.client.db.relationCursor service with
  | none => rfl
  | some cursor =>
    rw [hc, Option.getD_some] at hcursor
    exact decide_eq_false (by simp only [RepoDb.relationDelta]; omega)

/-- Every edge that changed past a cursor is in the delta from there. -/
theorem exists_input {server : RepoDb} (hn : Normalized u server) {since : Nat} {e : Edge}
    (he : e ∈ pastCursor server since) :
    ∃ x ∈ deltaInputs u (server.edgesSince since), x.edge = e := by
  obtain ⟨kind, from', to', author⟩ := e
  obtain ⟨r, hl, hlt⟩ := he
  obtain ⟨⟨a, ha, rfl⟩, b, hb, rfl⟩ := hn.texts _ r hl
  exact ⟨⟨kind, a, b, author, r.status = .deleted, r.seq⟩,
    (mem_deltaInputs hn).2 ⟨⟨ha, hb⟩, r, hl, hlt, rfl, rfl⟩, rfl⟩

/-- A delta in any batches brings the client up to date. -/
theorem InStep.deltas (h : InStep u service node) {batches : List (Nat × List DeltaEdgeInput)}
    (hb : Batches u (pulledDelta node.server node.client service) batches) (now : Int) :
    ∃ c', mergeBatches u service now node.client (pullResets node.server node.client service)
        batches = .ok c' ∧ Following u service node.server ∅ c' ∧
      (c'.db.relationCursor service).getD 0 ≤ node.server.relationCursor := by
  have hdelta : pulledDelta node.server node.client service =
      node.server.relationDelta ((node.client.db.relationCursor service).getD 0) := by
    simp [pulledDelta, h.not_restarted]
  rw [hdelta] at hb
  generalize hsince : (node.client.db.relationCursor service).getD 0 = since at hb
  have hne : batches ≠ [] := by
    rintro rfl
    cases hb.cursor
  have hmem : ∀ x, x ∈ batches.flatMap Prod.snd ↔ x ∈ deltaInputs u (node.server.edgesSince since) :=
    fun x => hb.edges.mem_iff
  obtain ⟨c₀, stale, hreset, hfollow, hstale⟩ : ∃ c₀ stale,
      c₀ = node.client.resetRelations service (pullResets node.server node.client service) ∧
        Following u service node.server stale c₀ ∧ stale ⊆ pastCursor node.server since := by
    rw [pullResets, h.not_restarted, Bool.or_false, hsince]
    by_cases hzero : since = 0
    · subst hzero
      refine ⟨_, _, rfl, .reset h.references, ?_⟩
      rintro e he
      obtain ⟨r, hl, _⟩ := mem_truth.1 he
      exact ⟨r, hl, h.normalized.numbered _ r hl⟩
    · have hfollow := h.following
      rw [hsince] at hfollow
      rw [decide_eq_false hzero]
      exact ⟨_, _, rfl, hfollow.resolve_left hzero, Set.Subset.rfl⟩
  obtain ⟨c', hmerge, hlast, hcursor⟩ := hfollow.batches h.normalized hreset hne
    (fun x hx => (hmem x).1 hx) now
  refine ⟨c', hmerge, hlast.mono ?_, hcursor _ hb.cursor⟩
  rintro e ⟨he, hnot⟩
  obtain ⟨x, hx, hedge⟩ := exists_input h.normalized (hstale he)
  exact hnot ⟨x, (hmem x).2 hx, hedge⟩

/-- A full merge brings what the tables say up to date, and leaves the staged edges. -/
theorem pullRelations_full {server : RepoDb} {c : RelationDb} (hn : Normalized u server)
    (h : c.References) (now : Int) :
    ∃ c', pullRelations u server c service false now = .ok c' ∧ c'.References ∧
      c'.Pulled u service ∧
      (∀ slot, slot.Proper u → SaysCell u (truth server) slot (c'.cell service slot)) ∧
      c'.db.relationCursor service = c.db.relationCursor service ∧
      c'.heldEdges service = c.heldEdges service := by
  obtain ⟨href, hpulled, hedges, hcursor, hfits, _⟩ := @mergePulledRelations_spec u c service _ _ h
    (listed_parseEdges hn .sibling) (listed_parseEdges hn .parent) now
  refine ⟨_, rfl, href, hpulled, fun slot hslot => ?_, hcursor service, ?_⟩
  · exact (saysCell_graph hn).1 (hfits slot hslot)
  · exact RelationDb.heldEdges_congr hedges

theorem Following.inStep {server : RepoDb} {c : RelationDb} (hn : Normalized u server)
    (h : Following u service server ∅ c)
    (hcursor : (c.db.relationCursor service).getD 0 ≤ server.relationCursor) :
    InStep u service ⟨server, c⟩ :=
  ⟨hn, h.references, hcursor, .inr (h.mono (Set.empty_subset _))⟩

theorem InStep.act (h : InStep u service node) {a : RelationAction}
    (ha : ∀ sub ∈ submissions a, NormalTexts u sub.fromTag sub.toTag) :
    InStep u service { node with server := node.server.act a } := by
  obtain ⟨hadvances, hle⟩ := node.server.advances_act a
  have hcursor := h.cursor
  refine ⟨h.normalized.act ha, h.references, hcursor.trans hle, ?_⟩
  refine h.following.imp_right fun hf => ⟨hf.references, hf.pulled, hf.texts, ?_⟩
  have hsame : ∀ e, e ∉ pastCursor (node.server.act a)
      ((node.client.db.relationCursor service).getD 0) →
        (node.server.act a).relationLog (keyOf e) = node.server.relationLog (keyOf e) := by
    intro e he
    rcases hadvances (keyOf e) with hsame | ⟨st, n, hlog, hlt⟩
    · exact hsame
    · obtain ⟨r, hl, _, rfl⟩ := RepoDb.relationLog_eq_some.1 hlog
      exact absurd ⟨r, hl, by omega⟩ he
  refine hf.trails.advance (local_saysCell u) ?_ fun e he => ?_
  · rintro e ⟨r, hl, hlt⟩
    by_contra he
    have hlog : (node.server.act a).relationLog (keyOf e) = some (r.status, r.seq) :=
      (hsame e he).trans (RepoDb.relationLog_eq_some.2 ⟨r, hl, rfl, rfl⟩)
    obtain ⟨r', hl', _, hseq⟩ := RepoDb.relationLog_eq_some.1 hlog
    refine he ⟨r', hl', ?_⟩
    rw [hseq]
    exact hlt
  · have hheld : ∀ server : RepoDb, e ∈ truth server ↔
        ∃ n, server.relationLog (keyOf e) = some (.current, n) := by
      intro server
      rw [mem_truth]
      constructor
      · rintro ⟨r, hl, hst⟩
        exact ⟨r.seq, RepoDb.relationLog_eq_some.2 ⟨r, hl, hst, rfl⟩⟩
      · rintro ⟨n, hlog⟩
        obtain ⟨r, hl, hst, _⟩ := RepoDb.relationLog_eq_some.1 hlog
        exact ⟨r, hl, hst⟩
    rw [hheld, hheld, hsame e he]

theorem InStep.step (h : InStep u service node) {event : PullEvent}
    (hallowed : node.Allowed u service event) : InStep u service (node.step u service event) := by
  cases event with
  | act a => exact h.act hallowed
  | full now =>
    obtain ⟨c', hpull, href, hpulled, hfits, hcursor, hheld⟩ :=
      @pullRelations_full u service _ _ h.normalized h.references now
    simp only [PullNode.step, hpull]
    refine ⟨h.normalized, href, by rw [hcursor]; exact h.cursor, ?_⟩
    rw [hcursor]
    refine h.following.imp_right fun hf => ⟨href, hpulled, hheld ▸ hf.texts, ?_⟩
    rw [hheld]
    exact hf.trails.replace hfits
  | delta batches now =>
    obtain ⟨c', hmerge, hfollow, hcursor⟩ := h.deltas hallowed now
    simp only [PullNode.step, hmerge]
    exact hfollow.inStep h.normalized hcursor
  | other c =>
    have hkeeps : KeepsService u service node.client c := hallowed
    refine ⟨h.normalized, hkeeps.references, hkeeps.cursor ▸ h.cursor, ?_⟩
    simp only [PullNode.step, hkeeps.cursor]
    refine h.following.imp_right fun hf => ⟨hkeeps.references, fun slot x hx => ?_,
      hkeeps.staged ▸ hf.texts, ?_⟩
    · rw [hkeeps.cell] at hx
      exact hf.pulled slot x hx
    · rw [hkeeps.staged, hkeeps.cell]
      exact hf.trails

/-- A client whose relations nobody pulled by deltas, and a repository with normalized tags. -/
structure PullNode.Started (u : Unicode) (service : Nat) (node : PullNode) : Prop where
  normalized : Normalized u node.server
  references : node.client.References
  cursor : (node.client.db.relationCursor service).getD 0 = 0

theorem inStep_run {start : PullNode} (hstart : start.Started u service) {events : List PullEvent}
    (hrun : AllSteps (PullNode.step u service) (PullNode.Allowed u service) start events) :
    InStep u service (run (PullNode.step u service) start events) := by
  refine hrun.invariant ⟨hstart.normalized, hstart.references, ?_, .inl hstart.cursor⟩
    fun _ _ h ha => h.step ha
  rw [hstart.cursor]
  exact Nat.zero_le _

/-- The pull of the code is one batch. -/
theorem pullRelations_incremental (server : RepoDb) (c : RelationDb) (now : Int) :
    pullRelations u server c service true now = mergeBatches u service now c
      (pullResets server c service) [((pulledDelta server c service).cursor,
        deltaInputs u (pulledDelta server c service).edges)] := by
  simp only [pullRelations, if_true, mergeBatches]
  cases c.mergeRelationDelta u service (pullResets server c service)
    (pulledDelta server c service).cursor (deltaInputs u (pulledDelta server c service).edges)
    now with
  | error e => rfl
  | ok out => rfl

/-- Two clients of whom the current edges say the same have the same rows. -/
theorem rows_of_says {server : RepoDb} {c d : RelationDb} (hc : c.References) (hd : d.References)
    (hcp : c.Pulled u service) (hdp : d.Pulled u service)
    (hcs : ∀ slot, slot.Proper u → SaysCell u (truth server) slot (c.cell service slot))
    (hds : ∀ slot, slot.Proper u → SaysCell u (truth server) slot (d.cell service slot)) :
    c.siblingRows service = d.siblingRows service ∧
      c.parentRows service = d.parentRows service := by
  refine RelationDb.rows_congr hc hd (funext fun slot => ?_)
  by_cases hslot : slot.Proper u
  · exact (hcs slot hslot).unique (hds slot hslot)
  · have hnone : ∀ e : RelationDb, e.Pulled u service → e.cell service slot = none := by
      intro e he
      cases hx : e.cell service slot with
      | none => rfl
      | some x => exact absurd (he slot x hx).1 hslot
    rw [hnone c hcp, hnone d hdp]

/-- **Deltas and full merges agree.** In every run of writes to the relations of a repository, of
pulls of either kind, a delta being cut into batches in any way and any order, and of client writes
that leave the service's relations alone: the next pull of either kind succeeds, and the rows of the
service are then those that the full merge of the repository's current graph leaves on any client. -/
theorem relationPulls_agree {start : PullNode} (hstart : start.Started u service)
    {events : List PullEvent}
    (hrun : AllSteps (PullNode.step u service) (PullNode.Allowed u service) start events)
    {other : RelationDb} (hother : other.References) (now : Int) :
    let node := run (PullNode.step u service) start events
    let graph := node.server.relationsGraph
    let full := (other.mergePulledRelations service (parseEdges u graph.siblings)
      (parseEdges u graph.parents) now).1
    (∀ incremental now, ∃ c, pullRelations u node.server node.client service incremental now = .ok c ∧
      c.siblingRows service = full.siblingRows service ∧
        c.parentRows service = full.parentRows service) ∧
    ∀ batches now, Batches u (pulledDelta node.server node.client service) batches →
      ∃ c, mergeBatches u service now node.client (pullResets node.server node.client service)
          batches = .ok c ∧ c.siblingRows service = full.siblingRows service ∧
        c.parentRows service = full.parentRows service := by
  intro node graph full
  have hnode : InStep u service node := inStep_run hstart hrun
  have hn := hnode.normalized
  obtain ⟨d, hd, hdref, hdp, hds, _⟩ := @pullRelations_full u service _ _ hn hother now
  obtain rfl : d = full := (Except.ok.inj hd).symm
  have hdeltas : ∀ batches now, Batches u (pulledDelta node.server node.client service) batches →
      ∃ c, mergeBatches u service now node.client (pullResets node.server node.client service)
          batches = .ok c ∧ c.siblingRows service = full.siblingRows service ∧
        c.parentRows service = full.parentRows service := by
    intro batches now hb
    obtain ⟨c, hmerge, hf, _⟩ := hnode.deltas hb now
    exact ⟨c, hmerge, rows_of_says hf.references hdref hf.pulled hdp
      (fun slot hslot => hf.trails.current hslot) hds⟩
  refine ⟨fun incremental now => ?_, hdeltas⟩
  cases incremental with
  | false =>
    obtain ⟨c, hpull, href, hp, hs, _⟩ := @pullRelations_full u service _ _ hn
      hnode.references now
    exact ⟨c, hpull, rows_of_says href hdref hp hdp hs hds⟩
  | true =>
    rw [pullRelations_incremental]
    exact hdeltas _ now ⟨by simp, rfl⟩

end

/-- An empty repository, and a client that just subscribed to it. -/
def freshPull : PullNode where
  server := .empty
  client :=
    { ClientDb.empty with
      db := { Db.empty with
        services := Db.empty.services.insert 2 { name := "repo", scope := .shared } }
      siblingAuthors := ∅
      parentAuthors := ∅ }

def siblingSub (toTag : String) : RelationSubmission :=
  ⟨protocolVersion, .add, .sibling, "cat", toTag, "author", "", none⟩

/-- An ideal pulled by a delta, and a smaller one pulled by the next. -/
def twoIdeals : List PullEvent :=
  [.act (.bridge 0 [siblingSub "feline"]),
    .delta [(1, [⟨.sibling, ⟨"", "cat"⟩, ⟨"", "feline"⟩, "author", false, 1⟩])] 0,
    .act (.bridge 1 [siblingSub "animal"])]

theorem relationPulls_agree_twoIdeals :
    let node := run (PullNode.step .asciiText 2) freshPull twoIdeals
    let graph := node.server.relationsGraph
    let full := (freshPull.client.mergePulledRelations 2 (parseEdges .asciiText graph.siblings)
      (parseEdges .asciiText graph.parents) 0).1
    ∃ c, pullRelations .asciiText node.server node.client 2 true 0 = .ok c ∧
      c.siblingRows 2 = full.siblingRows 2 ∧ c.parentRows 2 = full.parentRows 2 := by
  have hempty : freshPull.client.References := by
    refine ⟨IdTable.unique_empty, fun k row hl => ?_, fun k st hl => ?_⟩
    · cases (AList.lookup_empty k).symm.trans hl
    · cases (AList.lookup_empty k).symm.trans hl
  have hstart : freshPull.Started .asciiText 2 := by
    refine ⟨⟨fun k r hl => ?_, fun k r hl => ?_⟩, hempty, by decide +kernel⟩
    · cases (AList.lookup_empty k).symm.trans hl
    · cases (AList.lookup_empty k).symm.trans hl
  have htexts : ∀ s ∈ ["feline", "animal"], NormalTexts .asciiText "cat" s := by
    have hparses : ∀ s ∈ ["cat", "feline", "animal"], Reparses .asciiText ⟨"", s⟩ ∧
        Tag.display ⟨"", s⟩ = s := by decide +kernel
    intro s hs
    exact ⟨⟨_, hparses "cat" (by simp)⟩, _, hparses s (List.mem_cons_of_mem _ hs)⟩
  have hrun : AllSteps (PullNode.step .asciiText 2) (PullNode.Allowed .asciiText 2) freshPull
      twoIdeals := by
    refine ⟨fun sub hsub => ?_, ⟨?_, by decide +kernel⟩, fun sub hsub => ?_, trivial⟩
    · obtain rfl := List.mem_singleton.1 hsub
      exact htexts "feline" (by simp)
    · have hinputs : deltaInputs .asciiText (pulledDelta
          (freshPull.step .asciiText 2 (.act (.bridge 0 [siblingSub "feline"]))).server
          freshPull.client 2).edges =
            [⟨.sibling, ⟨"", "cat"⟩, ⟨"", "feline"⟩, "author", false, 1⟩] := by decide +kernel
      exact hinputs ▸ List.Perm.refl _
    · obtain rfl := List.mem_singleton.1 hsub
      exact htexts "animal" (by simp)
  exact (relationPulls_agree hstart hrun hempty 0).1 true 0

end Daemon
end Naiad
