import Naiad.Bridge.SidecarSync
import Naiad.Lib.Fallible

/-!
# Naiad.Bridge.SidecarFollow

Passes of the sidecar run one after another, each with its own batches and cut anywhere, over an
upstream that publishes more and more of its history.

* `SidecarDb.Partly`: a sidecar some writes of an index have reached.
* `triple_applyIndexBatched`: an index applied over any part of itself is applied.
* `sidecar_sync_sequential`: **once a pass ends the map is the rows applied one at a time**.
-/

namespace Naiad
namespace Bridge

open Lib Netproto Server

/-! ## Definitions -/

def hashDefRows (decoded : List Update) : List (Nat × Hash) :=
  (hashDefs decoded).filterMap fun row => (parseHashDef row).toOption

def tagDefRows (u : Unicode) (decoded : List Update) : List (Nat × String) :=
  (tagDefs decoded).filterMap (parseTagDef u)

/-- No hash definition is malformed. -/
def WellFormedDefs (decoded : List Update) : Prop :=
  ∀ row ∈ hashDefs decoded, (Hash.parse row.2).isSome = true

def SidecarDb.define (u : Unicode) (sc : SidecarDb) (decoded : List Update) : SidecarDb :=
  (sc.insertDefsHashes (hashDefRows decoded)).insertDefsTags (tagDefRows u decoded)

theorem mapM_parseHashDef (rows : List (Nat × String)) (out : List (Nat × Hash)) :
    rows.mapM parseHashDef = .ok out ↔ (∀ row ∈ rows, (Hash.parse row.2).isSome = true) ∧
      (rows.filterMap fun row => (parseHashDef row).toOption) = out := by
  induction rows generalizing out with
  | nil => simp [pure, Except.pure]
  | cons row rows ih =>
    cases hparse : Hash.parse row.2 with
    | none => simp [parseHashDef, hparse, bind, Except.bind]
    | some hash =>
      have hrow : parseHashDef row = .ok (row.1, hash) := by simp [parseHashDef, hparse]
      cases htail : rows.mapM parseHashDef with
      | error e =>
        simp only [List.mapM_cons, hrow, htail, bind, Except.bind, reduceCtorEq, false_iff, not_and]
        intro hall
        have hok := (ih _).2 ⟨fun r hr => hall r (List.mem_cons_of_mem _ hr), rfl⟩
        rw [htail] at hok
        cases hok
      | ok out' =>
        obtain ⟨hall, rfl⟩ := (ih out').1 htail
        simp only [List.mapM_cons, htail, bind, Except.bind, pure, Except.pure,
          Except.ok.injEq, List.forall_mem_cons, hparse, Option.isSome_some, true_and,
          List.filterMap_cons, Except.toOption, hrow]
        exact (and_iff_right hall).symm

theorem insertSidecarDefs_eq_ok {u : Unicode} {sc sc' : SidecarDb} {f : Update} :
    insertSidecarDefs u sc f = .ok sc' ↔ WellFormedDefs [f] ∧ sc.define u [f] = sc' := by
  cases f with
  | content c =>
    simp [insertSidecarDefs, WellFormedDefs, hashDefs, SidecarDb.define, hashDefRows, tagDefRows,
      tagDefs, SidecarDb.insertDefsHashes, SidecarDb.insertDefsTags]
  | definitions d =>
    have hwf : WellFormedDefs [.definitions d] ↔
        ∀ row ∈ d.hashes, (Hash.parse row.2).isSome = true := by
      simp [WellFormedDefs, hashDefs]
    have hdefine : sc.define u [.definitions d] =
        (sc.insertDefsHashes (d.hashes.filterMap fun row => (parseHashDef row).toOption)).insertDefsTags
          (d.tags.filterMap (parseTagDef u)) := by
      simp [SidecarDb.define, hashDefRows, tagDefRows, hashDefs, tagDefs]
    rw [hwf, hdefine]
    cases hrows : d.hashes.mapM parseHashDef with
    | error e =>
      simp only [insertSidecarDefs, hrows, reduceCtorEq, false_iff, not_and]
      intro hall
      have hok := (mapM_parseHashDef d.hashes _).2 ⟨hall, rfl⟩
      rw [hrows] at hok
      cases hok
    | ok rows =>
      obtain ⟨hall, rfl⟩ := (mapM_parseHashDef d.hashes rows).1 hrows
      simp only [insertSidecarDefs, hrows, Except.ok.injEq]
      exact (and_iff_right hall).symm

theorem define_append (u : Unicode) (sc : SidecarDb) (as bs : List Update) :
    sc.define u (as ++ bs) = (sc.define u as).define u bs := by
  simp only [SidecarDb.define, hashDefRows, tagDefRows, hashDefs_append, tagDefs_append,
    List.filterMap_append, SidecarDb.insertDefsHashes, SidecarDb.insertDefsTags, List.foldl_append]

theorem wellFormedDefs_cons (f : Update) (decoded : List Update) :
    WellFormedDefs (f :: decoded) ↔ WellFormedDefs [f] ∧ WellFormedDefs decoded := by
  have happ : hashDefs (f :: decoded) = hashDefs [f] ++ hashDefs decoded :=
    hashDefs_append [f] decoded
  simp only [WellFormedDefs, happ, List.forall_mem_append]

/-- The transaction of the definitions goes through if they are well formed. -/
theorem foldlM_insertSidecarDefs {u : Unicode} {sc sc' : SidecarDb} {decoded : List Update} :
    decoded.foldlM (insertSidecarDefs u) sc = .ok sc' ↔
      WellFormedDefs decoded ∧ sc.define u decoded = sc' := by
  induction decoded generalizing sc with
  | nil =>
    simp [pure, Except.pure, WellFormedDefs, hashDefs, SidecarDb.define, hashDefRows, tagDefRows,
      tagDefs, SidecarDb.insertDefsHashes, SidecarDb.insertDefsTags]
  | cons f decoded ih =>
    have happ : sc.define u (f :: decoded) = (sc.define u [f]).define u decoded :=
      define_append u sc [f] decoded
    rw [List.foldlM_cons, wellFormedDefs_cons, happ]
    cases hf : insertSidecarDefs u sc f with
    | error e =>
      simp only [bind, Except.bind, reduceCtorEq, false_iff, not_and]
      intro hboth
      have hok := insertSidecarDefs_eq_ok.2 ⟨hboth.1, (rfl : sc.define u [f] = sc.define u [f])⟩
      rw [hf] at hok
      cases hok
    | ok sc₁ =>
      obtain ⟨hwf, rfl⟩ := insertSidecarDefs_eq_ok.1 hf
      refine ih.trans ?_
      simp only [hwf, true_and]

namespace SidecarDb

variable {u : Unicode} {sc x : SidecarDb} {decoded : List Update}

theorem define_hashes (u : Unicode) (sc : SidecarDb) (decoded : List Update) :
    (sc.define u decoded).defsHashes.lookup =
      writeAll sc.defsHashes.lookup (hashDefRows decoded) := by
  funext id
  exact lookup_insertAll _ _ id

theorem define_tags (u : Unicode) (sc : SidecarDb) (decoded : List Update) :
    (sc.define u decoded).defsTags.lookup = writeAll sc.defsTags.lookup (tagDefRows u decoded) := by
  funext id
  exact lookup_insertAll _ _ id

@[simp] theorem define_current (u : Unicode) (sc : SidecarDb) (decoded : List Update) :
    (sc.define u decoded).current = sc.current := rfl

theorem Packed.define (h : sc.Packed) (u : Unicode) (decoded : List Update) :
    (sc.define u decoded).Packed := h

/-- What the files of an index write to the pairs of the map. -/
def pairWrites (u : Unicode) (sc : SidecarDb) (decoded : List Update) : List ((Hash × Nat) × Bool) :=
  match gather (sc.define u decoded).defsHashes.lookup decoded with
  | .error _ => []
  | .ok rows => rows.map rowWrite

/-- `x` is `sc` but for the definitions and the pairs the files write. -/
structure Partly (u : Unicode) (decoded : List Update) (sc x : SidecarDb) : Prop where
  hashes : AgreeOff (hashDefRows decoded) x.defsHashes.lookup sc.defsHashes.lookup
  tags : AgreeOff (tagDefRows u decoded) x.defsTags.lookup sc.defsTags.lookup
  current : AgreeOff (pairWrites u sc decoded) x.current sc.current

/-- The same definitions and the same pairs. -/
structure Alike (sc x : SidecarDb) : Prop where
  hashes : x.defsHashes.lookup = sc.defsHashes.lookup
  tags : x.defsTags.lookup = sc.defsTags.lookup
  current : x.current = sc.current

theorem Alike.refl (sc : SidecarDb) : Alike sc sc := ⟨rfl, rfl, rfl⟩

theorem Alike.partly (h : Alike sc x) (u : Unicode) (decoded : List Update) :
    Partly u decoded sc x := by
  refine ⟨?_, ?_, ?_⟩
  · rw [h.hashes]
    exact .refl _ _
  · rw [h.tags]
    exact .refl _ _
  · rw [h.current]
    exact .refl _ _

theorem Partly.define_hashes_eq (h : Partly u decoded sc x) :
    (x.define u decoded).defsHashes.lookup = (sc.define u decoded).defsHashes.lookup := by
  rw [define_hashes, define_hashes]
  exact writeAll_congr h.hashes

theorem Partly.define_tags_eq (h : Partly u decoded sc x) :
    (x.define u decoded).defsTags.lookup = (sc.define u decoded).defsTags.lookup := by
  rw [define_tags, define_tags]
  exact writeAll_congr h.tags

/-- With all its definitions in, a sidecar is still `sc` but for what the files write. -/
theorem partly_of_defined (hhashes : x.defsHashes.lookup = (sc.define u decoded).defsHashes.lookup)
    (htags : x.defsTags.lookup = (sc.define u decoded).defsTags.lookup)
    (hcurrent : AgreeOff (pairWrites u sc decoded) x.current sc.current) :
    Partly u decoded sc x := by
  refine ⟨?_, ?_, hcurrent⟩
  · rw [hhashes, define_hashes]
    exact (AgreeOff.refl _ _).writeAll_left (List.Subset.refl _)
  · rw [htags, define_tags]
    exact (AgreeOff.refl _ _).writeAll_left (List.Subset.refl _)

end SidecarDb

/-! ## One index -/

namespace SidecarNode

open SidecarDb

section

variable (u : Unicode) (h : History)

/-- Between two indexes: some writes of the next index made, its cursor not moved. -/
structure Pending (entry : MetadataEntry) (sc : SidecarDb) (c : Nat) (node : SidecarNode) :
    Prop where
  spec : sc.Packed
  packed : node.sidecar.Packed
  cursor : node.sidecar.nextUpdateIndex = c
  partly : SidecarDb.Partly u (h.decoded entry) sc node.sidecar

/-- Once an index is applied. -/
structure Applied (entry : MetadataEntry) (sc : SidecarDb) (node : SidecarNode) : Prop where
  packed : node.sidecar.Packed
  cursor : node.sidecar.nextUpdateIndex = entry.updateIndex + 1
  applied : ∃ sc', sc.applyEntry u h entry = .ok sc' ∧ sc'.Packed ∧ Alike sc' node.sidecar

/-- `Pending`, with all definitions in and the hashes of `done` written. -/
structure Mapping (decoded : List Update) (rows : List WireRow) (sc : SidecarDb) (c : Nat)
    (done : List Hash) (node : SidecarNode) : Prop where
  spec : sc.Packed
  packed : node.sidecar.Packed
  cursor : node.sidecar.nextUpdateIndex = c
  hashes : node.sidecar.defsHashes.lookup = (sc.define u decoded).defsHashes.lookup
  tags : node.sidecar.defsTags.lookup = (sc.define u decoded).defsTags.lookup
  current : ∃ f, AgreeOff (rows.map rowWrite) f sc.current ∧
    node.sidecar.current = writeAll f (shaWrites rows done)

end

section

variable {u : Unicode} {h : History} {entry : MetadataEntry} {sc : SidecarDb} {c : Nat}
  {decoded : List Update} {rows : List WireRow}

theorem Mapping.pending {done : List Hash} {node : SidecarNode} (hd : h.decoded entry = decoded)
    (hrows : gather (sc.define u decoded).defsHashes.lookup decoded = .ok rows)
    (hn : Mapping u decoded rows sc c done node) : Pending u h entry sc c node := by
  refine ⟨hn.spec, hn.packed, hn.cursor, ?_⟩
  rw [hd]
  refine partly_of_defined hn.hashes hn.tags ?_
  obtain ⟨f, hf, heq⟩ := hn.current
  have hwrites : pairWrites u sc decoded = rows.map rowWrite := by simp [pairWrites, hrows]
  rw [hwrites, heq]
  exact hf.writeAll_left (shaWrites_subset rows done)

theorem Mapping.applyShas {done : List Hash} {node : SidecarNode}
    (hn : Mapping u decoded rows sc c done node) (chunk : List Hash) :
    Mapping u decoded rows sc c (done ++ chunk)
      (node.setSidecar (Bridge.applyShas rows node.sidecar chunk)) := by
  obtain ⟨hpacked, hcurrent⟩ := current_applyShas rows hn.packed chunk
  have hsame := sameDefs_applyShas rows node.sidecar chunk
  obtain ⟨f, hf, heq⟩ := hn.current
  refine ⟨hn.spec, hpacked, ?_, ?_, ?_, f, hf, ?_⟩
  · exact (congrArg (Option.getD · 0) hsame.nextIndex).trans hn.cursor
  · exact (congrArg (fun t : Table Nat Hash => t.lookup) hsame.defsHashes).trans hn.hashes
  · exact (congrArg (fun t : Table Nat String => t.lookup) hsame.defsTags).trans hn.tags
  · refine hcurrent.trans ?_
    rw [heq, ← writeAll_append]
    simp [shaWrites]

/-- All batches but the last, and the last. -/
theorem flatten_dropLast_getLast {A : Type} (chunks : List (List A)) :
    chunks.dropLast.flatten ++ chunks.getLast?.getD [] = chunks.flatten := by
  rcases List.eq_nil_or_concat chunks with rfl | ⟨init, last, rfl⟩
  · rfl
  · simp

theorem triple_applySidecarRelations {relations : Option Signer} {ts : Int}
    {tags : Nat → Option String} {done : List Hash} (hd : h.decoded entry = decoded)
    (hrows : gather (sc.define u decoded).defsHashes.lookup decoded = .ok rows) :
    Prog.Triple (Mapping u decoded rows sc c done)
      (applySidecarRelations u ts relations tags decoded)
      (fun _ => Mapping u decoded rows sc c done) (Pending u h entry sc c) := by
  have hpend : ∀ node, Mapping u decoded rows sc c done node → Pending u h entry sc c node :=
    fun _ hn => hn.pending hd hrows
  cases relations with
  | none => exact .ret hpend fun _ hn => hn
  | some bridge =>
    refine .write hpend ?_
    intro node node' a hn happly
    cases hrel : node.repo.applyBridgeRelations ts (buildRelationSubs u bridge tags decoded) with
    | error e => simp [hrel] at happly
    | ok out =>
      simp only [hrel] at happly
      cases happly
      have hsame : Mapping u decoded rows sc c done { node with repo := out.1 } :=
        ⟨hn.spec, hn.packed, hn.cursor, hn.hashes, hn.tags, hn.current⟩
      exact ⟨hpend _ hsame, hsame⟩

/-- The last batch, committed with the cursor, applies the index. -/
theorem Mapping.finish {done last : List Hash} {node : SidecarNode}
    (hmap : entry.updateHashes.mapM h.content = .ok decoded) (hwf : WellFormedDefs decoded)
    (hrows : gather (sc.define u decoded).defsHashes.lookup decoded = .ok rows)
    (hlast : done ++ last = order rows) (hn : Mapping u decoded rows sc c done node) :
    Applied u h entry sc (node.setSidecar
      ((Bridge.applyShas rows node.sidecar last).setNextUpdateIndex (entry.updateIndex + 1))) := by
  have hall := hn.applyShas last
  rw [hlast] at hall
  have hspec := hn.spec.define u decoded
  obtain ⟨hpacked, hcurrent⟩ := current_applyRows hspec rows
  have hsame := sameDefs_applyRows rows (sc.define u decoded)
  refine ⟨hall.packed, rfl,
    ((sc.define u decoded).applyRows rows).setNextUpdateIndex (entry.updateIndex + 1), ?_, ?_, ?_⟩
  · have hfold : decoded.foldlM (insertSidecarDefs u) sc = .ok (sc.define u decoded) :=
      foldlM_insertSidecarDefs.2 ⟨hwf, rfl⟩
    simp [applyEntry, hmap, Except.mapError, hfold, hrows, bind, Except.bind, pure, Except.pure]
  · exact hpacked
  · refine ⟨?_, ?_, ?_⟩
    · exact hall.hashes.trans (congrArg (fun t : Table Nat Hash => t.lookup) hsame.defsHashes).symm
    · exact hall.tags.trans (congrArg (fun t : Table Nat String => t.lookup) hsame.defsTags).symm
    · obtain ⟨f, hf, heq⟩ := hall.current
      refine heq.trans ?_
      rw [writeAll_shaWrites, writeAll_congr hf]
      exact hcurrent.symm

/-- **`triple_applyIndexBatched`**: over any part of itself an index is applied to its end, and
wherever it is cut it has reached part of itself or its end. -/
theorem triple_applyIndexBatched {src : UpdateSource} (relations : Option Signer) (ts : Int)
    (batchHashes : Nat) (hsrc : ∀ hash f, src.fetchUpdate hash = .ok f → h.content hash = .ok f) :
    Prog.Triple (Pending u h entry sc c) (applyIndexBatched u relations ts src batchHashes entry)
      (fun _ => Applied u h entry sc)
      (fun node => Pending u h entry sc c node ∨ Applied u h entry sc node) := by
  let P := Pending u h entry sc c
  let C (node : SidecarNode) : Prop := P node ∨ Applied u h entry sc node
  have hC : ∀ node, P node → C node := fun _ hn => .inl hn
  unfold applyIndexBatched
  -- the files
  refine Prog.Triple.bind
    (Q := fun decoded node => P node ∧ entry.updateHashes.mapM h.content = .ok decoded)
    (.read hC fun node decoded hn hf => ⟨hn, mapM_source hsrc (mapError_eq_ok.1 hf)⟩)
    fun decoded => ?_
  by_cases hmap : entry.updateHashes.mapM h.content = .ok decoded
  rotate_left
  · exact ⟨fun node hn => absurd hn.2 hmap, fun node _ _ hn => absurd hn.2 hmap⟩
  have hd : h.decoded entry = decoded := by simp [History.decoded, hmap]
  -- the definitions
  let D (node : SidecarNode) : Prop := P node ∧ WellFormedDefs decoded ∧
    node.sidecar.defsHashes.lookup = (sc.define u decoded).defsHashes.lookup ∧
    node.sidecar.defsTags.lookup = (sc.define u decoded).defsTags.lookup
  refine Prog.Triple.bind (Q := fun _ => D) (.write (fun node hn => hC node hn.1) ?_) fun _ => ?_
  · intro node node' a hn hwrite
    cases hfold : decoded.foldlM (insertSidecarDefs u) node.sidecar with
    | error e => simp [hfold, Except.map] at hwrite
    | ok sc' =>
      simp only [hfold, Except.map, Except.ok.injEq, Prod.mk.injEq] at hwrite
      obtain ⟨rfl, -⟩ := hwrite
      obtain ⟨hwf, rfl⟩ := foldlM_insertSidecarDefs.1 hfold
      have hpartly := hn.1.partly
      rw [hd] at hpartly
      have hdefined : D (node.setSidecar (node.sidecar.define u decoded)) := by
        refine ⟨⟨hn.1.spec, hn.1.packed, hn.1.cursor, ?_⟩, hwf, ?_, ?_⟩
        · rw [hd]
          exact partly_of_defined hpartly.define_hashes_eq hpartly.define_tags_eq hpartly.current
        · exact hpartly.define_hashes_eq
        · exact hpartly.define_tags_eq
      exact ⟨hC _ hdefined.1, hdefined⟩
  -- what the content resolves through
  refine Prog.Triple.bind (Q := fun state node => D node ∧
      state.defsHashes.lookup = (sc.define u decoded).defsHashes.lookup)
    (.read (fun node hn => hC node hn.1) ?_) fun state => ?_
  · intro node state hn hread
    cases hread
    exact ⟨hn, hn.2.2.1⟩
  by_cases hstate : state.defsHashes.lookup = (sc.define u decoded).defsHashes.lookup
  rotate_left
  · exact ⟨fun node hn => absurd hn.2 hstate, fun node _ _ hn => absurd hn.2 hstate⟩
  -- the rows
  refine Prog.Triple.bind (Q := fun rows node => D node ∧
      gather (sc.define u decoded).defsHashes.lookup decoded = .ok rows)
    (.read (fun node hn => hC node hn.1.1) ?_) fun rows => ?_
  · intro node rows hn hread
    rw [← hstate]
    exact ⟨hn.1, hread⟩
  by_cases hrows : gather (sc.define u decoded).defsHashes.lookup decoded = .ok rows
  rotate_left
  · exact ⟨fun node hn => absurd hn.2 hrows, fun node _ _ hn => absurd hn.2 hrows⟩
  have hpend : ∀ done node, Mapping u decoded rows sc c done node → P node :=
    fun _ _ hn => hn.pending hd hrows
  by_cases hwf : WellFormedDefs decoded
  rotate_left
  · exact ⟨fun node hn => absurd hn.1.2.1 hwf, fun node _ _ hn => absurd hn.1.2.1 hwf⟩
  -- all batches but the last
  let chunks := chunksFrom (max 1 batchHashes) [] (order rows)
  refine Prog.Triple.bind
    (Q := fun _ => Mapping u decoded rows sc c chunks.dropLast.flatten)
    ((Prog.Triple.forEach (fun done => Mapping u decoded rows sc c done.flatten) chunks.dropLast
      (fun node hn => hC node (hpend _ node hn)) (fun done chunk rest _ => ?_)).conseq ?_
      (fun _ _ hn => hn) (fun _ hn => hn)) fun _ => ?_
  · refine .put (fun node hn => hC node (hpend _ node hn)) fun node hn => ?_
    have hnext : Mapping u decoded rows sc c (done ++ [chunk]).flatten
        (node.setSidecar (Bridge.applyShas rows node.sidecar chunk)) := by
      simpa using hn.applyShas chunk
    exact ⟨hC _ (hpend _ _ hnext), hnext⟩
  · intro node hn
    obtain ⟨⟨hp, _, hhashes, htags⟩, _⟩ := hn
    have hpartly := hp.partly.current
    have hwrites : pairWrites u sc decoded = rows.map rowWrite := by simp [pairWrites, hrows]
    rw [hd, hwrites] at hpartly
    exact ⟨hp.spec, hp.packed, hp.cursor, hhashes, htags, _, hpartly, rfl⟩
  -- the relations, then the last batch with the cursor
  refine Prog.Triple.bind ((triple_applySidecarRelations hd hrows).conseq (fun _ hn => hn)
    (fun _ _ hn => hn) hC) fun _ => ?_
  refine Prog.Triple.bind (Q := fun _ => Applied u h entry sc)
    (.put (fun node hn => hC node (hpend _ node hn)) fun node hn => ?_)
    fun _ => .ret (fun _ hn => .inr hn) fun _ hn => hn
  have hlast : chunks.dropLast.flatten ++ chunks.getLast?.getD [] = order rows := by
    rw [flatten_dropLast_getLast, chunksFrom_flatten, List.nil_append]
  have happlied := hn.finish hmap hwf hrows hlast
  exact ⟨.inr happlied, happlied⟩

end

/-! ## One pass -/

section

variable (u : Unicode) (h : History)

/-- A sidecar with the updates before `todo` applied and, it may be, the first of them begun. -/
def Near (sc x : SidecarDb) : List MetadataEntry → Prop
  | [] => Alike sc x
  | entry :: _ => SidecarDb.Partly u (h.decoded entry) sc x

/-- Of the updates after `start`, those of `done` are applied and the next may be begun. -/
structure Progress (start : SidecarDb) (c : Nat) (done todo : List MetadataEntry)
    (node : SidecarNode) : Prop where
  packed : node.sidecar.Packed
  cursor : node.sidecar.nextUpdateIndex = cursorAfter c done
  applied : ∃ sc, start.applyAll u h done = .ok sc ∧ sc.Packed ∧ Near u h sc node.sidecar todo

end

section

variable {u : Unicode} {h : History} {start : SidecarDb} {c : Nat}

theorem Near.of_alike {sc x : SidecarDb} (hx : Alike sc x) (todo : List MetadataEntry) :
    Near u h sc x todo := by
  cases todo with
  | nil => exact hx
  | cons entry todo => exact hx.partly u _

theorem Near.more {sc x : SidecarDb} {todo : List MetadataEntry} (hn : Near u h sc x todo)
    (more : List MetadataEntry) : Near u h sc x (todo ++ more) := by
  cases todo with
  | nil => exact .of_alike hn _
  | cons entry todo => exact hn

theorem Progress.more {done todo : List MetadataEntry} {node : SidecarNode}
    (hp : Progress u h start c done todo node) (more : List MetadataEntry) :
    Progress u h start c done (todo ++ more) node := by
  obtain ⟨sc, hsc, hpacked, hn⟩ := hp.applied
  exact ⟨hp.packed, hp.cursor, sc, hsc, hpacked, hn.more more⟩

theorem applyAll_snoc {sc sc' : SidecarDb} {done : List MetadataEntry} {entry : MetadataEntry}
    (hdone : start.applyAll u h done = .ok sc) (he : sc.applyEntry u h entry = .ok sc') :
    start.applyAll u h (done ++ [entry]) = .ok sc' := by
  rw [applyAll] at hdone ⊢
  simp [List.foldlM_append, hdone, he, bind, Except.bind, pure, Except.pure]

/-- The updates left are applied one after another; a cut leaves some of them applied. -/
theorem triple_applySidecarEntries {src : UpdateSource} (relations : Option Signer) (ts : Int)
    (batchHashes : Nat) (hsrc : ∀ hash f, src.fetchUpdate hash = .ok f → h.content hash = .ok f)
    (todo done : List MetadataEntry) :
    Prog.Triple (Progress u h start c done todo)
      (applySidecarEntries u relations ts src batchHashes todo)
      (fun _ => Progress u h start c (done ++ todo) [])
      (fun node => ∃ d t, d ++ t = done ++ todo ∧ Progress u h start c d t node) := by
  induction todo generalizing done with
  | nil =>
    refine .ret (fun node hn => ⟨done, [], rfl, hn⟩) fun node hn => ?_
    rw [List.append_nil]
    exact hn
  | cons entry todo ih =>
    let C (node : SidecarNode) : Prop := ∃ d t, d ++ t = done ++ entry :: todo ∧
      Progress u h start c d t node
    have hassoc : done ++ entry :: todo = done ++ [entry] ++ todo := by simp
    -- the entry once applied is progress
    have hnext : ∀ sc node, start.applyAll u h done = .ok sc → Applied u h entry sc node →
        Progress u h start c (done ++ [entry]) todo node := by
      intro sc node hsc hn
      obtain ⟨sc', happly, hpacked, halike⟩ := hn.applied
      refine ⟨hn.packed, ?_, sc', applyAll_snoc hsc happly, hpacked, .of_alike halike todo⟩
      rw [cursorAfter_append, hn.cursor]
    have hone : Prog.Triple (Progress u h start c done (entry :: todo))
        (applyIndexBatched u relations ts src batchHashes entry)
        (fun _ => Progress u h start c (done ++ [entry]) todo) C := by
      constructor
      · intro node hn node' hcut
        obtain ⟨sc, hsc, hpacked, hnear⟩ := hn.applied
        have hpend : Pending u h entry sc (cursorAfter c done) node :=
          ⟨hpacked, hn.packed, hn.cursor, hnear⟩
        rcases (triple_applyIndexBatched relations ts batchHashes hsrc).crash node hpend node' hcut
          with hp | ha
        · exact ⟨done, entry :: todo, rfl, hp.packed, hp.cursor, sc, hsc, hpacked, hp.partly⟩
        · exact ⟨done ++ [entry], todo, hassoc.symm, hnext sc node' hsc ha⟩
      · intro node applied node' hn hr
        obtain ⟨sc, hsc, hpacked, hnear⟩ := hn.applied
        have hpend : Pending u h entry sc (cursorAfter c done) node :=
          ⟨hpacked, hn.packed, hn.cursor, hnear⟩
        exact hnext sc node' hsc ((triple_applyIndexBatched relations ts batchHashes hsrc).post
          node applied node' hpend hr)
    refine hone.bind fun _ => ?_
    have hrest : Prog.Triple (Progress u h start c (done ++ [entry]) todo)
        (applySidecarEntries u relations ts src batchHashes todo)
        (fun _ => Progress u h start c (done ++ entry :: todo) []) C := by
      rw [hassoc]
      refine (ih (done ++ [entry])).conseq (fun _ hn => hn) (fun _ _ hn => hn) fun node hex => ?_
      obtain ⟨d, t, hdt, hn⟩ := hex
      exact ⟨d, t, hdt.trans hassoc.symm, hn⟩
    refine hrest.bind fun _ => ?_
    exact .ret (fun node hn => ⟨done ++ entry :: todo, [], by simp, hn⟩) fun node hn => hn

/-- **`triple_sidecarSyncOnce`**: a pass that ends has applied every update it could see. -/
theorem triple_sidecarSyncOnce {k : Nat} {src : UpdateSource} (relations : Option Signer) (ts : Int)
    (batchHashes : Nat) (hsrc : Serves h k src) {done todo : List MetadataEntry}
    (hpub : h.published c k = done ++ todo) :
    Prog.Triple (Progress u h start c done todo) (sidecarSyncOnce u relations ts src batchHashes)
      (fun _ => Progress u h start c (done ++ todo) [])
      (fun node => ∃ d t, d ++ t = done ++ todo ∧ Progress u h start c d t node) := by
  let P := Progress u h start c done todo
  have hP : ∀ node, P node →
      ∃ d t, d ++ t = done ++ todo ∧ Progress u h start c d t node :=
    fun node hn => ⟨done, todo, rfl, hn⟩
  unfold sidecarSyncOnce
  refine Prog.Triple.bind (Q := fun since node => P node ∧ since = cursorAfter c done)
    (.read hP ?_) fun since => ?_
  · intro node since hn hread
    cases hread
    exact ⟨hn, hn.cursor⟩
  by_cases hsince : since = cursorAfter c done
  rotate_left
  · exact ⟨fun node hn => absurd hn.2 hsince, fun node _ _ hn => absurd hn.2 hsince⟩
  subst hsince
  refine Prog.Triple.bind
    (Q := fun entries node => P node ∧ pendingEntries (cursorAfter c done) entries = todo)
    (.read (fun node hn => hP node hn.1) ?_) fun entries => ?_
  · intro node entries hn hread
    exact ⟨hn.1, pendingEntries_eq hsrc hpub (mapError_eq_ok.1 hread)⟩
  by_cases hentries : pendingEntries (cursorAfter c done) entries = todo
  rotate_left
  · exact ⟨fun node hn => absurd hn.2 hentries, fun node _ _ hn => absurd hn.2 hentries⟩
  rw [hentries]
  exact (triple_applySidecarEntries relations ts batchHashes hsrc.content todo done).conseq
    (fun _ hn => hn.1) (fun _ _ hn => hn) (fun _ hn => hn)

end

/-! ## Passes -/

section

variable (u : Unicode) (h : History)

/-- A pass with batches of its own, begun in one state of the files and cut, or ended, in another;
by then at least as many updates are published as before. -/
def Pass (a b : SidecarNode × Nat) : Prop :=
  ∃ relations ts src batchHashes, a.2 ≤ b.2 ∧ Serves h b.2 src ∧
    b.1 ∈ (sidecarSyncOnce u relations ts src batchHashes).cuts a.1

/-- Where passes leave the files after `seen` published updates: the cursor is past updates applied
whole and only pairs of the next one may have been written; a pass that ends, whatever its batches,
leaves the map and the cursor that the rows leave when applied one at a time. -/
structure Standing (start node : SidecarNode) (seen : Nat) : Prop where
  applied : ∃ done todo sc, h.published start.sidecar.nextUpdateIndex seen = done ++ todo ∧
    start.sidecar.applyAll u h done = .ok sc ∧ sc.nextUpdateIndex = node.sidecar.nextUpdateIndex ∧
    Near u h sc node.sidecar todo
  complete : ∀ relations ts src batchHashes k applied node', seen ≤ k → Serves h k src →
    (sidecarSyncOnce u relations ts src batchHashes).Returns node applied node' →
    ∃ sc, start.sidecar.applyAll u h (h.published start.sidecar.nextUpdateIndex k) = .ok sc ∧
      (∀ hash, node'.sidecar.bucketMap.lookup hash = sc.bucketMap.lookup hash) ∧
      node'.sidecar.nextUpdateIndex = sc.nextUpdateIndex

end

section

variable {u : Unicode} {h : History} {start : SidecarDb} {c : Nat}

/-- `Progress` over the updates published so far. -/
def Reached (u : Unicode) (h : History) (start : SidecarDb) (c : Nat) (a : SidecarNode × Nat) :
    Prop :=
  ∃ done todo, h.published c a.2 = done ++ todo ∧ Progress u h start c done todo a.1

/-- More updates published leave the files where they are. -/
theorem Reached.publish {node : SidecarNode} {seen k : Nat} (hk : seen ≤ k)
    (hr : Reached u h start c (node, seen)) : Reached u h start c (node, k) := by
  obtain ⟨done, todo, hpub, hp⟩ := hr
  obtain ⟨more, hmore⟩ := published_mono h c hk
  exact ⟨done, todo ++ more, by rw [hmore, hpub, List.append_assoc], hp.more more⟩

theorem Reached.passes {a b : SidecarNode × Nat} (hr : Reached u h start c a)
    (hruns : Relation.ReflTransGen (Pass u h) a b) : Reached u h start c b := by
  induction hruns with
  | refl => exact hr
  | @tail a' b' _ hpass ih =>
    obtain ⟨relations, ts, src, batchHashes, hk, hsrc, hcut⟩ := hpass
    obtain ⟨done, todo, hpub, hprog⟩ := ih.publish hk
    obtain ⟨d, t, hdt, hd⟩ :=
      (triple_sidecarSyncOnce relations ts batchHashes hsrc hpub).crash a'.1 hprog b'.1 hcut
    exact ⟨d, t, hpub.trans hdt.symm, hd⟩

end

/-- The files where a first pass over the sample history is cut after its first write. -/
def sampleCut : SidecarNode :=
  ((sidecarSyncOnce .plainText none 0 sampleSource 1) .empty).visited.headD .empty

end SidecarNode

end Bridge
end Naiad
