import Naiad.Bridge.Sync

/-!
# Naiad.Bridge.Mirror

What the updates of the upstream say, apart from the databases, and that passes of the bridge, cut
anywhere and run again, come to what the updates say when applied once in order.

* `Mirror.applyEntry`: one update index on definitions, mappings and relations.
* `Partly`: a mirror some writes of an index have reached.
* `triple_applyIndex`: an index applied over any part of itself is applied, and wherever it is cut
  it has reached part of itself.
-/

namespace Naiad
namespace Bridge

open Lib Netproto Server

structure Mirror where
  hashes : Nat → Option String
  tags : Nat → Option String
  mappings : Hash × String → Option MappingStatus
  relations : RelationKey → Option MappingStatus

def BridgeNode.mirror (node : BridgeNode) : Mirror where
  hashes := node.state.defsHashes.lookup
  tags := node.state.defsTags.lookup
  mappings := node.repo.statuses
  relations := node.repo.relationStatuses

/-- The updates an upstream publishes, by index, and the contents of its files. -/
structure History where
  entries : List MetadataEntry
  content : String → Except BridgeError Update
  ascending : entries.Pairwise fun a b => a.updateIndex < b.updateIndex

/-! ## The meaning of an update -/

def hashDefs (decoded : List Update) : List (Nat × String) :=
  decoded.flatMap fun u =>
    match u with
    | .definitions d => d.hashes
    | .content _ => []

def tagDefs (decoded : List Update) : List (Nat × String) :=
  decoded.flatMap fun u =>
    match u with
    | .definitions d => d.tags
    | .content _ => []

namespace Mirror

def define (m : Mirror) (decoded : List Update) : Mirror :=
  { m with
    hashes := writeAll m.hashes (hashDefs decoded)
    tags := writeAll m.tags (tagDefs decoded) }

/-- The definitions, then the mappings and relations that resolve through them. -/
def applyUpdates (u : Unicode) (bridge : Signer) (m : Mirror) (decoded : List Update) :
    Except BridgeError Mirror :=
  let m := m.define decoded
  match resolveMappings m.tags m.hashes decoded with
  | .error e => .error e
  | .ok batch => .ok {
      m with
      mappings := writeAll m.mappings (batch.filterMap bulkWrite)
      relations := writeAll m.relations
        ((buildRelationSubs u bridge m.tags decoded).map relationWrite) }

def applyEntry (u : Unicode) (bridge : Signer) (h : History) (m : Mirror)
    (entry : MetadataEntry) : Except BridgeError Mirror :=
  match entry.updateHashes.mapM h.content with
  | .error e => .error e
  | .ok decoded => m.applyUpdates u bridge decoded

def applyAll (u : Unicode) (bridge : Signer) (h : History) :
    Mirror → List MetadataEntry → Except BridgeError Mirror
  | m, [] => .ok m
  | m, entry :: entries =>
    match m.applyEntry u bridge h entry with
    | .error e => .error e
    | .ok m' => applyAll u bridge h m' entries

end Mirror

/-- The files of an entry, none when one of them cannot be read. -/
def History.decoded (h : History) (entry : MetadataEntry) : List Update :=
  match entry.updateHashes.mapM h.content with
  | .error _ => []
  | .ok decoded => decoded

def mappingWrites (m : Mirror) (decoded : List Update) : List StatusWrite :=
  match resolveMappings m.tags m.hashes decoded with
  | .error _ => []
  | .ok batch => batch.filterMap bulkWrite

/-- `x` is `m` but for the keys the updates write. -/
structure Partly (u : Unicode) (bridge : Signer) (decoded : List Update) (m x : Mirror) :
    Prop where
  hashes : AgreeOff (hashDefs decoded) x.hashes m.hashes
  tags : AgreeOff (tagDefs decoded) x.tags m.tags
  mappings : AgreeOff (mappingWrites (m.define decoded) decoded) x.mappings m.mappings
  relations : AgreeOff ((buildRelationSubs u bridge (m.define decoded).tags decoded).map
    relationWrite) x.relations m.relations

section

variable {u : Unicode} {bridge : Signer} {decoded : List Update} {m x : Mirror}

theorem Partly.refl : Partly u bridge decoded m m :=
  ⟨.refl _ _, .refl _ _, .refl _ _, .refl _ _⟩

theorem Partly.hashes_eq (h : Partly u bridge decoded m x) :
    writeAll x.hashes (hashDefs decoded) = (m.define decoded).hashes :=
  writeAll_congr h.hashes

theorem Partly.tags_eq (h : Partly u bridge decoded m x) :
    writeAll x.tags (tagDefs decoded) = (m.define decoded).tags :=
  writeAll_congr h.tags

theorem Partly.writeHashes (h : Partly u bridge decoded m x) {rows : List (Nat × String)}
    (hsub : rows ⊆ hashDefs decoded) :
    Partly u bridge decoded m { x with hashes := writeAll x.hashes rows } :=
  { h with hashes := h.hashes.writeAll_left hsub }

theorem Partly.writeTags (h : Partly u bridge decoded m x) {rows : List (Nat × String)}
    (hsub : rows ⊆ tagDefs decoded) :
    Partly u bridge decoded m { x with tags := writeAll x.tags rows } :=
  { h with tags := h.tags.writeAll_left hsub }

theorem Partly.writeMappings (h : Partly u bridge decoded m x) {ws : List StatusWrite}
    (hsub : ws ⊆ mappingWrites (m.define decoded) decoded) :
    Partly u bridge decoded m { x with mappings := writeAll x.mappings ws } :=
  { h with mappings := h.mappings.writeAll_left hsub }

theorem Partly.writeRelations (h : Partly u bridge decoded m x)
    {ws : List (RelationKey × MappingStatus)}
    (hsub : ws ⊆ (buildRelationSubs u bridge (m.define decoded).tags decoded).map relationWrite) :
    Partly u bridge decoded m { x with relations := writeAll x.relations ws } :=
  { h with relations := h.relations.writeAll_left hsub }

theorem hashDefs_append (as bs : List Update) :
    hashDefs (as ++ bs) = hashDefs as ++ hashDefs bs := List.flatMap_append

theorem tagDefs_append (as bs : List Update) :
    tagDefs (as ++ bs) = tagDefs as ++ tagDefs bs := List.flatMap_append

/-- Every definition before `done` is among those of the files. -/
theorem Partly.define (h : Partly u bridge decoded m x) {done rest : List Update}
    (hd : decoded = done ++ rest) : Partly u bridge decoded m (x.define done) := by
  have h1 : hashDefs done ⊆ hashDefs decoded := by
    rw [hd, hashDefs_append]
    exact List.subset_append_left _ _
  have h2 : tagDefs done ⊆ tagDefs decoded := by
    rw [hd, tagDefs_append]
    exact List.subset_append_left _ _
  exact (h.writeHashes h1).writeTags h2

end

/-! ## The writes of an index -/

namespace BridgeNode

@[simp] theorem mirror_insertDefsHashes (node : BridgeNode) (rows : List (Nat × String)) :
    BridgeNode.mirror { node with state := node.state.insertDefsHashes rows } =
      { node.mirror with hashes := writeAll node.mirror.hashes rows } := by
  have hl : (node.state.insertDefsHashes rows).defsHashes.lookup =
      writeAll node.state.defsHashes.lookup rows := by
    funext id
    exact lookup_insertAll rows _ id
  simp only [mirror, hl]
  rfl

@[simp] theorem mirror_insertDefsTags (node : BridgeNode) (rows : List (Nat × String)) :
    BridgeNode.mirror { node with state := node.state.insertDefsTags rows } =
      { node.mirror with tags := writeAll node.mirror.tags rows } := by
  have hl : (node.state.insertDefsTags rows).defsTags.lookup =
      writeAll node.state.defsTags.lookup rows := by
    funext id
    exact lookup_insertAll rows _ id
  simp only [mirror, hl]
  rfl

@[simp] theorem mirror_setNextUpdateIndex (node : BridgeNode) (index : Nat) :
    BridgeNode.mirror { node with state := node.state.setNextUpdateIndex index } = node.mirror :=
  rfl

end BridgeNode

theorem mapM_source {src : UpdateSource} {h : History}
    (hsrc : ∀ hash f, src.fetchUpdate hash = .ok f → h.content hash = .ok f) :
    ∀ {hashes : List String} {decoded : List Update},
      hashes.mapM src.fetchUpdate = .ok decoded → hashes.mapM h.content = .ok decoded := by
  intro hashes
  induction hashes with
  | nil => exact fun hd => hd
  | cons hash hashes ih =>
    intro decoded hd
    rw [List.mapM_cons] at hd ⊢
    cases hf : src.fetchUpdate hash with
    | error e => simp [hf, bind, Except.bind] at hd
    | ok f =>
      cases hr : hashes.mapM src.fetchUpdate with
      | error e => simp [hf, hr, bind, Except.bind] at hd
      | ok fs => simpa [hf, hr, hsrc hash f hf, ih hr, bind, Except.bind] using hd

section

variable (u : Unicode) (bridge : Signer) (h : History)

/-- The databases between two indexes: some writes of the next index made, its cursor not moved. -/
structure Pending (entry : MetadataEntry) (m : Mirror) (c : Nat) (node : BridgeNode) : Prop where
  serving : Serving node.repo.toRepoStore
  cursor : node.state.nextUpdateIndex = c
  partly : Partly u bridge (h.decoded entry) m node.mirror

/-- The databases once an index is applied. -/
structure Applied (entry : MetadataEntry) (m : Mirror) (node : BridgeNode) : Prop where
  serving : Serving node.repo.toRepoStore
  cursor : node.state.nextUpdateIndex = entry.updateIndex + 1
  mirror : m.applyEntry u bridge h entry = .ok node.mirror

end

section

variable {u : Unicode} {bridge : Signer} {h : History} {entry : MetadataEntry} {m : Mirror}
  {c : Nat}

/-- `Pending`, with the definitions of `done` in. -/
structure Defining (u : Unicode) (bridge : Signer) (decoded : List Update) (m : Mirror) (c : Nat)
    (done : List Update) (node : BridgeNode) : Prop where
  serving : Serving node.repo.toRepoStore
  cursor : node.state.nextUpdateIndex = c
  partly : ∃ x, Partly u bridge decoded m x ∧ node.mirror = x.define done

theorem Defining.pending {decoded done rest : List Update} {node : BridgeNode}
    (hd : h.decoded entry = decoded) (hrest : decoded = done ++ rest)
    (hn : Defining u bridge decoded m c done node) : Pending u bridge h entry m c node := by
  obtain ⟨x, hx, heq⟩ := hn.partly
  refine ⟨hn.serving, hn.cursor, ?_⟩
  rw [heq, hd]
  exact hx.define hrest

theorem triple_insertDefs {decoded done rest : List Update} {f : Update}
    (hd : h.decoded entry = decoded) (hrest : decoded = done ++ f :: rest) :
    Prog.Triple (Defining u bridge decoded m c done) (insertDefs f)
      (fun _ => Defining u bridge decoded m c (done ++ [f])) (Pending u bridge h entry m c) := by
  cases f with
  | content content =>
    refine .ret (fun node hn => hn.pending hd hrest) (fun node hn => ?_)
    obtain ⟨x, hx, heq⟩ := hn.partly
    refine ⟨hn.serving, hn.cursor, x, hx, ?_⟩
    rw [heq]
    simp [Mirror.define, hashDefs, tagDefs]
  | definitions d =>
    have hh : d.hashes ⊆ hashDefs decoded := by
      rw [hrest, hashDefs_append]
      exact List.subset_append_of_subset_right _ (List.subset_append_left _ _)
    have ht : d.tags ⊆ tagDefs decoded := by
      rw [hrest, tagDefs_append]
      exact List.subset_append_of_subset_right _ (List.subset_append_left _ _)
    -- the state between the two inserts
    let mid (node : BridgeNode) : Prop := Serving node.repo.toRepoStore ∧
      node.state.nextUpdateIndex = c ∧ ∃ x, Partly u bridge decoded m x ∧
        node.mirror = { x.define done with
          hashes := writeAll (x.define done).hashes d.hashes }
    have hmid : ∀ node, mid node → Pending u bridge h entry m c node := by
      intro node hn
      obtain ⟨hs, hc, x, hx, heq⟩ := hn
      refine ⟨hs, hc, ?_⟩
      rw [heq, hd]
      exact (hx.define hrest).writeHashes hh
    refine Prog.Triple.bind (Q := fun _ => mid) ?_ fun _ => ?_
    · refine .put (fun node hn => hn.pending hd hrest) (fun node hn => ?_)
      obtain ⟨x, hx, heq⟩ := hn.partly
      have hm : mid { node with state := node.state.insertDefsHashes d.hashes } := by
        refine ⟨hn.serving, hn.cursor, x, hx, ?_⟩
        rw [BridgeNode.mirror_insertDefsHashes, heq]
      exact ⟨hmid _ hm, hm⟩
    · refine .put hmid (fun node hn => ?_)
      obtain ⟨hs, hc, x, hx, heq⟩ := hn
      have hdone : Defining u bridge decoded m c (done ++ [.definitions d])
          { node with state := node.state.insertDefsTags d.tags } := by
        refine ⟨hs, hc, x, hx, ?_⟩
        rw [BridgeNode.mirror_insertDefsTags, heq]
        simp [Mirror.define, writeAll_append, hashDefs, tagDefs]
      have hleft : decoded = (done ++ [.definitions d]) ++ rest := by simpa using hrest
      exact ⟨hdone.pending hd hleft, hdone⟩

/-- `Pending`, with all definitions in and the chunks of `done` applied. -/
structure Mapping (u : Unicode) (bridge : Signer) (decoded : List Update) (m : Mirror) (c : Nat)
    (done : List (List (String × String × Bool))) (node : BridgeNode) : Prop where
  serving : Serving node.repo.toRepoStore
  cursor : node.state.nextUpdateIndex = c
  partly : ∃ x, Partly u bridge decoded m x ∧ node.mirror = { x.define decoded with
    mappings := writeAll x.mappings (done.flatten.filterMap bulkWrite) }

theorem mappingWrites_of_batch {decoded : List Update} {batch : List (String × String × Bool)}
    (hb : resolveMappings m.tags m.hashes decoded = .ok batch) :
    mappingWrites m decoded = batch.filterMap bulkWrite := by
  simp [mappingWrites, hb]

theorem Mapping.pending {decoded : List Update} {done rest : List (List (String × String × Bool))}
    {node : BridgeNode} {batch : List (String × String × Bool)} (hd : h.decoded entry = decoded)
    (hb : resolveMappings (m.define decoded).tags (m.define decoded).hashes decoded = .ok batch)
    (hrest : batch = done.flatten ++ rest.flatten)
    (hn : Mapping u bridge decoded m c done node) : Pending u bridge h entry m c node := by
  obtain ⟨x, hx, heq⟩ := hn.partly
  refine ⟨hn.serving, hn.cursor, ?_⟩
  rw [heq, hd]
  have hdef := hx.define (List.append_nil decoded).symm
  refine hdef.writeMappings ?_
  rw [mappingWrites_of_batch hb, hrest, List.filterMap_append]
  exact List.subset_append_left _ _

theorem triple_applyChunk {decoded : List Update} {done rest : List (List (String × String × Bool))}
    {chunk : List (String × String × Bool)} {batch : List (String × String × Bool)}
    (hd : h.decoded entry = decoded)
    (hb : resolveMappings (m.define decoded).tags (m.define decoded).hashes decoded = .ok batch)
    (hrest : batch = done.flatten ++ (chunk :: rest).flatten) :
    Prog.Triple (Mapping u bridge decoded m c done) (applyChunk chunk)
      (fun _ => Mapping u bridge decoded m c (done ++ [chunk])) (Pending u bridge h entry m c) := by
  refine .write (fun node hn => hn.pending hd hb hrest) ?_
  intro node node' a hn happly
  obtain ⟨st, hst, hw, hl⟩ :=
    wrote_applyMappingsBulk hn.serving.sound hn.serving.hashUniqueIndex chunk
  simp only [hst] at happly
  cases happly
  obtain ⟨x, hx, heq⟩ := hn.partly
  have hserving : Serving st.store :=
    ⟨(evolves_applyMappingsBulk hn.serving.sound hst).sound, by
      rw [hw.hashUniqueIndex, hn.serving.hashUniqueIndex]⟩
  have hm : (node.setStore st.store).mirror = { node.mirror with mappings := st.store.statuses } :=
    rfl
  have hnode : node.repo.statuses = writeAll x.mappings (done.flatten.filterMap bulkWrite) :=
    congrArg Mirror.mappings heq
  have hdone : Mapping u bridge decoded m c (done ++ [chunk]) (node.setStore st.store) := by
    refine ⟨hserving, hn.cursor, x, hx, ?_⟩
    rw [hm, hw.statuses, hnode, heq]
    simp [writeAll_append]
  have hleft : batch = (done ++ [chunk]).flatten ++ rest.flatten := by simpa using hrest
  exact ⟨hdone.pending hd hb hleft, hdone⟩

/-- `Pending`, with everything of the index in. -/
structure Settled (u : Unicode) (bridge : Signer) (h : History) (entry : MetadataEntry)
    (m : Mirror) (c : Nat) (node : BridgeNode) : Prop extends Pending u bridge h entry m c node where
  mirror : m.applyEntry u bridge h entry = .ok node.mirror

/-- `Mapping` with all chunks applied. -/
theorem Mapping.pending_all {decoded : List Update}
    {chunks : List (List (String × String × Bool))} {node : BridgeNode}
    {batch : List (String × String × Bool)} (hd : h.decoded entry = decoded)
    (hb : resolveMappings (m.define decoded).tags (m.define decoded).hashes decoded = .ok batch)
    (hflat : chunks.flatten = batch) (hn : Mapping u bridge decoded m c chunks node) :
    Pending u bridge h entry m c node := by
  have hleft : batch = chunks.flatten ++ ([] : List (List (String × String × Bool))).flatten := by
    simp [hflat]
  exact hn.pending hd hb hleft

theorem triple_applyRelations {decoded : List Update} {batch : List (String × String × Bool)}
    {chunks : List (List (String × String × Bool))} {tags : Nat → Option String} (ts : Int)
    (hmap : entry.updateHashes.mapM h.content = .ok decoded)
    (hb : resolveMappings (m.define decoded).tags (m.define decoded).hashes decoded = .ok batch)
    (htags : tags = (m.define decoded).tags) (hflat : chunks.flatten = batch) :
    Prog.Triple (Mapping u bridge decoded m c chunks)
      (applyRelations ts (buildRelationSubs u bridge tags decoded))
      (fun _ => Settled u bridge h entry m c) (Pending u bridge h entry m c) := by
  have hd : h.decoded entry = decoded := by simp [History.decoded, hmap]
  subst htags
  refine .write (fun node hn => hn.pending_all hd hb hflat) ?_
  intro node node' a hn happly
  cases hrel : node.repo.applyBridgeRelations ts
      (buildRelationSubs u bridge (m.define decoded).tags decoded) with
  | error e => simp [hrel] at happly
  | ok out =>
    obtain ⟨db, changed⟩ := out
    simp only [hrel] at happly
    cases happly
    obtain ⟨hstore, hst⟩ := relationStatuses_applyBridgeRelations hrel
    obtain ⟨x, hx, heq⟩ := hn.partly
    have hserving : Serving db.toRepoStore := by
      rcases hstore with hstore | ⟨author, hstore⟩
      · rw [hstore]
        exact hn.serving
      · rw [hstore]
        refine ⟨(evolves_ensureAccount hn.serving.sound 0 author ts).sound, ?_⟩
        rw [RepoStore.ensureAccount_index, hn.serving.hashUniqueIndex]
    have hstat : db.statuses = node.repo.statuses := by
      rcases hstore with hstore | ⟨author, hstore⟩
      · rw [hstore]
      · rw [hstore, (wrote_ensureAccount _ author ts).statuses]
        rfl
    have hmirror : BridgeNode.mirror { node with repo := db } = { node.mirror with
        relations := writeAll node.mirror.relations
          ((buildRelationSubs u bridge (m.define decoded).tags decoded).map relationWrite) } := by
      simp only [BridgeNode.mirror, hst, hstat]
    have hpend : Pending u bridge h entry m c { node with repo := db } := by
      have hp := hn.pending_all hd hb hflat
      refine ⟨hserving, hn.cursor, ?_⟩
      rw [hmirror]
      refine hp.partly.writeRelations ?_
      rw [hd]
      exact fun _ hmem => hmem
    refine ⟨hpend, { hpend with mirror := ?_ }⟩
    rw [hmirror, heq]
    have hmap' : writeAll x.mappings (batch.filterMap bulkWrite) =
        writeAll m.mappings (batch.filterMap bulkWrite) := by
      rw [← mappingWrites_of_batch hb]
      exact writeAll_congr hx.mappings
    have hrel' := writeAll_congr hx.relations
    have h1 := hx.hashes_eq
    have h2 := hx.tags_eq
    simp only [Mirror.applyEntry, hmap, Mirror.applyUpdates, hb, hflat]
    simp only [Mirror.define] at h1 h2 hrel' ⊢
    rw [h1, h2, hmap', hrel']

/-- **`triple_applyIndex`**: over any part of itself an index is applied to its end, and wherever it
is cut it has reached part of itself or its end. -/
theorem triple_applyIndex {src : UpdateSource} (ts : Int)
    (hsrc : ∀ hash f, src.fetchUpdate hash = .ok f → h.content hash = .ok f) :
    Prog.Triple (Pending u bridge h entry m c) (applyIndex u bridge ts src entry)
      (fun _ => Applied u bridge h entry m)
      (fun node => Pending u bridge h entry m c node ∨ Applied u bridge h entry m node) := by
  let P := Pending u bridge h entry m c
  let C (node : BridgeNode) : Prop := P node ∨ Applied u bridge h entry m node
  have hC : ∀ node, P node → C node := fun _ hn => .inl hn
  unfold applyIndex
  -- the files
  refine Prog.Triple.bind
    (Q := fun decoded node => P node ∧ entry.updateHashes.mapM h.content = .ok decoded)
    (.read hC fun node decoded hn hf => ⟨hn, mapM_source hsrc hf⟩) fun decoded => ?_
  by_cases hmap : entry.updateHashes.mapM h.content = .ok decoded
  rotate_left
  · exact ⟨fun node hn => absurd hn.2 hmap, fun node _ _ hn => absurd hn.2 hmap⟩
  have hd : h.decoded entry = decoded := by simp [History.decoded, hmap]
  -- the definitions
  refine Prog.Triple.bind (Q := fun _ => Defining u bridge decoded m c decoded)
    ((Prog.Triple.forEach (Defining u bridge decoded m c) decoded
      (fun node hn => hn.pending hd (List.append_nil decoded).symm)
      (fun done f rest hrest => triple_insertDefs hd hrest)).conseq
      (fun node hn => ⟨hn.1.serving, hn.1.cursor, node.mirror, hd ▸ hn.1.partly, rfl⟩)
      (fun _ _ hn => hn) hC) fun _ => ?_
  -- the id maps
  refine Prog.Triple.bind (Q := fun state node => Defining u bridge decoded m c decoded node ∧
      state.defsTags.lookup = (m.define decoded).tags ∧
      state.defsHashes.lookup = (m.define decoded).hashes)
    (.read (fun node hn => hC node (hn.pending hd (List.append_nil decoded).symm)) ?_)
    fun state => ?_
  · intro node state hn hread
    cases hread
    obtain ⟨x, hx, heq⟩ := hn.partly
    refine ⟨hn, ?_, ?_⟩
    · exact (congrArg Mirror.tags heq).trans hx.tags_eq
    · exact (congrArg Mirror.hashes heq).trans hx.hashes_eq
  by_cases hstate : state.defsTags.lookup = (m.define decoded).tags ∧
      state.defsHashes.lookup = (m.define decoded).hashes
  rotate_left
  · exact ⟨fun node hn => absurd hn.2 hstate, fun node _ _ hn => absurd hn.2 hstate⟩
  -- the batch
  refine Prog.Triple.bind (Q := fun batch node => Defining u bridge decoded m c decoded node ∧
      resolveMappings (m.define decoded).tags (m.define decoded).hashes decoded = .ok batch)
    (.read (fun node hn => hC node (hn.1.pending hd (List.append_nil decoded).symm)) ?_)
    fun batch => ?_
  · intro node batch hn hread
    rw [← hstate.1, ← hstate.2]
    exact ⟨hn.1, hread⟩
  by_cases hb : resolveMappings (m.define decoded).tags (m.define decoded).hashes decoded =
      .ok batch
  rotate_left
  · exact ⟨fun node hn => absurd hn.2 hb, fun node _ _ hn => absurd hn.2 hb⟩
  have hflat : (chunksFrom 50000 [] batch).flatten = batch := chunksFrom_flatten 50000 [] batch
  -- the chunks
  refine Prog.Triple.bind
    (Q := fun _ => Mapping u bridge decoded m c (chunksFrom 50000 [] batch))
    ((Prog.Triple.forEach (Mapping u bridge decoded m c) (chunksFrom 50000 [] batch)
      (fun node hn => hn.pending_all hd hb hflat)
      (fun done chunk rest hrest => triple_applyChunk hd hb (by
        rw [← hflat, hrest, List.flatten_append]))).conseq ?_
      (fun _ _ hn => hn) hC) fun _ => ?_
  · intro node hn
    obtain ⟨x, hx, heq⟩ := hn.1.partly
    exact ⟨hn.1.serving, hn.1.cursor, x, hx, by rw [heq]; rfl⟩
  -- the relations, and the cursor past the index
  refine Prog.Triple.bind
    ((triple_applyRelations ts hmap hb hstate.1 hflat).conseq (fun _ hn => hn) (fun _ _ hn => hn) hC)
    fun _ => ?_
  refine Prog.Triple.bind (Q := fun _ => Applied u bridge h entry m)
    (.put (fun node hn => .inl hn.toPending) ?_) fun _ => ?_
  · intro node hn
    have happlied : Applied u bridge h entry m
        { node with state := node.state.setNextUpdateIndex (entry.updateIndex + 1) } :=
      ⟨hn.serving, rfl, hn.mirror⟩
    exact ⟨.inr happlied, happlied⟩
  · exact .ret (fun node hn => .inr hn) fun node hn => hn

end

end Bridge
end Naiad
