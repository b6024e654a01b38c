import Naiad.Bridge.Agree
import Naiad.Bridge.Parity
import Naiad.Bridge.SidecarCompose

/-!
# Naiad.Bridge.SameTags

A mirror and a sidecar seeded from one snapshot and brought up to date by passes over the same
updates.

* `mirror_of_seed`, `SidecarSeed.sidecar_of_seed`: what each holds after its seed.
* `MirrorDb.Clean`: when the seeds agree.
* `same_tags`: **after clean seeds and regular updates both return the same tags**.
-/

namespace Naiad
namespace Bridge

open Lib Netproto Server

/-! ## The seeds -/

section

variable {u : Unicode} {db : MirrorDb}

/-- The mirror after its seed. -/
theorem mirror_of_seed {bridge : Signer} {ts : Int} {generation : String} {node : BridgeNode}
    (hseed : (seedRun (db.snapshot u) bridge ts generation false).Returns .empty () node) :
    Serving node.repo.toRepoStore ∧
      node.repo.statuses = lastWrite ((db.snapshot u).items.filterMap bulkWrite) ∧
      node.state.defsHashes.lookup = lastWrite (db.snapshot u).hashDefs ∧
      node.state.defsTags.lookup = lastWrite (db.streamPtrTagIdMap u) ∧
      node.state.nextUpdateIndex = db.nextIndex := by
  have hserving : Serving BridgeNode.empty.repo.toRepoStore := ⟨RepoStore.sound_empty, rfl⟩
  have hdone := seeded_of_returns hserving rfl hseed
  have hphases := phases_of_returns hserving rfl hseed
  have hblank : ∀ {K V : Type} [DecidableEq K] (ws : List (K × V)) (f : K → Option V),
      (∀ k, f k = none) → writeAll f ws = lastWrite ws := by
    intro K V _ ws f hf
    funext k
    rw [writeAll_apply, hf k, Option.or_none]
  refine ⟨hdone.serving, ?_, ?_, ?_, hphases.cursor⟩
  · rw [hdone.statuses]
    exact hblank _ _ fun _ => rfl
  · rw [hphases.hashes]
    exact hblank _ _ fun _ => rfl
  · rw [hphases.tags]
    exact hblank _ _ fun _ => rfl

end

namespace SidecarSeed

section

variable {u : Unicode} {h : History} {k : Nat} {db : HydrusDb}

theorem triple_defs :
    Prog.Triple (fun node => node.sidecar.defsHashes = ∅ ∧ node.sidecar.defsTags = ∅ ∧
        node.sidecar.seedDefsDone = false)
      (phaseD u db)
      (fun _ node => node.sidecar.defsHashes.lookup = lastWrite db.streamPtrHashIdMap ∧
        node.sidecar.defsTags.lookup = lastWrite (db.streamPtrTagIdMap u))
      (fun _ => True) := by
  let H (rows : List (Nat × Hash)) (node : SidecarNode) : Prop :=
    node.sidecar.defsHashes.lookup = lastWrite rows ∧ node.sidecar.defsTags = ∅
  let T (rows : List (Nat × String)) (node : SidecarNode) : Prop :=
    node.sidecar.defsHashes.lookup = lastWrite db.streamPtrHashIdMap ∧
      node.sidecar.defsTags.lookup = lastWrite rows
  have hmore : ∀ {V : Type} (table : Table Nat V) (rows more : List (Nat × V)),
      table.lookup = lastWrite rows →
      (more.foldl (fun t r => t.insert r.1 r.2) table).lookup = lastWrite (rows ++ more) := by
    intro V table rows more htable
    funext id
    rw [lookup_insertAll, writeAll_apply, lastWrite_append]
    exact congrArg (Option.or _) (congrFun htable id)
  unfold phaseD
  refine Prog.Triple.bind (Q := fun done node => (node.sidecar.defsHashes = ∅ ∧
      node.sidecar.defsTags = ∅) ∧ done = false)
    (.read (fun _ _ => trivial) fun node done hn hread => ?_) fun done => ?_
  · cases hread
    exact ⟨⟨hn.1, hn.2.1⟩, hn.2.2⟩
  cases done with
  | true => exact ⟨fun node hn => absurd hn.2 (by simp), fun node _ _ hn => absurd hn.2 (by simp)⟩
  | false =>
    unfold defsPhase
    have hhashes : Prog.Triple (H []) (Prog.forEach (fun chunk => onSidecar fun sc =>
        sc.insertDefsHashes chunk) (chunksFrom defsBatch [] db.streamPtrHashIdMap))
        (fun _ => H (chunksFrom defsBatch [] db.streamPtrHashIdMap).flatten) (fun _ => True) := by
      refine .forEach (fun chunks => H chunks.flatten) _ (fun _ _ => trivial)
        fun chunks chunk _ _ => .put (fun _ _ => trivial) fun node hn => ⟨trivial, ?_, hn.2⟩
      simp only [List.flatten_append, List.flatten_cons, List.flatten_nil, List.append_nil]
      exact hmore _ _ chunk hn.1
    have htags : Prog.Triple (T []) (Prog.forEach (fun chunk => onSidecar fun sc =>
        sc.insertDefsTags chunk) (chunksFrom defsBatch [] (db.streamPtrTagIdMap u)))
        (fun _ => T (chunksFrom defsBatch [] (db.streamPtrTagIdMap u)).flatten)
        (fun _ => True) := by
      refine .forEach (fun chunks => T chunks.flatten) _ (fun _ _ => trivial)
        fun chunks chunk _ _ => .put (fun _ _ => trivial) fun node hn => ⟨trivial, hn.1, ?_⟩
      simp only [List.flatten_append, List.flatten_cons, List.flatten_nil, List.append_nil]
      exact hmore _ _ chunk hn.2
    rw [chunksFrom_flatten, List.nil_append] at hhashes htags
    refine Prog.Triple.bind (Q := fun _ => T [])
      (hhashes.conseq (fun node hn => ⟨?_, hn.1.2⟩) (fun _ node hn => ⟨hn.1, ?_⟩) fun _ hn => hn)
        fun _ => ?_
    · rw [hn.1.1]
      rfl
    · rw [hn.2]
      rfl
    exact htags.bind fun _ => .put (fun _ _ => trivial) fun node hn => ⟨trivial, hn⟩

/-- Phase M leaves the definitions alone. -/
theorem triple_phaseM_defs {F : SidecarNode → Prop}
    (hF : ∀ node map staging done, F node →
      F ⟨{ node.sidecar with bucketMap := map, seedMergeDone := done }, staging, node.repo⟩) :
    Prog.Triple F (phaseM u db) (fun _ => F) F := by
  have hstaging : ∀ f : SidecarNode → Option Staging,
      Prog.Triple F (.put fun node => { node with staging := f node } : SidecarM Unit)
        (fun _ => F) F := by
    refine fun f => .put (fun _ hn => hn) fun node hn => ?_
    have hnext := hF node node.sidecar.bucketMap (f node) node.sidecar.seedMergeDone hn
    exact ⟨hnext, hnext⟩
  unfold phaseM
  refine Prog.Triple.bind (Q := fun _ => F) (.read (fun _ hn => hn) fun _ _ hn _ => hn)
    fun done => ?_
  cases done with
  | true => exact hstaging _
  | false =>
    unfold mappingsPhase
    cases db.maxCurrentHashId with
    | none => exact .ret (fun _ hn => hn) fun _ hn => hn
    | some maxHashId =>
      refine Prog.Triple.bind (Q := fun _ => F) (.read (fun _ hn => hn) fun _ _ hn _ => hn)
        fun translate => ?_
      refine (hstaging _).bind fun _ => ?_
      refine Prog.Triple.bind (Q := fun _ => F) (.forEach (fun _ => F) _ (fun _ hn => hn)
        fun _ i _ _ => ?_) fun _ => ?_
      · unfold stageBand
        refine Prog.Triple.bind (Q := fun _ => F) (.read (fun _ hn => hn) fun _ _ hn _ => hn)
          fun skipped => ?_
        cases skipped with
        | true => exact .ret (fun _ hn => hn) fun _ hn => hn
        | false => exact hstaging _
      · unfold mergeStaging
        refine Prog.Triple.bind (Q := fun _ => F) (.put (fun _ hn => hn) fun node hn => ?_)
          fun _ => Prog.Triple.bind (Q := fun _ => F) (.put (fun _ hn => hn) fun node hn => ?_)
            fun _ => hstaging _
        · have hnext := hF node (node.sidecar.mergeBuckets node.staged.buckets).bucketMap
            node.staging node.sidecar.seedMergeDone hn
          exact ⟨hnext, hnext⟩
        · have hnext := hF node node.sidecar.bucketMap node.staging true hn
          exact ⟨hnext, hnext⟩

/-- The map holds the pairs of the snapshot. -/
def Held (u : Unicode) (db : HydrusDb) (node : SidecarNode) : Prop :=
  node.sidecar.Packed ∧ ∀ sha id, id ∈ node.sidecar.readTagSet sha ↔
    db.Pair (lastWrite (db.streamPtrTagTranslation u)) sha id

theorem held_merge (hs : SnapshotOf h k db) {translate : Nat → Option Nat}
    (htranslate : translation u db = .ok translate) {node : SidecarNode}
    (hmap : node.sidecar.bucketMap = ∅) (hstaged : StagedFrom u db node.staged)
    (hbands : ∀ m ∈ db.currentMappings, m.1 / idBand ∈ node.staged.bandDone) :
    Held u db (node.setSidecar (node.sidecar.mergeBuckets node.staged.buckets)) := by
  have hrows := hstaged translate htranslate
  have hlookup := hs.lookup_merge translate node.staged.bandDone node.sidecar
  rw [← hrows] at hlookup
  rw [Held, ← translation_eq_ok htranslate]
  constructor
  · intro sha ids hl
    rcases hlookup sha with ⟨ids', hl', hne, hpw, _⟩ | ⟨_, hold⟩
    · cases hl.symm.trans hl'
      exact ⟨hne, hpw⟩
    · rw [hmap] at hold
      cases hl.symm.trans hold
  · intro sha id
    rcases hlookup sha with ⟨ids, hl, _, _, hmem⟩ | ⟨hnone, hold⟩
    · rw [SidecarNode.setSidecar, SidecarDb.readTagSet, hl]
      exact hmem id
    · rw [SidecarNode.setSidecar, SidecarDb.readTagSet, hold, hmap]
      simp only [AList.lookup_empty, Option.getD_none, List.not_mem_nil, false_iff]
      -- a pair would have been staged with its band
      rintro ⟨hashId, tagId, hm, hsha, htag⟩
      obtain ⟨ids, hids, _⟩ := mem_stagedRows.2 ⟨hashId, tagId, hm, rfl, hsha, htag⟩
      exact hnone _ (hbands _ hm) ids hids

theorem triple_stageBand_map {translate : Nat → Option Nat} {i : Nat} :
    Prog.Triple (fun node => node.sidecar.bucketMap = ∅) (stageBand db translate i)
      (fun _ node => node.sidecar.bucketMap = ∅) (fun _ => True) := by
  unfold stageBand
  refine Prog.Triple.bind (Q := fun _ node => node.sidecar.bucketMap = ∅)
    (.read (fun _ _ => trivial) fun _ _ hn _ => hn) fun skipped => ?_
  cases skipped with
  | true => exact .ret (fun _ _ => trivial) fun _ hn => hn
  | false => exact .put (fun _ _ => trivial) fun _ hn => ⟨trivial, hn⟩

/-- Over an empty map the merge leaves the pairs of the snapshot. -/
theorem triple_held (hs : SnapshotOf h k db) :
    Prog.Triple (fun node => Unmerged u h k db node ∧ node.sidecar.bucketMap = ∅) (phaseM u db)
      (fun _ => Held u db) (fun _ => True) := by
  let B (node : SidecarNode) : Prop := Unmerged u h k db node ∧ node.sidecar.bucketMap = ∅
  unfold phaseM
  refine Prog.Triple.bind (Q := fun done node => B node ∧ done = false)
    (.read (fun _ _ => trivial) fun node done hn hread => ?_) fun done => ?_
  · cases hread
    exact ⟨hn, hn.1.notDone⟩
  cases done with
  | true => exact ⟨fun node hn => absurd hn.2 (by simp), fun node _ _ hn => absurd hn.2 (by simp)⟩
  | false =>
    unfold mappingsPhase
    cases hmax : db.maxCurrentHashId with
    | none =>
      have hnone : db.currentMappings = [] := by simpa [HydrusDb.maxCurrentHashId] using hmax
      refine .ret (fun _ _ => trivial) fun node hn => ⟨hn.1.1.tidy.packed, fun sha id => ?_⟩
      simp [SidecarDb.readTagSet, hn.1.2, HydrusDb.Pair, hnone]
    | some maxHashId =>
      have hband : ∀ m ∈ db.currentMappings, m.1 / idBand ∈ List.range (maxHashId / idBand + 1) := by
        intro m hm
        have hle : m.1 ≤ maxHashId :=
          (List.max?_eq_some_iff.1 hmax).2 m.1 (List.mem_map_of_mem hm)
        have := Nat.div_le_div_right (c := idBand) hle
        simp
        omega
      refine Prog.Triple.bind (Q := fun translate node => B node ∧ translation u db = .ok translate)
        (.read (fun _ _ => trivial) fun node translate hn hread => ⟨hn.1, hread⟩) fun translate => ?_
      by_cases htranslate : translation u db = .ok translate
      rotate_left
      · exact ⟨fun node hn => absurd hn.2 htranslate, fun node _ _ hn => absurd hn.2 htranslate⟩
      refine Prog.Triple.bind (Q := fun _ => B) (.put (fun _ _ => trivial) fun node hn =>
        ⟨trivial, ⟨⟨hn.1.1.tidy.packed, hn.1.1.tidy.idband, hn.1.1.tidy.cursor⟩, hn.1.1.notDone,
          hn.1.1.staged, hn.1.1.stale⟩, hn.1.2⟩) fun _ => ?_
      let inv (bands : List Nat) (node : SidecarNode) : Prop :=
        (Unmerged u h k db node ∧ ∀ j ∈ bands, j ∈ node.staged.bandDone) ∧
          node.sidecar.bucketMap = ∅
      refine Prog.Triple.bind (Q := fun _ => inv (List.range (maxHashId / idBand + 1)))
        ((Prog.Triple.forEach inv (List.range (maxHashId / idBand + 1)) (fun _ _ => trivial)
          fun bands i _ _ => ?_).conseq (fun _ hn => ⟨⟨hn.1, by simp⟩, hn.2⟩) (fun _ _ hn => hn)
            fun _ hn => hn) fun _ => ?_
      · exact ((triple_stageBand i bands htranslate).and triple_stageBand_map).conseq
          (fun _ hn => hn) (fun _ _ hn => hn) fun _ _ => trivial
      unfold mergeStaging
      refine Prog.Triple.bind (Q := fun _ => Held u db) (.put (fun _ _ => trivial) fun node hn =>
        ⟨trivial, held_merge hs htranslate hn.2 hn.1.1.staged fun m hm => hn.1.2 _ (hband m hm)⟩)
          fun _ => ?_
      exact Prog.Triple.bind (Q := fun _ => Held u db)
        (.put (fun _ _ => trivial) fun node hn => ⟨trivial, hn⟩)
        fun _ => .put (fun _ _ => trivial) fun node hn => ⟨trivial, hn⟩

/-- The sidecar after its seed. -/
theorem sidecar_of_seed (hs : SnapshotOf h k db) {side : SidecarNode}
    (hseed : (seed u db false).Returns .empty () side) :
    Held u db side ∧ side.sidecar.defsHashes.lookup = lastWrite db.streamPtrHashIdMap ∧
      side.sidecar.defsTags.lookup = lastWrite (db.streamPtrTagIdMap u) ∧
      side.sidecar.nextUpdateIndex = db.nextIndex := by
  let B (node : SidecarNode) : Prop := Unmerged u h k db node ∧ node.sidecar.bucketMap = ∅
  let D (node : SidecarNode) : Prop :=
    node.sidecar.defsHashes.lookup = lastWrite db.streamPtrHashIdMap ∧
      node.sidecar.defsTags.lookup = lastWrite (db.streamPtrTagIdMap u)
  have hblank : B .empty := by
    refine ⟨⟨⟨SidecarDb.packed_empty, rfl, Nat.zero_le _⟩, rfl, fun _ _ => rfl, ?_⟩, rfl⟩
    intro sha _ id hid
    simp [SidecarNode.empty, SidecarDb.empty, SidecarDb.readTagSet] at hid
  have hload : Prog.Triple (fun node => node = .empty) (load u db)
      (fun _ node => Held u db node ∧ D node ∧ node.sidecar.nextUpdateIndex = db.nextIndex)
      (fun _ => True) := by
    unfold load
    refine Prog.Triple.bind (Q := fun _ node => D node ∧ B node)
      ((triple_defs.and (triple_phaseD (F := B) db fun node _ _ _ hn => ⟨⟨⟨hn.1.tidy.packed,
        hn.1.tidy.idband, hn.1.tidy.cursor⟩, hn.1.notDone, hn.1.staged, hn.1.stale⟩, hn.2⟩)).conseq
          ?_ (fun _ _ hn => hn) fun _ _ => trivial) fun _ => ?_
    · intro node hn
      rw [hn]
      exact ⟨⟨rfl, rfl, rfl⟩, hblank⟩
    refine Prog.Triple.bind (Q := fun _ node => D node ∧ Held u db node)
      (((triple_phaseM_defs (F := D) fun _ _ _ _ hn => hn).and (triple_held hs)).conseq
        (fun _ hn => hn) (fun _ _ hn => hn) fun _ _ => trivial) fun _ => ?_
    exact .put (fun _ _ => trivial) fun node hn => ⟨trivial, hn.2, hn.1, rfl⟩
  obtain ⟨hheld, ⟨hhashes, htags⟩, hcursor⟩ := hload.post .empty () side rfl hseed
  exact ⟨hheld, hhashes, htags, hcursor⟩

end

end SidecarSeed

/-! ## The seeds agree -/

namespace MirrorDb

variable (u : Unicode) (db : MirrorDb)

/-- No file has a tag that is current under one raw text and deleted under another, and the service
has an id for every tag that a file has. -/
structure Clean : Prop where
  apart : ∀ h tag, db.Maps u db.currentMappings h tag → ¬ db.Maps u db.deletedMappings h tag
  named : ∀ m ∈ db.currentMappings, (db.sha256 m.1).isSome = true →
    (db.tagText u m.2).isSome = true → ∃ id, (id, m.2) ∈ db.tagIdMap

variable {u} {db}

theorem mem_tagDefs {id : Nat} {tag : String} :
    (id, tag) ∈ db.streamPtrTagIdMap u ↔
      ∃ tagId, (id, tagId) ∈ db.tagIdMap ∧ db.tagText u tagId = some tag := by
  simp only [HydrusDb.streamPtrTagIdMap, List.mem_filterMap, tagText, Option.bind_eq_some_iff,
    parseTagDef]
  constructor
  · rintro ⟨⟨id', tagId⟩, hm, raw, hraw, hparse⟩
    split at hparse
    · cases hparse
    · rename_i t ht
      cases hparse
      exact ⟨tagId, hm, raw, hraw, by simp [ht]⟩
  · rintro ⟨tagId, hm, raw, hraw, hparse⟩
    split at hparse
    · cases hparse
    · rename_i t ht
      cases hparse
      exact ⟨(id, tagId), hm, raw, hraw, by simp [ht]⟩

theorem mem_translation {tagId id : Nat} :
    (tagId, id) ∈ db.streamPtrTagTranslation u ↔
      (id, tagId) ∈ db.tagIdMap ∧ (db.tagText u tagId).isSome = true := by
  simp only [HydrusDb.streamPtrTagTranslation, List.mem_filterMap, tagText,
    Option.isSome_iff_exists, Option.bind_eq_some_iff]
  constructor
  · rintro ⟨⟨id', tagId'⟩, hm, raw, hraw, hparse⟩
    split at hparse
    · cases hparse
    · rename_i t ht
      cases hparse
      exact ⟨hm, t.display, raw, hraw, by simp [ht]⟩
  · rintro ⟨hm, tag, raw, hraw, hparse⟩
    split at hparse
    · cases hparse
    · rename_i t ht
      exact ⟨(id, tagId), hm, raw, hraw, by simp [ht]⟩

/-- The service ids of a tag are defined by its text. -/
theorem lastWrite_tagDefs (hone : ∀ id a b, (id, a) ∈ db.tagIdMap → (id, b) ∈ db.tagIdMap → a = b)
    {id tagId : Nat} (hm : (id, tagId) ∈ db.tagIdMap) :
    lastWrite (db.streamPtrTagIdMap u) id = db.tagText u tagId := by
  cases hl : lastWrite (db.streamPtrTagIdMap u) id with
  | some tag =>
    obtain ⟨tagId', hm', htext⟩ := mem_tagDefs.1 (mem_of_lastWrite hl)
    rw [hone id tagId tagId' hm hm', htext]
  | none =>
    cases htext : db.tagText u tagId with
    | none => rfl
    | some tag => exact absurd rfl (lastWrite_eq_none.1 hl (id, tag) (mem_tagDefs.2 ⟨tagId, hm, htext⟩))

theorem tagText_normal {lower : List Char → Char → List Char → List Char}
    (hu : u.Lowercases lower) {tagId : Nat} {tag : String} (h : db.tagText u tagId = some tag) :
    NormalForm u tag := by
  obtain ⟨raw, _, hparse⟩ := Option.bind_eq_some_iff.1 h
  split at hparse
  · cases hparse
  · rename_i t ht
    cases hparse
    exact ⟨t, (Tag.display_round_trips u lower hu raw t ht).1, rfl⟩

/-- Where every tag has a service id the sidecar's pairs are the current ones. -/
theorem maps_iff {h : History} {k : Nat} (hs : SnapshotOf h k db.toHydrusDb) (hclean : db.Clean u)
    {hash : Hash} {tag : String} :
    db.Maps u db.currentMappings hash tag ↔
      ∃ id, db.Pair (lastWrite (db.streamPtrTagTranslation u)) hash id ∧
        lastWrite (db.streamPtrTagIdMap u) id = some tag := by
  have hsha : ∀ hashId, db.hashes.lookup hashId = some hash.bytes ↔
      db.sha256 hashId = some hash := by
    intro hashId
    simp only [HydrusDb.sha256, Option.bind_eq_some_iff]
    constructor
    · intro hl
      exact ⟨hash.bytes, hl, Hash.ofBytes?_bytes hash⟩
    · rintro ⟨blob, hl, hblob⟩
      rw [hl, Hash.ofBytes?_eq_some hblob]
  constructor
  · rintro ⟨⟨hashId, tagId⟩, hm, hl, htext⟩
    have hknown := (hsha hashId).1 hl
    obtain ⟨id, hid⟩ := hclean.named _ hm (by rw [hknown]; rfl) (by rw [htext]; rfl)
    have hmem : (tagId, id) ∈ db.streamPtrTagTranslation u :=
      mem_translation.2 ⟨hid, by rw [htext]; rfl⟩
    cases htr : lastWrite (db.streamPtrTagTranslation u) tagId with
    | none => exact absurd rfl (lastWrite_eq_none.1 htr _ hmem)
    | some id' =>
      have hid' := (mem_translation.1 (mem_of_lastWrite htr)).1
      exact ⟨id', ⟨hashId, tagId, hm, hknown, htr⟩, (lastWrite_tagDefs hs.oneTag hid').trans htext⟩
  · rintro ⟨id, ⟨hashId, tagId, hm, hknown, htr⟩, htag⟩
    have hid := (mem_translation.1 (mem_of_lastWrite htr)).1
    exact ⟨(hashId, tagId), hm, (hsha hashId).2 hknown,
      (lastWrite_tagDefs hs.oneTag hid).symm.trans htag⟩

end MirrorDb

theorem sameHashes_of_seed {db : MirrorDb} (hwf : db.WellFormed) (u : Unicode) :
    SameHashes (lastWrite (db.snapshot u).hashDefs) (lastWrite db.streamPtrHashIdMap) := by
  have hdefs : db.streamPtrHashIdMap =
      (db.snapshot u).hashDefs.filterMap fun row => (parseHashDef row).toOption := by
    simp only [MirrorDb.snapshot, HydrusDb.streamPtrHashIdMap, HydrusDb.sha256,
      List.filterMap_filterMap]
    refine List.filterMap_congr fun m _ => ?_
    cases db.hashes.lookup m.2 with
    | none => rfl
    | some blob =>
      cases hblob : Hash.ofBytes? blob with
      | none => simp [parseHashDef, Hash.parse, hexDecode_hexEncode, hblob, Except.toOption]
      | some sha => simp [parseHashDef, Hash.parse, hexDecode_hexEncode, hblob, Except.toOption]
  have hparse : ∀ row ∈ (db.snapshot u).hashDefs, (Hash.parse row.2).isSome = true := by
    intro row hrow
    obtain ⟨m, _, hm⟩ := List.mem_filterMap.1 hrow
    obtain ⟨blob, hl, rfl⟩ := Option.map_eq_some_iff.1 hm
    simp [Hash.parse, hexDecode_hexEncode, Hash.ofBytes?, hwf m.2 blob hl]
  intro id sha hsha
  rw [hdefs, lastWrite_parseHashDef hparse] at hsha
  exact hsha

/-- A mirror and a sidecar seeded from one snapshot. -/
theorem agrees_of_seed {u : Unicode} {lower : List Char → Char → List Char → List Char}
    (hu : u.Lowercases lower) {h : History} {k : Nat} {db : MirrorDb}
    (hs : SnapshotOf h k db.toHydrusDb) (hwf : db.WellFormed) (hclean : db.Clean u)
    {bridge : Signer} {ts : Int} {generation : String} {node : BridgeNode} {side : SidecarNode}
    (hmirror : (seedRun (db.snapshot u) bridge ts generation false).Returns .empty () node)
    (hsidecar : (SidecarSeed.seed u db.toHydrusDb false).Returns .empty () side) :
    Agrees u node.mirror side.sidecar := by
  obtain ⟨_, hstatuses, hhashes, htags, _⟩ := mirror_of_seed hmirror
  obtain ⟨⟨hpacked, hpairs⟩, hhashes', htags', _⟩ := SidecarSeed.sidecar_of_seed hs hsidecar
  have htext : ∀ id tag, lastWrite (db.streamPtrTagIdMap u) id = some tag →
      ∃ tagId, db.tagText u tagId = some tag := by
    intro id tag hl
    obtain ⟨tagId, _, htext⟩ := MirrorDb.mem_tagDefs.1 (mem_of_lastWrite hl)
    exact ⟨tagId, htext⟩
  refine ⟨hpacked, htags.trans htags'.symm, ?_, ?_, ?_, ?_, ?_⟩
  · change SameHashes node.state.defsHashes.lookup _
    rw [hhashes, hhashes']
    exact sameHashes_of_seed hwf u
  · intro hash id hid
    obtain ⟨hashId, tagId, _, _, htr⟩ := (hpairs hash id).1 hid
    obtain ⟨hm, hsome⟩ := MirrorDb.mem_translation.1 (mem_of_lastWrite htr)
    rw [SidecarDb.Defines, ← MirrorDb.lastWrite_tagDefs hs.oneTag hm, ← htags'] at *
    exact hsome
  · intro hash tag
    change node.repo.statuses (hash, tag) = _ ↔ _
    rw [hstatuses, MirrorDb.seeded_current,
      and_iff_left_of_imp (hclean.apart hash tag), MirrorDb.maps_iff hs hclean]
    refine exists_congr fun id => ?_
    rw [hpairs, ← htags']
  · intro id tag htag
    change node.state.defsTags.lookup id = some tag at htag
    rw [congrFun htags id] at htag
    obtain ⟨tagId, htext⟩ := htext id tag htag
    exact MirrorDb.tagText_normal hu htext
  · intro hash tag hrow
    change (node.repo.statuses (hash, tag)).isSome = true at hrow
    rw [hstatuses] at hrow
    obtain ⟨st, hst⟩ := Option.isSome_iff_exists.1 hrow
    have hitem := mem_of_lastWrite hst
    rw [Snapshot.items, List.filterMap_append, List.mem_append] at hitem
    rcases hitem with hitem | hitem
    · obtain ⟨⟨m, _, _, htext⟩, _⟩ := MirrorDb.mem_writes.1 hitem
      exact MirrorDb.tagText_normal hu htext
    · obtain ⟨⟨m, _, _, htext⟩, _⟩ := MirrorDb.mem_writes.1 hitem
      exact MirrorDb.tagText_normal hu htext

/-! ## The updates -/

/-- Passes cut anywhere, and then one that has ended over the first `k` updates. -/
def CaughtUp (u : Unicode) (bridge : Signer) (h : History) (start : BridgeNode) (k : Nat)
    (node : BridgeNode) : Prop :=
  ∃ seen before ts src refreshed applied,
    Relation.ReflTransGen (Pass u bridge h) (start, 0) (before, seen) ∧ seen ≤ k ∧
      Serves h k src ∧ (syncOnce u bridge ts src refreshed).Returns before applied node

theorem CaughtUp.applied {u : Unicode} {bridge : Signer} {h : History} {start node : BridgeNode}
    {k : Nat} (hs : Serving start.repo.toRepoStore) (hup : CaughtUp u bridge h start k node) :
    Serving node.repo.toRepoStore ∧ start.mirror.applyAll u bridge h
      (h.published start.state.nextUpdateIndex k) = .ok node.mirror := by
  obtain ⟨seen, before, ts, src, refreshed, applied, hruns, hk, hsrc, hret⟩ := hup
  have hstart : Reached u bridge h start.mirror start.state.nextUpdateIndex (start, 0) :=
    ⟨[], [], rfl, hs, rfl, start.mirror, rfl, rfl⟩
  obtain ⟨done, todo, hpub, hp⟩ := (hstart.passes hruns).publish hk
  have hend := (triple_syncOnce ts refreshed hsrc hpub).post before applied node hp hret
  obtain ⟨m, hm, hn⟩ := hend.applied
  have hnode : node.mirror = m := hn
  rw [hpub, hm, hnode]
  exact ⟨hend.serving, rfl⟩

namespace SidecarNode

def CaughtUp (u : Unicode) (h : History) (start : SidecarNode) (k : Nat) (node : SidecarNode) :
    Prop :=
  ∃ seen before relations ts src batchHashes applied,
    Relation.ReflTransGen (Pass u h) (start, 0) (before, seen) ∧ seen ≤ k ∧ Serves h k src ∧
      (sidecarSyncOnce u relations ts src batchHashes).Returns before applied node

theorem CaughtUp.applied {u : Unicode} {h : History} {start node : SidecarNode} {k : Nat}
    (hpacked : start.sidecar.Packed) (hup : CaughtUp u h start k node) :
    node.sidecar.Packed ∧ ∃ sc, start.sidecar.applyAll u h
      (h.published start.sidecar.nextUpdateIndex k) = .ok sc ∧ SidecarDb.Alike sc node.sidecar := by
  obtain ⟨seen, before, relations, ts, src, batchHashes, applied, hruns, hk, hsrc, hret⟩ := hup
  have hstart : Reached u h start.sidecar start.sidecar.nextUpdateIndex (start, 0) :=
    ⟨[], [], rfl, hpacked, rfl, start.sidecar, rfl, hpacked, .refl _⟩
  obtain ⟨done, todo, hpub, hp⟩ := (hstart.passes hruns).publish hk
  have hend := (triple_sidecarSyncOnce relations ts batchHashes hsrc hpub).post before applied node
    hp hret
  obtain ⟨sc, hsc, _, hn⟩ := hend.applied
  rw [hpub]
  exact ⟨hend.packed, sc, hsc, hn⟩

end SidecarNode

theorem Agrees.alike {u : Unicode} {m : Mirror} {sc x : SidecarDb} (h : Agrees u m sc)
    (hpacked : x.Packed) (halike : SidecarDb.Alike sc x) : Agrees u m x := by
  have hread : ∀ hash id, id ∈ x.readTagSet hash ↔ id ∈ sc.readTagSet hash := by
    intro hash id
    simpa [SidecarDb.current] using congrFun halike.current (hash, id)
  have htags : ∀ id, x.defsTags.lookup id = sc.defsTags.lookup id := congrFun halike.tags
  refine ⟨hpacked, h.tags.trans halike.tags.symm, ?_, ?_, ?_, h.normalTags, h.normalRows⟩
  · rw [halike.hashes]
    exact h.hashes
  · intro hash id hid
    rw [SidecarDb.Defines, htags]
    exact h.defined hash id ((hread hash id).1 hid)
  · intro hash tag
    simp only [hread, htags]
    exact h.pairs hash tag

/-- **Mirror and sidecar.** Seeded from one clean snapshot and brought by passes, cut anywhere
before, to the end of the same updates, each of them regular over what the ones before it leave, a
mirror and a sidecar return the same tags. -/
theorem same_tags {u : Unicode} {lower : List Char → Char → List Char → List Char}
    (hu : u.Lowercases lower) {h : History} {k₀ k : Nat} {db : MirrorDb}
    (hs : SnapshotOf h k₀ db.toHydrusDb) (hwf : db.WellFormed) {bridge : Signer} {ts : Int}
    {generation : String} {node₀ node : BridgeNode} {side₀ side : SidecarNode}
    (hmirror : (seedRun (db.snapshot u) bridge ts generation false).Returns .empty () node₀)
    (hsidecar : (SidecarSeed.seed u db.toHydrusDb false).Returns .empty () side₀)
    (hnode : CaughtUp u bridge h node₀ k node) (hside : SidecarNode.CaughtUp u h side₀ k side)
    (hclean : db.Clean u)
    (hregular : AllRegular u h side₀.sidecar (h.published db.nextIndex k)) :
    SameTags u node side := by
  have hag := agrees_of_seed hu hs hwf hclean hmirror hsidecar
  obtain ⟨hserving, _, _, _, hcursor⟩ := mirror_of_seed hmirror
  obtain ⟨_, _, _, hcursor'⟩ := SidecarSeed.sidecar_of_seed hs hsidecar
  obtain ⟨hserving', hm⟩ := hnode.applied hserving
  obtain ⟨hpacked, sc, hsc, halike⟩ := hside.applied hag.packed
  rw [hcursor] at hm
  rw [hcursor'] at hsc
  exact ((hag.applyAll hregular hm hsc).alike hpacked halike).sameTags hserving'.sound

/-! ## A tag spelled with a capital -/

/-- Three updates, each of which defines a tag and maps it to the one hash. -/
def sampleSpelled : History where
  entries := [⟨0, ["d0", "c0"]⟩, ⟨1, ["d1", "c1"]⟩, ⟨2, ["d2", "c2"]⟩]
  content := fun name =>
    if name = "d0" then .ok (.definitions ⟨[(1, (Hash.fill 7).toHex)], [(2, "samus")]⟩)
    else if name = "c0" then .ok (.content ⟨[⟨2, [1], .add⟩], [], []⟩)
    else if name = "d1" then .ok (.definitions ⟨[], [(3, "ridley")]⟩)
    else if name = "c1" then .ok (.content ⟨[⟨3, [1], .add⟩], [], []⟩)
    else if name = "d2" then .ok (.definitions ⟨[], [(4, "Kraid")]⟩)
    else .ok (.content ⟨[⟨4, [1], .add⟩], [], []⟩)
  ascending := by simp

def spelledSource (k : Nat) : UpdateSource :=
  ⟨fun _ => .ok (sampleSpelled.entries.take k), sampleSpelled.content⟩

/-- A client that has processed the first of them. -/
def spelledDb : MirrorDb where
  toHydrusDb := sampleClient false
  serviceId := 1
  fingerprint := "f"
  deletedMappings := []
  currentHashLed := true
  deletedHashLed := true
  relations := []

def spelledMirror : BridgeNode :=
  (seedRun (spelledDb.snapshot .asciiText) sampleSigner 0 "g" false).final .empty

def spelledSidecar : SidecarNode := (SidecarSeed.seed .asciiText spelledDb.toHydrusDb false).final .empty

theorem wellFormed_spelledDb : spelledDb.WellFormed := by
  intro id blob hl
  by_cases hid : id = 10
  · subst hid
    simp only [spelledDb, sampleClient, AList.lookup_insert] at hl
    cases hl
    exact (Hash.fill 7).size
  · simp only [spelledDb, sampleClient, AList.lookup_insert_ne hid] at hl
    cases hl

theorem snapshotOf_spelledDb : SnapshotOf sampleSpelled 3 spelledDb.toHydrusDb := by
  refine ⟨⟨1, by simp, by decide +kernel⟩, ?_, ?_, by decide +kernel, ?_⟩
  · exact (snapshotOf_sampleClient false).oneHash
  · exact (snapshotOf_sampleClient false).oneTag
  · intro k _
    obtain ⟨sha, tagId⟩ := k
    have hws : (sampleClient false).clientWrites
        (sampleSpelled.writesBelow (sampleClient false).nextIndex) = [((Hash.fill 7, 20), true)] := by
      decide +kernel
    change (sampleClient false).mapped _ = writeAll _ ((sampleClient false).clientWrites
      (sampleSpelled.writesBelow (sampleClient false).nextIndex)) _
    rw [hws, writeAll_apply, lastWrite_singleton, HydrusDb.mapped]
    simp only [sampleClient_sha256]
    simp [sampleClient]
    grind

theorem returns_spelled :
    (seedRun (spelledDb.snapshot .asciiText) sampleSigner 0 "g" false).Returns .empty ()
        spelledMirror ∧
      (SidecarSeed.seed .asciiText spelledDb.toHydrusDb false).Returns .empty () spelledSidecar :=
  ⟨⟨by decide +kernel, rfl⟩, by decide +kernel, rfl⟩

/-- The two after one pass each over the first `k` updates. -/
def spelledMirrorAt (k : Nat) : BridgeNode :=
  (syncOnce .asciiText sampleSigner 0 (spelledSource k) true).final spelledMirror

def spelledSidecarAt (k : Nat) : SidecarNode :=
  (sidecarSyncOnce .asciiText none 0 (spelledSource k) 1).final spelledSidecar

theorem serves_spelledSource (k : Nat) : Serves sampleSpelled k (spelledSource k) := by
  refine ⟨?_, fun _ _ h => h⟩
  intro since entries h
  cases h
  exact .refl _

theorem caughtUp_spelled {k applied applied' : Nat}
    (hmirror : ((syncOnce .asciiText sampleSigner 0 (spelledSource k) true) spelledMirror).result =
      .ok applied)
    (hsidecar : ((sidecarSyncOnce .asciiText none 0 (spelledSource k) 1) spelledSidecar).result =
      .ok applied') :
    CaughtUp .asciiText sampleSigner sampleSpelled spelledMirror k (spelledMirrorAt k) ∧
      SidecarNode.CaughtUp .asciiText sampleSpelled spelledSidecar k (spelledSidecarAt k) := by
  constructor
  · exact ⟨0, spelledMirror, 0, spelledSource k, true, applied, .refl, Nat.zero_le k,
      serves_spelledSource k, hmirror, rfl⟩
  · exact ⟨0, spelledSidecar, none, 0, spelledSource k, 1, applied', .refl, Nat.zero_le k,
      serves_spelledSource k, hsidecar, rfl⟩

/-- Two updates in normal form. -/
theorem same_tags_ridley : SameTags .asciiText (spelledMirrorAt 2) (spelledSidecarAt 2) := by
  obtain ⟨hmirror, hsidecar⟩ := returns_spelled
  have hup := @caughtUp_spelled 2 1 1 (by decide +kernel) (by decide +kernel)
  refine same_tags Unicode.asciiText_lowercases snapshotOf_spelledDb wellFormed_spelledDb hmirror
    hsidecar hup.1 hup.2 ⟨?_, ?_⟩ ?_
  · rintro h tag _ ⟨m, hm, _⟩
    cases hm
  · intro m hm _ _
    rw [List.mem_singleton.1 hm]
    exact ⟨2, List.mem_singleton.2 rfl⟩
  · have hpublished : sampleSpelled.published spelledDb.nextIndex 2 = [⟨1, ["d1", "c1"]⟩] := by
      decide +kernel
    have hdecoded : sampleSpelled.decoded ⟨1, ["d1", "c1"]⟩ =
        [.definitions ⟨[], [(3, "ridley")]⟩, .content ⟨[⟨3, [1], .add⟩], [], []⟩] := by rfl
    rw [hpublished, AllRegular, hdecoded]
    refine ⟨⟨?_, ?_, ?_⟩, fun _ _ => trivial⟩
    · intro row hrow
      rw [List.mem_singleton.1 hrow]
      exact ⟨⟨"", "ridley"⟩, by decide +kernel, by decide +kernel⟩
    · intro hash id hid
      obtain ⟨⟨_, hpairs⟩, _⟩ := SidecarSeed.sidecar_of_seed snapshotOf_spelledDb hsidecar
      obtain ⟨hashId, tagId, _, _, htr⟩ := (hpairs hash id).1 hid
      obtain ⟨hm, _⟩ := MirrorDb.mem_translation.1 (mem_of_lastWrite htr)
      have hid : id = 2 := congrArg Prod.fst (List.mem_singleton.1 hm)
      rw [hid]
      decide +kernel
    · intro rows hrows
      have hgather : gather (spelledSidecar.sidecar.define .asciiText
          [.definitions ⟨[], [(3, "ridley")]⟩, .content ⟨[⟨3, [1], .add⟩], [], []⟩]).defsHashes.lookup
          [.definitions ⟨[], [(3, "ridley")]⟩, .content ⟨[⟨3, [1], .add⟩], [], []⟩] =
            .ok [(Hash.fill 7, 3, false)] := by decide +kernel
      rw [hgather] at hrows
      cases hrows
      exact ⟨nofun, trivial⟩

/-- After the third the mirror serves the tag as it is spelled, the sidecar its normal form. -/
theorem same_tags_kraid :
    SnapshotOf sampleSpelled 3 spelledDb.toHydrusDb ∧ spelledDb.WellFormed ∧
      (seedRun (spelledDb.snapshot .asciiText) sampleSigner 0 "g" false).Returns .empty ()
        spelledMirror ∧
      (SidecarSeed.seed .asciiText spelledDb.toHydrusDb false).Returns .empty () spelledSidecar ∧
      CaughtUp .asciiText sampleSigner sampleSpelled spelledMirror 3 (spelledMirrorAt 3) ∧
      SidecarNode.CaughtUp .asciiText sampleSpelled spelledSidecar 3 (spelledSidecarAt 3) ∧
      ¬ SameTags .asciiText (spelledMirrorAt 3) (spelledSidecarAt 3) := by
  have hup := @caughtUp_spelled 3 2 2 (by decide +kernel) (by decide +kernel)
  refine ⟨snapshotOf_spelledDb, wellFormed_spelledDb, returns_spelled.1, returns_spelled.2, hup.1,
    hup.2, ?_⟩
  intro hsame
  have hread := BucketSource.read_lawful (.native (spelledMirrorAt 3).repo.toRepoStore)
    (Hash.fill 7) 0 10000
  rw [if_pos (by decide +kernel)] at hread
  have hmirror : ((((BucketSource.native (spelledMirrorAt 3).repo.toRepoStore).content 0
      (bucketKey (Hash.fill 7) 0)).lookup (Hash.fill 7)).getD []).map OriginTag.tag =
        ["Kraid", "ridley", "samus"] := by decide +kernel
  have hsidecar : ((spelledSidecarAt 3).sidecar.bucket (bucketKey (Hash.fill 7) 0) 0
      10000).toOption.map (fun r => (r.1.lookup (Hash.fill 7)).getD []) =
        some ["kraid", "ridley", "samus"] := by decide +kernel
  cases hbucket : (spelledSidecarAt 3).sidecar.bucket (bucketKey (Hash.fill 7) 0) 0 10000 with
  | error e => simp [hbucket, Except.toOption] at hsidecar
  | ok r =>
    have heq := hsame.agree _ _ _ _ _ _ r.1 r.2 hread hbucket (Hash.fill 7)
    rw [hmirror] at heq
    simp [hbucket, Except.toOption, ← heq] at hsidecar

end Bridge
end Naiad
