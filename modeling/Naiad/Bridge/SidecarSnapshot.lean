import Naiad.Bridge.SidecarHistory
import Naiad.Bridge.SidecarSeed

/-!
# Naiad.Bridge.SidecarSnapshot

Snapshots of clients that follow the same history, and what a merge of one leaves in the map.

* `SnapshotOf`: the client's mappings are those of the updates below its watermark, but for what it
  has processed of later ones.
* `Translates`: its tags and the ids of the service name each other.
* `mapAt_merge`: the merged map is right as of the index after the watermark.
-/

namespace Naiad
namespace Bridge

open Lib Server SidecarDb

/-! ## A client's tables and the history -/

namespace HydrusDb

variable (db : HydrusDb)

/-- The client's id of the tag that the service calls so. -/
def tagOf (serviceTagId : Nat) : Option Nat := lastWrite db.tagIdMap serviceTagId

/-- Writes of pairs as the client makes them. -/
def clientWrites (ws : List PairWrite) : List PairWrite :=
  ws.filterMap fun w => (db.tagOf w.1.2).map fun tagId => ((w.1.1, tagId), w.2)

/-- Whether the client has a mapping. -/
def mapped : Hash × Nat → Option Bool := fun k =>
  some (db.currentMappings.any fun m => decide (m.2 = k.2 ∧ db.sha256 m.1 = some k.1))

/-- A pair of the snapshot in the ids of the service. -/
def Pair (translate : Nat → Option Nat) (hash : Hash) (id : Nat) : Prop :=
  ∃ hashId tagId, (hashId, tagId) ∈ db.currentMappings ∧ db.sha256 hashId = some hash ∧
    translate tagId = some id

end HydrusDb

/-- The database of a client that has processed the first updates, up to its watermark, and it may
be parts of others that are published. -/
structure SnapshotOf (h : History) (k : Nat) (db : HydrusDb) : Prop where
  contiguous : ∃ n ≤ k, db.nextIndex = h.cursorAt n
  oneHash : ∀ a b sha, db.sha256 a = some sha → db.sha256 b = some sha → a = b
  oneTag : ∀ id a b, (id, a) ∈ db.tagIdMap → (id, b) ∈ db.tagIdMap → a = b
  known : ∀ w ∈ h.writesBelow db.nextIndex, (db.tagOf w.1.2).isSome = true
  mapped : AgreeOff (db.clientWrites (h.writes db.nextIndex k)) db.mapped
    (writeAll (fun _ => some false) (db.clientWrites (h.writesBelow db.nextIndex)))

/-- The tags of the mappings parse, and no tag of a published mapping has a second service id. -/
structure Translates (u : Unicode) (h : History) (k : Nat) (db : HydrusDb) : Prop where
  parses : ∀ m ∈ db.currentMappings, (db.sha256 m.1).isSome = true →
    (lastWrite (db.streamPtrTagTranslation u) m.2).isSome = true
  oneId : ∀ w ∈ h.writes 0 k, ∀ tagId id, db.tagOf w.1.2 = some tagId →
    (id, tagId) ∈ db.tagIdMap → id = w.1.2

section

variable {u : Unicode} {h : History} {k : Nat} {db : HydrusDb} {translate : Nat → Option Nat}

theorem SnapshotOf.nextIndex_le (hs : SnapshotOf h k db) : db.nextIndex ≤ h.cursorAt k := by
  obtain ⟨n, hn, heq⟩ := hs.contiguous
  rw [heq]
  exact History.cursorAt_mono hn

theorem SnapshotOf.tagOf_eq (hs : SnapshotOf h k db) {id tagId : Nat}
    (hmem : (id, tagId) ∈ db.tagIdMap) : db.tagOf id = some tagId := by
  unfold HydrusDb.tagOf
  cases hlast : lastWrite db.tagIdMap id with
  | none => exact absurd rfl (lastWrite_eq_none.1 hlast _ hmem)
  | some tagId' => rw [hs.oneTag id tagId' tagId (mem_of_lastWrite hlast) hmem]

theorem translation_eq_ok (htranslate : translation u db = .ok translate) :
    translate = lastWrite (db.streamPtrTagTranslation u) := by
  simp only [translation] at htranslate
  split at htranslate
  · cases htranslate
  · cases htranslate
    rfl

theorem mem_tagIdMap (htranslate : translation u db = .ok translate) {id tagId : Nat}
    (hid : translate tagId = some id) : (id, tagId) ∈ db.tagIdMap := by
  rw [translation_eq_ok htranslate] at hid
  obtain ⟨m, hm, hrow⟩ := List.mem_filterMap.1 (mem_of_lastWrite hid)
  obtain ⟨raw, _, hparse⟩ := Option.bind_eq_some_iff.1 hrow
  split at hparse
  · cases hparse
  · cases hparse
    exact hm

/-- The client's last write of a pair, where one service id only stands for the tag. -/
theorem lastWrite_clientWrites {ws : List PairWrite} {sha : Hash} {id tagId : Nat}
    (htag : db.tagOf id = some tagId)
    (hone : ∀ w ∈ ws, db.tagOf w.1.2 = some tagId → w.1.2 = id) :
    lastWrite (db.clientWrites ws) (sha, tagId) = lastWrite ws (sha, id) := by
  induction ws with
  | nil => rfl
  | cons w ws ih =>
    have hrest := ih fun w' hw' => hone w' (List.mem_cons_of_mem _ hw')
    have hw := hone w List.mem_cons_self
    have hsplit : db.clientWrites (w :: ws) = db.clientWrites [w] ++ db.clientWrites ws := by
      rw [← List.singleton_append, HydrusDb.clientWrites, List.filterMap_append]
      rfl
    have hcons : lastWrite (w :: ws) (sha, id) =
        (lastWrite ws (sha, id)).or (lastWrite [w] (sha, id)) := lastWrite_append [w] ws _
    rw [hsplit, lastWrite_append, hrest, hcons, lastWrite_singleton]
    congr 1
    obtain ⟨⟨sha', id'⟩, v⟩ := w
    cases htag' : db.tagOf id' with
    | none =>
      have hne : id' ≠ id := by
        rintro rfl
        rw [htag] at htag'
        cases htag'
      simp [HydrusDb.clientWrites, htag', hne]
    | some tagId' =>
      by_cases heq : tagId' = tagId
      · subst heq
        have hid : id' = id := hw htag'
        subst hid
        simp [HydrusDb.clientWrites, htag, lastWrite_singleton]
      · have hne : id' ≠ id := by
          rintro rfl
          rw [htag, Option.some.injEq] at htag'
          exact heq htag'.symm
        simp [HydrusDb.clientWrites, htag', lastWrite_singleton, heq, hne]

theorem contents_eq (h : History) (c : Nat) (pair : Hash × Nat) :
    h.contents c pair = (lastWrite (h.writesBelow c) pair).or (some false) :=
  writeAll_apply _ _ pair

theorem History.writes_zero {c : Nat} (hc : c ≤ h.cursorAt k) :
    h.writes 0 k = h.writesBelow c ++ h.writes c k := by
  have hnone : h.below 0 = [] := by simp [History.below]
  have htake := History.below_append_published (h := h) hc
  have hzero := History.below_append_published (h := h) (Nat.zero_le (h.cursorAt k))
  rw [hnone, List.nil_append] at hzero
  rw [History.writes, hzero, ← htake, History.writesFrom_append, History.hashesBelow, hnone]
  rfl

/-- Off what later updates write, a client has the mappings of the updates below its index. -/
theorem SnapshotOf.mapped_eq (hs : SnapshotOf h k db) (ht : Translates u h k db) {sha : Hash}
    {id tagId : Nat} (hmem : (id, tagId) ∈ db.tagIdMap)
    (hoff : lastWrite (h.writes db.nextIndex k) (sha, id) = none) :
    db.mapped (sha, tagId) = h.contents db.nextIndex (sha, id) := by
  have htag := hs.tagOf_eq hmem
  have hone : ∀ w ∈ h.writes 0 k, db.tagOf w.1.2 = some tagId → w.1.2 = id := by
    intro w hw htag'
    exact (ht.oneId w hw tagId id htag' hmem).symm
  rw [History.writes_zero hs.nextIndex_le] at hone
  have hlater : lastWrite (db.clientWrites (h.writes db.nextIndex k)) (sha, tagId) = none := by
    rw [lastWrite_clientWrites htag fun w hw => hone w (List.mem_append_right _ hw), hoff]
  rw [hs.mapped _ hlater, writeAll_apply, contents_eq,
    lastWrite_clientWrites htag fun w hw => hone w (List.mem_append_left _ hw)]

/-- A pair of the updates below its index is a mapping of the client. -/
theorem SnapshotOf.exists_mapping (hs : SnapshotOf h k db) (ht : Translates u h k db) {sha : Hash}
    {id : Nat} (hoff : lastWrite (h.writes db.nextIndex k) (sha, id) = none)
    (htrue : h.contents db.nextIndex (sha, id) = some true) :
    ((sha, id), true) ∈ h.writes 0 k ∧ ∃ m ∈ db.currentMappings,
      db.sha256 m.1 = some sha ∧ db.tagOf id = some m.2 := by
  have hlast : lastWrite (h.writesBelow db.nextIndex) (sha, id) = some true := by
    rw [contents_eq] at htrue
    cases hl : lastWrite (h.writesBelow db.nextIndex) (sha, id) with
    | none => simp [hl] at htrue
    | some b => simpa [hl] using htrue
  have hwrite := mem_of_lastWrite hlast
  obtain ⟨tagId, htag⟩ := Option.isSome_iff_exists.1 (hs.known _ hwrite)
  have hmapped := hs.mapped_eq ht (mem_of_lastWrite htag) hoff
  rw [htrue] at hmapped
  simp only [HydrusDb.mapped, Option.some.injEq, List.any_eq_true, decide_eq_true_eq] at hmapped
  obtain ⟨m, hm, rfl, hsha⟩ := hmapped
  refine ⟨?_, m, hm, hsha, htag⟩
  rw [History.writes_zero hs.nextIndex_le]
  exact List.mem_append_left _ hwrite

/-- Off what later updates write, the pairs of a snapshot are those of the updates below its
index. -/
theorem SnapshotOf.pair_iff (hs : SnapshotOf h k db) (ht : Translates u h k db)
    (htranslate : translation u db = .ok translate) {sha : Hash} {id : Nat}
    (hoff : lastWrite (h.writes db.nextIndex k) (sha, id) = none) :
    db.Pair translate sha id ↔ h.contents db.nextIndex (sha, id) = some true := by
  constructor
  · intro hpair
    obtain ⟨hashId, tagId, hmap, hsha, hid⟩ := hpair
    rw [← hs.mapped_eq ht (mem_tagIdMap htranslate hid) hoff]
    simp only [HydrusDb.mapped, Option.some.injEq, List.any_eq_true, decide_eq_true_eq]
    exact ⟨_, hmap, rfl, hsha⟩
  · intro htrue
    obtain ⟨hwrite, m, hm, hsha, htag⟩ := hs.exists_mapping ht hoff htrue
    obtain ⟨id', hid'⟩ := Option.isSome_iff_exists.1 (ht.parses m hm (by simp [hsha]))
    rw [← translation_eq_ok htranslate] at hid'
    have heq : id' = id := ht.oneId _ hwrite m.2 id' htag (mem_tagIdMap htranslate hid')
    exact ⟨m.1, m.2, hm, hsha, by rw [hid', heq]⟩

/-! ## The staged rows -/

/-- The hashes of the groups: a row's is added unless it is the last. -/
def pushKey (keys : List Hash) (sha : Hash) : List Hash :=
  if keys.getLast? = some sha then keys else keys ++ [sha]

theorem pushGroup_keys (groups : List (Hash × List Nat)) (row : Hash × Option Nat) :
    (pushGroup groups row).map Prod.fst = pushKey (groups.map Prod.fst) row.1 := by
  rcases List.eq_nil_or_concat groups with rfl | ⟨init, last, rfl⟩
  · simp [pushGroup, pushKey]
  · by_cases hlast : last.1 = row.1
    · simp [pushGroup, pushKey, hlast]
    · simp [pushGroup, pushKey, hlast]

theorem foldl_pushGroup_keys (rows : List (Hash × Option Nat)) (groups : List (Hash × List Nat)) :
    (rows.foldl pushGroup groups).map Prod.fst =
      (rows.map Prod.fst).foldl pushKey (groups.map Prod.fst) := by
  induction rows generalizing groups with
  | nil => rfl
  | cons row rows ih => rw [List.foldl_cons, ih, pushGroup_keys, List.map_cons, List.foldl_cons]

/-- Hashes that come in the order of a rank of theirs are added once each. -/
theorem foldl_pushKey_nodup (rank : Hash → Nat) {shas : List Hash} {keys : List Hash}
    (hinj : ∀ a ∈ keys ++ shas, ∀ b ∈ keys ++ shas, rank a = rank b → a = b)
    (hkeys : keys.Pairwise fun a b => rank a < rank b)
    (hshas : shas.Pairwise fun a b => rank a ≤ rank b)
    (hcross : ∀ a ∈ keys, ∀ b ∈ shas, rank a ≤ rank b) :
    (shas.foldl pushKey keys).Nodup := by
  induction shas generalizing keys with
  | nil => exact hkeys.imp fun hlt heq => by simp [heq] at hlt
  | cons sha shas ih =>
    obtain ⟨hhead, htail⟩ := List.pairwise_cons.1 hshas
    rw [List.foldl_cons, pushKey]
    by_cases hlast : keys.getLast? = some sha
    · rw [if_pos hlast]
      refine ih ?_ hkeys htail fun a ha b hb => hcross a ha b (List.mem_cons_of_mem _ hb)
      intro a ha b hb
      exact hinj a (by grind) b (by grind)
    · rw [if_neg hlast]
      -- a hash of the same rank would be the last
      have hlt : ∀ a ∈ keys, rank a < rank sha := by
        intro a ha
        have hle := hcross a ha sha List.mem_cons_self
        rcases Nat.lt_or_eq_of_le hle with hlt | heq
        · exact hlt
        · have haeq : a = sha := hinj a (by simp [ha]) sha (by simp) heq
          subst haeq
          exfalso
          rcases List.eq_nil_or_concat keys with rfl | ⟨init, last, rfl⟩
          · simp at ha
          · rw [List.concat_eq_append] at ha hlast hkeys hcross
            rcases List.mem_append.1 ha with hinit | hmem
            · have hstrict := (List.pairwise_append.1 hkeys).2.2 a hinit last (by simp)
              have := hcross last (by simp) a List.mem_cons_self
              omega
            · simp at hmem
              simp [hmem] at hlast
      refine ih ?_ ?_ htail ?_
      · intro a ha b hb
        exact hinj a (by simpa using ha) b (by simpa using hb)
      · rw [List.pairwise_append]
        exact ⟨hkeys, by simp, by simpa using hlt⟩
      · intro a ha b hb
        rcases List.mem_append.1 ha with ha | ha
        · exact hcross a ha b (List.mem_cons_of_mem _ hb)
        · obtain rfl : a = sha := by simpa using ha
          exact hhead b hb

/-- The hash id of each hash of a snapshot. -/
theorem SnapshotOf.exists_rank (hs : SnapshotOf h k db) :
    ∃ rank : Hash → Nat, ∀ hashId sha, db.sha256 hashId = some sha → rank sha = hashId := by
  classical
  refine ⟨fun sha => if hex : ∃ hashId, db.sha256 hashId = some sha then hex.choose else 0, ?_⟩
  intro hashId sha hsha
  have hex : ∃ hashId, db.sha256 hashId = some sha := ⟨hashId, hsha⟩
  simp only [hex, dif_pos]
  exact hs.oneHash _ _ sha hex.choose_spec hsha

/-- A staged row holds all the pairs of its hash. -/
theorem SnapshotOf.stagedRow (hs : SnapshotOf h k db) {i : Nat} {sha : Hash} {ids : List Nat}
    (hrow : (sha, ids) ∈ stagedRows db translate i) :
    ids ≠ [] ∧ ids.Pairwise (· < ·) ∧ ∀ id, id ∈ ids ↔ db.Pair translate sha id := by
  obtain ⟨rank, hrank⟩ := hs.exists_rank
  let mappings := db.streamPtrIdbandMappings (i * idBand) (i * idBand + idBand)
  let groups := (mappings.map fun m => (m.1, translate m.2)).foldl pushGroup []
  have hnodup : (groups.map Prod.fst).Nodup := by
    have hkeys : groups.map Prod.fst = (mappings.map Prod.fst).foldl pushKey [] := by
      have hfold := foldl_pushGroup_keys (mappings.map fun m => (m.1, translate m.2)) []
      rw [List.map_map] at hfold
      exact hfold
    rw [hkeys]
    have hknown : ∀ sha ∈ mappings.map Prod.fst, db.sha256 (rank sha) = some sha := by
      intro sha hsha
      obtain ⟨m, hm, rfl⟩ := List.mem_map.1 hsha
      obtain ⟨hashId, _, _, _, hsha⟩ := mem_streamPtrIdbandMappings.1 hm
      rw [hrank hashId m.1 hsha, hsha]
    refine foldl_pushKey_nodup rank ?_ .nil ?_ (by simp)
    · intro a ha b hb hab
      have hka := hknown a (by simpa using ha)
      have hkb := hknown b (by simpa using hb)
      rw [hab, hkb] at hka
      exact (Option.some.inj hka).symm
    · -- the mappings come in the order of their hash ids
      have hsorted : (orderBy toLex (db.currentMappings.filter fun m =>
          i * idBand ≤ m.1 ∧ m.1 < i * idBand + idBand)).Pairwise fun a b => a.1 ≤ b.1 := by
        have hlex : (orderBy toLex (db.currentMappings.filter fun m =>
            i * idBand ≤ m.1 ∧ m.1 < i * idBand + idBand)).Pairwise
            fun a b => toLex a ≤ toLex b := List.pairwise_insertionSort _ _
        refine hlex.imp fun hle => ?_
        rcases Prod.Lex.le_iff.1 hle with hlt | heq
        · exact le_of_lt hlt
        · exact le_of_eq heq.1
      rw [List.pairwise_map]
      refine List.Pairwise.filterMap _ ?_ hsorted
      intro a b hab a' ha' b' hb'
      obtain ⟨sha, hsha, rfl⟩ := Option.map_eq_some_iff.1 ha'
      obtain ⟨sha', hsha', rfl⟩ := Option.map_eq_some_iff.1 hb'
      rw [hrank a.1 sha hsha, hrank b.1 sha' hsha']
      exact hab
  obtain ⟨g, hg, heq⟩ := List.mem_map.1 hrow
  obtain ⟨hg, hne⟩ := List.mem_filter.1 hg
  cases heq
  refine ⟨SidecarDb.sortDedup_ne_nil (by simpa using hne), sortDedup_strict g.2, fun id => ?_⟩
  rw [mem_sortDedup]
  constructor
  · intro hid
    obtain ⟨hashId, tagId, hmap, _, hsha, htag⟩ :=
      mem_stagedRows.1 ⟨sortDedup g.2, hrow, mem_sortDedup.2 hid⟩
    exact ⟨hashId, tagId, hmap, hsha, htag⟩
  · intro hpair
    obtain ⟨hashId, tagId, hmap, hsha, htag⟩ := hpair
    -- the hash of the row has one hash id, which is in the band
    obtain ⟨id', hid'⟩ := List.exists_mem_of_ne_nil g.2 (by simpa using hne)
    obtain ⟨hashId', _, _, hband, hsha', _⟩ :=
      mem_stagedRows.1 ⟨sortDedup g.2, hrow, mem_sortDedup.2 hid'⟩
    have hsame : hashId = hashId' := hs.oneHash _ _ g.1 hsha hsha'
    obtain ⟨ids, hids, hid⟩ := mem_stagedRows.2 ⟨hashId, tagId, hmap, hsame ▸ hband, hsha, htag⟩
    obtain ⟨g', hg', heq'⟩ := List.mem_map.1 hids
    have hkey : g'.1 = g.1 := (Prod.ext_iff.1 heq').1
    have hgroup : g' = g :=
      List.inj_on_of_nodup_map hnodup (List.mem_filter.1 hg').1 hg hkey
    have hids' : sortDedup g'.2 = ids := (Prod.ext_iff.1 heq').2
    rw [← hids', hgroup, mem_sortDedup] at hid
    exact hid

/-! ## The merge -/

/-- The rows staged so far are those of the bands that are marked done. -/
def StagedFrom (u : Unicode) (db : HydrusDb) (st : Staging) : Prop :=
  ∀ translate, translation u db = .ok translate →
    st.buckets = st.bandDone.flatMap (stagedRows db translate)

/-- Of the hashes that have no mapping in a snapshot, the map holds only pairs that updates from
the snapshot's index on write again. -/
def LeavesNoStale (h : History) (k : Nat) (db : HydrusDb) (sc : SidecarDb) : Prop :=
  ∀ sha, (∀ m ∈ db.currentMappings, db.sha256 m.1 ≠ some sha) → ∀ id ∈ sc.readTagSet sha,
    lastWrite (h.writes db.nextIndex k) (sha, id) ≠ none

theorem Translates.exists_pair (ht : Translates u h k db)
    (htranslate : translation u db = .ok translate) {m : Nat × Nat} {sha : Hash}
    (hm : m ∈ db.currentMappings) (hsha : db.sha256 m.1 = some sha) :
    ∃ id, db.Pair translate sha id := by
  obtain ⟨id, hid⟩ := Option.isSome_iff_exists.1 (ht.parses m hm (by simp [hsha]))
  rw [← translation_eq_ok htranslate] at hid
  exact ⟨id, m.1, m.2, hm, hsha, hid⟩

theorem mem_contents_iff {c : Nat} {pair : Hash × Nat} {P : Prop} [Decidable P]
    (hiff : P ↔ h.contents c pair = some true) : some (decide P) = h.contents c pair := by
  by_cases hp : P
  · rw [hiff.1 hp]
    simp [hp]
  · rw [contents_eq] at hiff ⊢
    cases hl : lastWrite (h.writesBelow c) pair with
    | none => simp [hp]
    | some b =>
      cases b with
      | true => exact absurd (hiff.2 (by simp [hl])) hp
      | false => simp [hp]

section

variable {bands : List Nat} {sc : SidecarDb}

/-- The merge replaces the rows of the hashes that are staged, and no others. -/
theorem SnapshotOf.lookup_merge (hs : SnapshotOf h k db) (translate : Nat → Option Nat)
    (bands : List Nat) (sc : SidecarDb) (sha : Hash) :
    (∃ ids, (sc.mergeBuckets (bands.flatMap (stagedRows db translate))).bucketMap.lookup sha =
        some ids ∧ ids ≠ [] ∧ ids.Pairwise (· < ·) ∧ (∀ id, id ∈ ids ↔ db.Pair translate sha id)) ∨
      ((∀ i ∈ bands, ∀ ids, (sha, ids) ∉ stagedRows db translate i) ∧
        (sc.mergeBuckets (bands.flatMap (stagedRows db translate))).bucketMap.lookup sha =
          sc.bucketMap.lookup sha) := by
  let buckets := bands.flatMap (stagedRows db translate)
  have hlookup : (sc.mergeBuckets buckets).bucketMap.lookup sha =
      writeAll sc.bucketMap.lookup (orderBy Prod.fst buckets) sha := lookup_insertAll _ _ sha
  rw [writeAll_apply] at hlookup
  cases hlast : lastWrite (orderBy Prod.fst buckets) sha with
  | some ids =>
    have hmem : (sha, ids) ∈ buckets := mem_orderBy.1 (mem_of_lastWrite hlast)
    obtain ⟨i, _, hrow⟩ := List.mem_flatMap.1 hmem
    rw [hlast] at hlookup
    exact .inl ⟨ids, hlookup, hs.stagedRow hrow⟩
  | none =>
    rw [hlast] at hlookup
    refine .inr ⟨?_, hlookup⟩
    intro i hi ids hrow
    exact lastWrite_eq_none.1 hlast (sha, ids)
      (mem_orderBy.2 (List.mem_flatMap.2 ⟨i, hi, hrow⟩)) rfl

/-- **`mapAt_merge`**: with every band staged the merged map is right as of the snapshot's index. -/
theorem mapAt_merge (hs : SnapshotOf h k db) (ht : Translates u h k db)
    (htranslate : translation u db = .ok translate) (hpacked : sc.Packed)
    (hbands : ∀ m ∈ db.currentMappings, m.1 / idBand ∈ bands) (hstale : LeavesNoStale h k db sc) :
    (sc.mergeBuckets (bands.flatMap (stagedRows db translate))).Packed ∧
      MapAt h k db.nextIndex (sc.mergeBuckets (bands.flatMap (stagedRows db translate))) := by
  constructor
  · intro sha ids hl
    rcases hs.lookup_merge translate bands sc sha with ⟨ids', hl', hne, hpw, _⟩ | ⟨_, hold⟩
    · rw [hl] at hl'
      cases hl'
      exact ⟨hne, hpw⟩
    · rw [hold] at hl
      exact hpacked sha ids hl
  · intro pair hoff
    obtain ⟨sha, id⟩ := pair
    have hpair := hs.pair_iff ht htranslate hoff
    refine mem_contents_iff (Iff.trans ?_ hpair)
    rcases hs.lookup_merge translate bands sc sha with ⟨ids, hl, _, _, hids⟩ | ⟨hnone, hold⟩
    · simp [readTagSet, hl, hids]
    · -- no mapping of the hash, since every mapping would have been staged
      have hno : ∀ m ∈ db.currentMappings, db.sha256 m.1 ≠ some sha := by
        intro m hm hsha
        obtain ⟨id', hashId, tagId, hmap, hsha', htag⟩ := ht.exists_pair htranslate hm hsha
        obtain ⟨ids, hrow, _⟩ := mem_stagedRows.2 ⟨hashId, tagId, hmap, rfl, hsha', htag⟩
        exact hnone _ (hbands _ hmap) ids hrow
      constructor
      · intro hid
        rw [readTagSet, hold] at hid
        exact absurd hoff (hstale sha hno id hid)
      · intro h'
        obtain ⟨hashId, tagId, hmap, hsha, _⟩ := h'
        exact absurd hsha (hno _ hmap)

/-- Without mappings in the snapshot the map is left as it is. -/
theorem mapAt_none (hs : SnapshotOf h k db) (ht : Translates u h k db)
    (hnone : db.currentMappings = []) (hstale : LeavesNoStale h k db sc) :
    MapAt h k db.nextIndex sc := by
  intro pair hoff
  obtain ⟨sha, id⟩ := pair
  refine mem_contents_iff ⟨?_, ?_⟩
  · intro hid
    exact absurd hoff (hstale sha (by simp [hnone]) id hid)
  · intro htrue
    obtain ⟨_, m, hm, _⟩ := hs.exists_mapping ht hoff htrue
    simp [hnone] at hm

end

end

end Bridge
end Naiad
