import Naiad.Bridge.SidecarHistory
import Naiad.Bridge.SidecarResolve

/-!
# Naiad.Bridge.Agree

A mirror, which keys its rows by the text of a tag, beside a sidecar, which keys them by the id of
the service.

* `Agrees`: the two hold the same pairs.
* `Regular`: when an index leaves them so; `Agrees.applyAll`.
* `Agrees.sameTags`: they return the same tags for every bucket.
-/

namespace Naiad
namespace Bridge

open Lib Netproto Server

/-- A text that parsing leaves as it is. -/
def NormalForm (u : Unicode) (text : String) : Prop :=
  ∃ tag, Tag.parse u text = .ok tag ∧ tag.display = text

/-! ## Rows by text and by id -/

/-- What a row of the sidecar is to the mirror. -/
def textWrite (tags : Nat → Option String) (r : WireRow) : StatusWrite :=
  ((r.1, (tags r.2.1).getD ""), if r.2.2 then .deleted else .current)

/-- A hash that the sidecar has parsed is defined by a text of it in the mirror. -/
def SameHashes (hashes : Nat → Option String) (parsed : Nat → Option Hash) : Prop :=
  ∀ id sha, parsed id = some sha → (hashes id).bind Hash.parse = some sha

section

variable {tags hashes : Nat → Option String} {parsed : Nat → Option Hash}

/-- Two readings of a list that are related item by item. -/
theorem mapM_both {X A B E E' : Type} {f : X → Except E A} {g : X → Except E' B}
    {R : A → B → Prop} (hone : ∀ x a b, f x = .ok a → g x = .ok b → R a b) {xs : List X}
    {as : List A} {bs : List B} (hf : xs.mapM f = .ok as) (hg : xs.mapM g = .ok bs) :
    List.Forall₂ R as bs := by
  induction xs generalizing as bs with
  | nil =>
    cases hf
    cases hg
    exact .nil
  | cons x xs ih =>
    rw [List.mapM_cons] at hf hg
    cases hfx : f x with
    | error e => simp [hfx, bind, Except.bind] at hf
    | ok a =>
      cases hgx : g x with
      | error e => simp [hgx, bind, Except.bind] at hg
      | ok b =>
        cases hfxs : xs.mapM f with
        | error e => simp [hfx, hfxs, bind, Except.bind] at hf
        | ok as' =>
          cases hgxs : xs.mapM g with
          | error e => simp [hgx, hgxs, bind, Except.bind] at hg
          | ok bs' =>
            simp only [hfx, hfxs, bind, Except.bind, pure, Except.pure, Except.ok.injEq] at hf
            simp only [hgx, hgxs, bind, Except.bind, pure, Except.pure, Except.ok.injEq] at hg
            subst hf
            subst hg
            exact .cons (hone x a b hfx hgx) (ih hfxs hgxs)

/-- An item of the mirror's batch and a row of the sidecar that stand for one mapping. -/
def SameItem (tags : Nat → Option String) (item : String × String × Bool) (r : WireRow) : Prop :=
  bulkWrite item = some (textWrite tags r) ∧ (tags r.2.1).isSome = true

theorem sameItem_row (hsame : SameHashes hashes parsed) {row : MappingUpdate}
    {items : List (String × String × Bool)} {rows : List WireRow}
    (hitems : resolveMapping tags hashes row = .ok items) (hrows : gatherRow parsed row = .ok rows) :
    List.Forall₂ (SameItem tags) items rows := by
  cases htag : tags row.tagId with
  | none => simp [resolveMapping, htag] at hitems
  | some tag =>
    simp only [resolveMapping, htag] at hitems
    cases hshas : row.hashIds.mapM (sha256For parsed) with
    | error e => simp [gatherRow, hshas, bind, Except.bind] at hrows
    | ok shas =>
      simp only [gatherRow, hshas, bind, Except.bind, pure, Except.pure, Except.ok.injEq] at hrows
      subst hrows
      rw [List.forall₂_map_right_iff]
      refine mapM_both ?_ hitems hshas
      intro id item sha hitem hsha
      cases hhex : hashes id with
      | none => simp [resolveHashId, hhex] at hitem
      | some hex =>
        cases hp : parsed id with
        | none => simp [sha256For, hp] at hsha
        | some sha' =>
          simp only [resolveHashId, hhex, Except.ok.injEq] at hitem
          simp only [sha256For, hp, Except.ok.injEq] at hsha
          subst hitem
          subst hsha
          have hparse := hsame id sha' hp
          rw [hhex, Option.bind_some, Hash.parse] at hparse
          simp [SameItem, bulkWrite, hparse, textWrite, htag]

/-- The batch of an index and its rows come mapping by mapping. -/
theorem sameItem_batch (hsame : SameHashes hashes parsed) {decoded : List Update}
    {batch : List (String × String × Bool)} {rows : List WireRow}
    (hbatch : resolveMappings tags hashes decoded = .ok batch)
    (hrows : gather parsed decoded = .ok rows) : List.Forall₂ (SameItem tags) batch rows := by
  unfold resolveMappings at hbatch
  unfold gather at hrows
  cases hb : ((contents decoded).flatMap ContentUpdate.mappings).mapM
      (resolveMapping tags hashes) with
  | error e => simp [hb, bind, Except.bind] at hbatch
  | ok batches =>
    cases hr : ((contents decoded).flatMap ContentUpdate.mappings).mapM (gatherRow parsed) with
    | error e => simp [hr, bind, Except.bind] at hrows
    | ok rowss =>
      simp only [hb, bind, Except.bind, pure, Except.pure, Except.ok.injEq] at hbatch
      simp only [hr, bind, Except.bind, pure, Except.pure, Except.ok.injEq] at hrows
      rw [← hbatch, ← hrows]
      exact List.rel_flatten (mapM_both (fun _ _ _ hi hw => sameItem_row hsame hi hw) hb hr)

theorem writes_of_sameItem {batch : List (String × String × Bool)} {rows : List WireRow}
    (h : List.Forall₂ (SameItem tags) batch rows) :
    batch.filterMap bulkWrite = rows.map (textWrite tags) ∧
      ∀ r ∈ rows, (tags r.2.1).isSome = true := by
  induction h with
  | nil => simp
  | cons hone _ ih =>
    rw [List.filterMap_cons_some hone.1, List.map_cons, List.forall_mem_cons]
    exact ⟨congrArg _ ih.1, hone.2, ih.2⟩

end

/-! ## The invariant -/

section

variable (u : Unicode)

/-- The mirror and the sidecar hold the same pairs, and what the mirror stores is normal. -/
structure Agrees (m : Mirror) (sc : SidecarDb) : Prop where
  packed : sc.Packed
  tags : m.tags = sc.defsTags.lookup
  hashes : SameHashes m.hashes sc.defsHashes.lookup
  defined : ∀ hash id, id ∈ sc.readTagSet hash → sc.Defines id
  pairs : ∀ hash tag, m.mappings (hash, tag) = some .current ↔
    ∃ id ∈ sc.readTagSet hash, sc.defsTags.lookup id = some tag
  normalTags : ∀ id tag, m.tags id = some tag → NormalForm u tag
  normalRows : ∀ hash tag, (m.mappings (hash, tag)).isSome = true → NormalForm u tag

/-- A removal finds its tag on the file under no second id. -/
def Alone (sc : SidecarDb) (r : WireRow) : Prop :=
  r.2.2 = true → ∀ id ∈ sc.readTagSet r.1, sc.defsTags.lookup id = sc.defsTags.lookup r.2.1 →
    id = r.2.1

/-- An index defines tags in their normal forms, gives no tag that a file has another text, and
removes no tag that the file has under a second id. -/
structure Regular (sc : SidecarDb) (decoded : List Update) : Prop where
  normal : ∀ row ∈ tagDefs decoded, NormalForm u row.2
  kept : ∀ hash id, id ∈ sc.readTagSet hash →
    (sc.define u decoded).defsTags.lookup id = sc.defsTags.lookup id
  alone : ∀ rows, gather (sc.define u decoded).defsHashes.lookup decoded = .ok rows →
    AllSteps (fun sc r => sc.applyMutations r.1 [r.2]) Alone (sc.define u decoded) rows

/-- Of each update in turn. -/
def AllRegular (h : History) : SidecarDb → List MetadataEntry → Prop
  | _, [] => True
  | sc, entry :: entries => Regular u sc (h.decoded entry) ∧
      ∀ sc', sc.applyEntry u h entry = .ok sc' → AllRegular h sc' entries

end

section

variable {u : Unicode} {m : Mirror} {sc : SidecarDb} {decoded : List Update}

theorem parseTagDef_normal {row : Nat × String} (h : NormalForm u row.2) :
    parseTagDef u row = some row := by
  obtain ⟨tag, hparse, hdisplay⟩ := h
  simp [parseTagDef, hparse, hdisplay]

theorem tagDefRows_normal (h : ∀ row ∈ tagDefs decoded, NormalForm u row.2) :
    tagDefRows u decoded = tagDefs decoded := by
  rw [tagDefRows]
  refine (List.filterMap_congr fun row hrow => parseTagDef_normal (h row hrow)).trans ?_
  exact List.filterMap_some

theorem lastWrite_parseHashDef {rows : List (Nat × String)}
    (hrows : ∀ row ∈ rows, (Hash.parse row.2).isSome = true) (id : Nat) :
    lastWrite (rows.filterMap fun row => (parseHashDef row).toOption) id =
      (lastWrite rows id).bind Hash.parse := by
  induction rows with
  | nil => rfl
  | cons row rows ih =>
    obtain ⟨sha, hsha⟩ := Option.isSome_iff_exists.1 (hrows row List.mem_cons_self)
    have hrest := ih fun r hr => hrows r (List.mem_cons_of_mem _ hr)
    have hrow : (parseHashDef row).toOption = some (row.1, sha) := by
      simp [parseHashDef, hsha, Except.toOption]
    have hcons : (row :: rows).filterMap (fun row => (parseHashDef row).toOption) =
        [(row.1, sha)] ++ rows.filterMap fun row => (parseHashDef row).toOption :=
      List.filterMap_cons_some hrow
    rw [hcons, lastWrite_append, hrest, lastWrite_singleton, ← List.singleton_append,
      lastWrite_append, lastWrite_singleton]
    cases hl : lastWrite rows id with
    | some hex =>
      obtain ⟨sha', hsha'⟩ := Option.isSome_iff_exists.1
        (hrows _ (List.mem_cons_of_mem _ (mem_of_lastWrite hl)))
      simp [hsha']
    | none =>
      by_cases hid : row.1 = id
      · simp [hid, hsha]
      · simp [hid]

theorem lastWrite_hashDefRows (hwf : WellFormedDefs decoded) (id : Nat) :
    lastWrite (hashDefRows decoded) id = (lastWrite (hashDefs decoded) id).bind Hash.parse :=
  lastWrite_parseHashDef hwf id

theorem SameHashes.define {hashes : Nat → Option String} {parsed : Nat → Option Hash}
    (h : SameHashes hashes parsed) (hwf : WellFormedDefs decoded) :
    SameHashes (writeAll hashes (hashDefs decoded)) (writeAll parsed (hashDefRows decoded)) := by
  intro id sha hsha
  rw [writeAll_apply, lastWrite_hashDefRows hwf] at hsha
  rw [writeAll_apply]
  cases hl : lastWrite (hashDefs decoded) id with
  | none =>
    rw [hl] at hsha
    exact h id sha hsha
  | some hex =>
    obtain ⟨sha', hsha'⟩ := Option.isSome_iff_exists.1 (hwf _ (mem_of_lastWrite hl))
    simp only at hsha'
    simpa [hl, hsha'] using hsha

/-- The definitions of a regular index. -/
theorem Agrees.define (h : Agrees u m sc) (hr : Regular u sc decoded)
    (hwf : WellFormedDefs decoded) : Agrees u (m.define decoded) (sc.define u decoded) := by
  have htags : (m.define decoded).tags = (sc.define u decoded).defsTags.lookup := by
    rw [SidecarDb.define_tags, tagDefRows_normal hr.normal, ← h.tags]
    rfl
  refine ⟨h.packed.define u decoded, htags, ?_, ?_, ?_, ?_, fun hash tag hrow => ?_⟩
  · rw [SidecarDb.define_hashes]
    exact h.hashes.define hwf
  · intro hash id hid
    rw [SidecarDb.Defines, hr.kept hash id hid]
    exact h.defined hash id hid
  · intro hash tag
    refine (h.pairs hash tag).trans ?_
    constructor
    · rintro ⟨id, hid, htag⟩
      exact ⟨id, hid, (hr.kept hash id hid).trans htag⟩
    · rintro ⟨id, hid, htag⟩
      exact ⟨id, hid, (hr.kept hash id hid).symm.trans htag⟩
  · intro id tag htag
    change writeAll m.tags (tagDefs decoded) id = some tag at htag
    rw [writeAll_apply] at htag
    cases hl : lastWrite (tagDefs decoded) id with
    | none =>
      rw [hl, Option.none_or] at htag
      exact h.normalTags id tag htag
    | some tag' =>
      rw [hl, Option.some_or, Option.some.injEq] at htag
      rw [← htag]
      exact hr.normal (id, tag') (mem_of_lastWrite hl)
  · exact h.normalRows hash tag hrow

theorem mem_readTagSet_applyMutations (h : sc.Packed) (r : WireRow) (hash : Hash) (id : Nat) :
    id ∈ (sc.applyMutations r.1 [r.2]).readTagSet hash ↔
      if hash = r.1 ∧ id = r.2.1 then r.2.2 = false else id ∈ sc.readTagSet hash := by
  rw [SidecarDb.applyMutations, SidecarDb.mem_readTagSet_writeTagSet]
  by_cases hh : hash = r.1
  · rw [if_pos hh, List.foldl_cons, List.foldl_nil, SidecarDb.mem_mutate (h.pairwise r.1)]
    simp [hh]
  · simp [hh]

/-- A row that removes its tag under one id only. -/
theorem Agrees.applyRow (h : Agrees u m sc) {r : WireRow} (halone : Alone sc r)
    (hdef : (m.tags r.2.1).isSome = true) :
    Agrees u { m with mappings := write m.mappings (textWrite m.tags r) }
      (sc.applyMutations r.1 [r.2]) := by
  obtain ⟨text, htext⟩ := Option.isSome_iff_exists.1 hdef
  have hlookup : sc.defsTags.lookup r.2.1 = some text := (congrFun h.tags r.2.1).symm.trans htext
  have hwrite : textWrite m.tags r = ((r.1, text), if r.2.2 then .deleted else .current) := by
    simp [textWrite, htext]
  refine ⟨h.packed.applyMutations r.1 [r.2], h.tags, h.hashes, ?_, ?_, h.normalTags, ?_⟩
  · intro hash id hid
    rw [mem_readTagSet_applyMutations h.packed] at hid
    split at hid
    · rename_i hk
      rw [hk.2, SidecarDb.Defines]
      exact (congrArg Option.isSome hlookup).trans rfl
    · exact h.defined hash id hid
  · intro hash tag
    rw [hwrite]
    simp only [mem_readTagSet_applyMutations h.packed]
    change _ ↔ ∃ id, _ ∧ sc.defsTags.lookup id = some tag
    by_cases hk : (hash, tag) = (r.1, text)
    · cases hk
      rw [write_same]
      cases hdel : r.2.2 with
      | false =>
        simp only [Bool.false_eq_true, if_false, true_iff]
        exact ⟨r.2.1, by simp, hlookup⟩
      | true =>
        simp only [if_true, Option.some.injEq, reduceCtorEq, false_iff, true_and]
        rintro ⟨id, hid, htag⟩
        split at hid
        · cases hid
        · rename_i hne
          exact hne (halone hdel id hid (htag.trans hlookup.symm))
    · rw [write_ne hk, h.pairs]
      refine exists_congr fun id => and_congr_left fun htag => ?_
      have hne : ¬ (hash = r.1 ∧ id = r.2.1) := by
        rintro ⟨rfl, rfl⟩
        rw [hlookup, Option.some.injEq] at htag
        exact hk (by rw [htag])
      rw [if_neg hne]
  · intro hash tag hrow
    change (write m.mappings (textWrite m.tags r) (hash, tag)).isSome = true at hrow
    rw [hwrite] at hrow
    by_cases hk : (hash, tag) = (r.1, text)
    · cases hk
      exact h.normalTags _ _ htext
    · rw [write_ne hk] at hrow
      exact h.normalRows hash tag hrow

theorem Agrees.applyRows (h : Agrees u m sc) {rows : List WireRow}
    (halone : AllSteps (fun sc r => sc.applyMutations r.1 [r.2]) Alone sc rows)
    (hdef : ∀ r ∈ rows, (m.tags r.2.1).isSome = true) :
    Agrees u { m with mappings := writeAll m.mappings (rows.map (textWrite m.tags)) }
      (sc.applyRows rows) := by
  induction rows generalizing m sc with
  | nil => exact h
  | cons r rows ih =>
    obtain ⟨hhead, htail⟩ := halone
    have hrow := h.applyRow hhead (hdef r List.mem_cons_self)
    exact ih hrow htail fun r' hr' => hdef r' (List.mem_cons_of_mem _ hr')

/-- An index that both apply. -/
theorem Agrees.applyEntry {bridge : Signer} {h : History} {entry : MetadataEntry} {m' : Mirror}
    {sc' : SidecarDb} (hag : Agrees u m sc) (hr : Regular u sc (h.decoded entry))
    (hm : m.applyEntry u bridge h entry = .ok m') (hsc : sc.applyEntry u h entry = .ok sc') :
    Agrees u m' sc' := by
  obtain ⟨hwf, rows, hrows, rfl⟩ := applyEntry_eq_ok hsc
  have hdefined := hag.define hr hwf
  cases hmap : entry.updateHashes.mapM h.content with
  | error e => simp [Mirror.applyEntry, hmap] at hm
  | ok decoded =>
    have hd : h.decoded entry = decoded := by simp [History.decoded, hmap]
    rw [hd] at hdefined hrows hr ⊢
    cases hbatch : resolveMappings (m.define decoded).tags (m.define decoded).hashes decoded with
    | error e => simp [Mirror.applyEntry, hmap, Mirror.applyUpdates, hbatch] at hm
    | ok batch =>
      simp only [Mirror.applyEntry, hmap, Mirror.applyUpdates, hbatch, Except.ok.injEq] at hm
      obtain ⟨hwrites, hdef⟩ :=
        writes_of_sameItem (sameItem_batch hdefined.hashes hbatch hrows)
      have hall := hdefined.applyRows (hr.alone rows hrows) hdef
      rw [← hm, hwrites]
      exact ⟨hall.packed, hall.tags, hall.hashes, hall.defined, hall.pairs, hall.normalTags,
        hall.normalRows⟩

theorem Agrees.applyAll {bridge : Signer} {h : History} {entries : List MetadataEntry}
    {m' : Mirror} {sc' : SidecarDb} (hag : Agrees u m sc) (hr : AllRegular u h sc entries)
    (hm : m.applyAll u bridge h entries = .ok m') (hsc : sc.applyAll u h entries = .ok sc') :
    Agrees u m' sc' := by
  induction entries generalizing m sc with
  | nil =>
    cases hm
    cases hsc
    exact hag
  | cons entry entries ih =>
    obtain ⟨hhead, htail⟩ := hr
    rw [SidecarDb.applyAll, List.foldlM_cons] at hsc
    cases hme : m.applyEntry u bridge h entry with
    | error e => simp [Mirror.applyAll, hme] at hm
    | ok m₁ =>
      cases hse : sc.applyEntry u h entry with
      | error e => simp [hse, bind, Except.bind] at hsc
      | ok sc₁ =>
        simp only [Mirror.applyAll, hme] at hm
        simp only [hse, bind, Except.bind] at hsc
        exact ih (hag.applyEntry hhead hme hse) (htail sc₁ hse) hm hsc

end

/-! ## The answers -/

/-- The tags of a hash in the mirror's answers, in order. -/
theorem native_tags {store : RepoStore} (hs : store.Sound) (hash : Hash) :
    (((BucketSource.native store).current hash).map OriginTag.tag).Pairwise (· < ·) ∧
      ∀ tag, tag ∈ ((BucketSource.native store).current hash).map OriginTag.tag ↔
        store.statuses (hash, tag) = some .current := by
  let rows := store.joinRows.filter fun r => (r.2.2.status = .current ∧ true = true) ∧ r.1 = hash
  have hcurrent : ((BucketSource.native store).current hash).map OriginTag.tag =
      (orderBy RepoStore.hashTagKey rows).map fun r => r.2.1 := by
    have hread := BucketSource.filter_read store (fun _ => true) hash
    simp only [and_true] at hread
    simp only [BucketSource.current, RepoStore.snapshot, Table.lookup_groupOnto, AList.lookup_empty,
      Option.getD_none, List.nil_append, hread, rows]
    simp [List.map_map, Function.comp_def]
  have hrow : ∀ r ∈ rows, store.row hash r.2.1 = some r.2.2 ∧ r.2.2.status = .current ∧
      r.1 = hash := by
    intro r hr
    obtain ⟨hmem, hcond⟩ := List.mem_filter.1 hr
    simp only [decide_eq_true_eq] at hcond
    obtain ⟨⟨hcur, _⟩, rfl⟩ := hcond
    exact ⟨(RepoStore.mem_joinRows hs).1 hmem, hcur, rfl⟩
  have hkeys : (rows.map RepoStore.hashTagKey).Nodup := by
    refine List.Nodup.map_on ?_ ((RepoStore.nodup_joinRows hs).filter _)
    intro r hr r' hr' heq
    obtain ⟨hrow₁, _, hhash₁⟩ := hrow r hr
    obtain ⟨hrow₂, _, hhash₂⟩ := hrow r' hr'
    have htag : r.2.1 = r'.2.1 := congrArg Prod.snd (toLex.injective heq)
    rw [htag, hrow₂] at hrow₁
    exact Prod.ext (hhash₁.trans hhash₂.symm) (Prod.ext htag (Option.some.inj hrow₁).symm)
  rw [hcurrent]
  constructor
  · have hstrict := List.pairwise_map.1 (orderBy_strict hkeys)
    rw [List.pairwise_map]
    refine (List.Pairwise.and_mem.1 hstrict).imp ?_
    rintro r r' ⟨hr, hr', hlt⟩
    rcases Prod.Lex.toLex_lt_toLex.1 hlt with hlt | ⟨_, hlt⟩
    · rw [(hrow r (mem_orderBy.1 hr)).2.2, (hrow r' (mem_orderBy.1 hr')).2.2] at hlt
      exact absurd hlt (lt_irrefl _)
    · exact hlt
  · intro tag
    simp only [List.mem_map, mem_orderBy, RepoStore.statuses, Option.map_eq_some_iff]
    constructor
    · rintro ⟨r, hr, rfl⟩
      obtain ⟨hrow, hcur, _⟩ := hrow r hr
      exact ⟨r.2.2, hrow, hcur⟩
    · rintro ⟨row, hrow, hcur⟩
      refine ⟨(hash, tag, row), List.mem_filter.2 ⟨(RepoStore.mem_joinRows hs).2 hrow, ?_⟩, rfl⟩
      simp [hcur]

section

variable {sc : SidecarDb}

theorem resolve_of_trueUp {budget spent spent' : Nat} {ids : List (Hash × Nat)}
    {rows : List (Hash × String)} (h : sc.trueUp budget spent ids = .ok (rows, spent')) :
    ∀ hash tag, (hash, tag) ∈ rows ↔
      ∃ id, (hash, id) ∈ ids ∧ sc.defsTags.lookup id = some tag := by
  induction ids generalizing spent rows with
  | nil =>
    simp only [SidecarDb.trueUp, Except.ok.injEq, Prod.mk.injEq] at h
    simp [← h.1]
  | cons p ids ih =>
    obtain ⟨hash', id'⟩ := p
    cases htag : sc.defsTags.lookup id' with
    | none => simp [SidecarDb.trueUp, htag] at h
    | some tag' =>
      by_cases hbudget : budget < spent + pairCost (hash', tag')
      · simp [SidecarDb.trueUp, htag, hbudget] at h
      · cases hr : sc.trueUp budget (spent + pairCost (hash', tag')) ids with
        | error e => simp [SidecarDb.trueUp, htag, hbudget, hr, Except.map] at h
        | ok out =>
          simp only [SidecarDb.trueUp, htag, hbudget, hr, Except.map, if_false, Except.ok.injEq,
            Prod.mk.injEq] at h
          intro hash tag
          have hrest := @ih (spent + pairCost (hash', tag')) out.1 (by rw [hr, ← h.2]) hash tag
          rw [← h.1, List.mem_cons, hrest]
          grind

theorem exists_trueUp {ids : List (Hash × Nat)} (h : ∀ p ∈ ids, sc.Defines p.2) (spent : Nat) :
    ∃ n, ∀ budget ≥ n, ∃ out, sc.trueUp budget spent ids = .ok out := by
  induction ids generalizing spent with
  | nil => exact ⟨0, fun _ _ => ⟨_, rfl⟩⟩
  | cons p ids ih =>
    obtain ⟨tag, htag⟩ := Option.isSome_iff_exists.1 (h p List.mem_cons_self)
    obtain ⟨n, hn⟩ := ih (fun q hq => h q (List.mem_cons_of_mem _ hq)) (spent + pairCost (p.1, tag))
    refine ⟨max n (spent + pairCost (p.1, tag)), fun budget hbudget => ?_⟩
    obtain ⟨out, hout⟩ := hn budget (le_of_max_le_left hbudget)
    have hle := le_of_max_le_right hbudget
    refine ⟨((p.1, tag) :: out.1, out.2), ?_⟩
    simp [SidecarDb.trueUp, htag, Nat.not_lt.2 hle, hout, Except.map]

theorem mem_rowIds {lo : Hash} {bits : Nat} {hash : Hash} {id : Nat} :
    (hash, id) ∈ SidecarDb.rowIds (sc.bandRows (masked lo bits) bits) ↔
      BucketSource.inBucket bits (bucketKey lo bits) hash = true ∧ id ∈ sc.readTagSet hash := by
  simp only [SidecarDb.rowIds, SidecarDb.bandRows, List.mem_flatMap, mem_orderBy, List.mem_filter,
    BucketSource.inRange_masked, List.mem_map, Prod.mk.injEq, SidecarDb.readTagSet]
  constructor
  · rintro ⟨e, ⟨he, hin⟩, id', hid, rfl, rfl⟩
    exact ⟨hin, by rw [Table.mem_entries.1 he]; exact hid⟩
  · rintro ⟨hin, hid⟩
    cases hl : sc.bucketMap.lookup hash with
    | none => simp [hl] at hid
    | some ids =>
      rw [hl] at hid
      exact ⟨⟨hash, ids⟩, ⟨Table.mem_entries.2 hl, hin⟩, id, hid, rfl, rfl⟩

/-- The tags of a hash in the sidecar's answers, in order. -/
theorem sidecar_tags {lo : Hash} {bits budget spent : Nat} {table : Table Hash (List String)}
    (h : sc.bucket (bucketKey lo bits) bits budget = .ok (table, spent)) (hash : Hash) :
    ((table.lookup hash).getD []).Pairwise (· < ·) ∧
      ∀ tag, tag ∈ (table.lookup hash).getD [] ↔
        BucketSource.inBucket bits (bucketKey lo bits) hash = true ∧
          ∃ id ∈ sc.readTagSet hash, sc.defsTags.lookup id = some tag := by
  simp only [SidecarDb.bucket, parse_bucketKey] at h
  split at h
  · cases h
  · cases hr : sc.trueUp budget 0 (SidecarDb.rowIds (sc.bandRows (masked lo bits) bits)) with
    | error e => simp [hr] at h
    | ok out =>
      simp only [hr, Except.ok.injEq, Prod.mk.injEq] at h
      rw [← h.1, BucketSource.getD_lookup_groupSorted]
      refine ⟨sortDedup_strict _, fun tag => ?_⟩
      have hrows := @resolve_of_trueUp sc budget 0 out.2 _ out.1 hr hash tag
      simp only [mem_sortDedup, List.mem_map, List.mem_filter, decide_eq_true_eq]
      constructor
      · rintro ⟨p, ⟨hp, rfl⟩, rfl⟩
        obtain ⟨id, hid, htag⟩ := hrows.1 hp
        exact ⟨(mem_rowIds.1 hid).1, id, (mem_rowIds.1 hid).2, htag⟩
      · rintro ⟨hin, id, hid, htag⟩
        exact ⟨(hash, tag), ⟨hrows.2 ⟨id, mem_rowIds.2 ⟨hin, hid⟩, htag⟩, rfl⟩, rfl⟩

theorem exists_bucket (h : ∀ hash id, id ∈ sc.readTagSet hash → sc.Defines id) (lo : Hash)
    (bits : Nat) : ∃ n, ∀ budget ≥ n, ∃ r, sc.bucket (bucketKey lo bits) bits budget = .ok r := by
  let ids := SidecarDb.rowIds (sc.bandRows (masked lo bits) bits)
  have hids : ∀ p ∈ ids, sc.Defines p.2 := fun p hp => h p.1 p.2 (mem_rowIds.1 hp).2
  obtain ⟨n, hn⟩ := exists_trueUp hids 0
  refine ⟨max n (threshold 0 (ids.map fun _ => approxRowCost 64 1)), fun budget hbudget => ?_⟩
  obtain ⟨out, hout⟩ := hn budget (le_of_max_le_left hbudget)
  refine ⟨(groupSorted out.1, out.2), ?_⟩
  simp only [SidecarDb.bucket, parse_bucketKey, drain_eq_if]
  rw [if_pos (le_of_max_le_right hbudget)]
  simp only [ids] at hout
  simp [hout]

end

/-- For every bucket a mirror and a sidecar return the same tags of each hash, and what the mirror
stores is normal. -/
structure SameTags (u : Unicode) (node : BridgeNode) (side : SidecarNode) : Prop where
  agree : ∀ lo bits budget budget' table spent table' spent',
    (BucketSource.native node.repo.toRepoStore).read bits (bucketKey lo bits) budget =
      some (.ok (table, spent)) →
    side.sidecar.bucket (bucketKey lo bits) bits budget' = .ok (table', spent') →
    ∀ hash, ((table.lookup hash).getD []).map OriginTag.tag = (table'.lookup hash).getD []
  served : ∀ lo bits, ∃ n, ∀ budget ≥ n,
    (∃ r, (BucketSource.native node.repo.toRepoStore).read bits (bucketKey lo bits) budget =
      some (.ok r)) ∧ ∃ r, side.sidecar.bucket (bucketKey lo bits) bits budget = .ok r
  normal : ∀ hash tag, (node.repo.statuses (hash, tag)).isSome = true → NormalForm u tag

theorem Agrees.sameTags {u : Unicode} {node : BridgeNode} {side : SidecarNode}
    (h : Agrees u node.mirror side.sidecar) (hs : node.repo.toRepoStore.Sound) :
    SameTags u node side := by
  refine ⟨?_, ?_, h.normalRows⟩
  · intro lo bits budget budget' table spent table' spent' hread hbucket hash
    obtain ⟨hstrict', hmem'⟩ := sidecar_tags hbucket hash
    obtain ⟨hstrict, hmem⟩ := native_tags hs hash
    rw [BucketSource.read_lawful, Option.some.injEq] at hread
    split at hread
    · cases hread
      rw [BucketSource.lookup_content]
      refine strict_ext ?_ hstrict' fun tag => ?_
      · split
        · exact hstrict
        · exact .nil
      · rw [hmem', ← h.pairs hash tag]
        split
        · rename_i hin
          rw [hmem]
          exact (and_iff_right hin).symm
        · rename_i hin
          simp [hin]
    · cases hread
  · intro lo bits
    obtain ⟨n, hn⟩ := exists_bucket h.defined lo bits
    refine ⟨max n ((BucketSource.native node.repo.toRepoStore).cost bits (bucketKey lo bits)),
      fun budget hbudget => ⟨?_, hn budget (le_of_max_le_left hbudget)⟩⟩
    rw [BucketSource.read_lawful, if_pos (le_of_max_le_right hbudget)]
    exact ⟨_, rfl⟩

end Bridge
end Naiad
