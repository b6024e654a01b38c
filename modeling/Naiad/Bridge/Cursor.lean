import Mathlib.Data.Fintype.EquivFin
import Naiad.Bridge.Follow
import Naiad.Bridge.Rebuild

/-!
# Naiad.Bridge.Cursor

The update cursor after a rebuild. A rebuild takes the mappings of its snapshot, but the phase that
stores the cursor is done from the first seed on, so the cursor stays where the live position was.

* `Dictionary.writes`: what updates write, by the ids the upstream has given out.
* `rebuild_cursor_iff`: **the passes after a rebuild come to the snapshot followed by every later
  update just in case the stored cursor is not past the snapshot's watermark**.
* `rebuild_skips_update`: an update that is never applied.
-/

namespace Naiad
namespace Bridge

open Lib Netproto Server

/-! ## Updates by the dictionary of the upstream -/

/-- The ids the upstream has given out. -/
structure Dictionary where
  hashes : Nat → Option String
  tags : Nat → Option String

namespace Dictionary

/-- What a mirror has defined is what the upstream gave out. -/
structure Covers (d : Dictionary) (m : Mirror) : Prop where
  hashes : ∀ id v, m.hashes id = some v → d.hashes id = some v
  tags : ∀ id v, m.tags id = some v → d.tags id = some v

/-- Every definition the upstream publishes is one it gave out: an id never changes its meaning. -/
def Names (d : Dictionary) (h : History) : Prop :=
  ∀ name defs, h.content name = .ok (.definitions defs) →
    (∀ r ∈ defs.hashes, d.hashes r.1 = some r.2) ∧ ∀ r ∈ defs.tags, d.tags r.1 = some r.2

def mirror (d : Dictionary) : Mirror := ⟨d.hashes, d.tags, fun _ => none, fun _ => none⟩

/-- The writes of an update to the mappings. -/
def entryWrites (d : Dictionary) (h : History) (entry : MetadataEntry) : List StatusWrite :=
  mappingWrites d.mirror (h.decoded entry)

def writes (d : Dictionary) (h : History) (entries : List MetadataEntry) : List StatusWrite :=
  entries.flatMap (d.entryWrites h)

end Dictionary

theorem mapM_mono {A B : Type} {f g : A → Except BridgeError B}
    (hfg : ∀ a b, f a = .ok b → g a = .ok b) {as : List A} {bs : List B}
    (h : as.mapM f = .ok bs) : as.mapM g = .ok bs := by
  induction as generalizing bs with
  | nil => exact h
  | cons a as ih =>
    rw [List.mapM_cons] at h ⊢
    cases hf : f a with
    | error e => simp [hf, bind, Except.bind] at h
    | ok b =>
      cases hr : as.mapM f with
      | error e => simp [hf, hr, bind, Except.bind] at h
      | ok bs' => simpa [hf, hr, hfg a b hf, ih hr, bind, Except.bind] using h

theorem mapM_mem {A B : Type} {f : A → Except BridgeError B} {as : List A} {bs : List B}
    (h : as.mapM f = .ok bs) : ∀ b ∈ bs, ∃ a ∈ as, f a = .ok b := by
  induction as generalizing bs with
  | nil =>
    cases h
    simp
  | cons a as ih =>
    rw [List.mapM_cons] at h
    cases hf : f a with
    | error e => simp [hf, bind, Except.bind] at h
    | ok b =>
      cases hr : as.mapM f with
      | error e => simp [hf, hr, bind, Except.bind] at h
      | ok bs' =>
        have hbs : b :: bs' = bs := by
          simpa [hf, hr, bind, Except.bind, pure, Except.pure] using h
        subst hbs
        intro b' hb'
        rcases List.mem_cons.1 hb' with rfl | hb'
        · exact ⟨a, List.mem_cons_self, hf⟩
        · obtain ⟨a', ha', hfa⟩ := ih hr b' hb'
          exact ⟨a', List.mem_cons_of_mem _ ha', hfa⟩

section

variable {d : Dictionary} {m : Mirror}

theorem resolveMappings_mono (hc : d.Covers m) {decoded : List Update}
    {batch : List (String × String × Bool)}
    (h : resolveMappings m.tags m.hashes decoded = .ok batch) :
    resolveMappings d.tags d.hashes decoded = .ok batch := by
  have hhash : ∀ tag isDelete id item, resolveHashId m.hashes tag isDelete id = .ok item →
      resolveHashId d.hashes tag isDelete id = .ok item := by
    intro tag isDelete id item hid
    unfold resolveHashId at hid ⊢
    split at hid
    · cases hid
    · rename_i sha hsha
      rw [hc.hashes id sha hsha]
      exact hid
  have hrow : ∀ row items, resolveMapping m.tags m.hashes row = .ok items →
      resolveMapping d.tags d.hashes row = .ok items := by
    intro row items hr
    unfold resolveMapping at hr ⊢
    split at hr
    · cases hr
    · rename_i tag htag
      rw [hc.tags row.tagId tag htag]
      exact mapM_mono (hhash tag _) hr
  unfold resolveMappings at h ⊢
  cases hb : ((contents decoded).flatMap ContentUpdate.mappings).mapM
      (resolveMapping m.tags m.hashes) with
  | error e => simp [hb, bind, Except.bind] at h
  | ok batches => simpa [hb, mapM_mono hrow hb, bind, Except.bind] using h

/-- Definitions the upstream gave out keep a mirror covered. -/
theorem covers_define {h : History} (hn : d.Names h) (hc : d.Covers m) {names : List String}
    {decoded : List Update} (hd : names.mapM h.content = .ok decoded) :
    d.Covers (m.define decoded) := by
  have hdefs : ∀ f ∈ decoded, ∃ name, h.content name = .ok f := by
    intro f hf
    obtain ⟨name, _, hname⟩ := mapM_mem hd f hf
    exact ⟨name, hname⟩
  constructor
  · intro id v hv
    simp only [Mirror.define, writeAll_apply] at hv
    cases hl : lastWrite (hashDefs decoded) id with
    | none =>
      rw [hl] at hv
      exact hc.hashes id v hv
    | some v' =>
      rw [hl] at hv
      cases hv
      obtain ⟨f, hf, hmem⟩ := List.mem_flatMap.1 (mem_of_lastWrite hl)
      obtain ⟨name, hname⟩ := hdefs f hf
      cases f with
      | definitions defs => exact (hn name defs hname).1 _ hmem
      | content c => simp at hmem
  · intro id v hv
    simp only [Mirror.define, writeAll_apply] at hv
    cases hl : lastWrite (tagDefs decoded) id with
    | none =>
      rw [hl] at hv
      exact hc.tags id v hv
    | some v' =>
      rw [hl] at hv
      cases hv
      obtain ⟨f, hf, hmem⟩ := List.mem_flatMap.1 (mem_of_lastWrite hl)
      obtain ⟨name, hname⟩ := hdefs f hf
      cases f with
      | definitions defs => exact (hn name defs hname).2 _ hmem
      | content c => simp at hmem

/-- Updates applied by a covered mirror write what the dictionary says. -/
theorem applyAll_writes {u : Unicode} {bridge : Signer} {h : History} (hn : d.Names h)
    (hc : d.Covers m) {entries : List MetadataEntry} {m' : Mirror}
    (ha : m.applyAll u bridge h entries = .ok m') :
    m'.mappings = writeAll m.mappings (d.writes h entries) := by
  induction entries generalizing m with
  | nil =>
    cases ha
    rfl
  | cons entry entries ih =>
    simp only [Mirror.applyAll] at ha
    split at ha
    · cases ha
    · rename_i m₁ hone
      unfold Mirror.applyEntry at hone
      split at hone
      · cases hone
      · rename_i decoded hd
        have hcov := covers_define hn hc hd
        have hdec : h.decoded entry = decoded := by simp [History.decoded, hd]
        unfold Mirror.applyUpdates at hone
        simp only at hone
        split at hone
        · cases hone
        · rename_i batch hb
          cases hone
          have hw : d.entryWrites h entry = batch.filterMap bulkWrite := by
            rw [Dictionary.entryWrites, hdec]
            exact mappingWrites_of_batch (resolveMappings_mono hcov hb)
          have hcov₁ : d.Covers { m.define decoded with
              mappings := writeAll (m.define decoded).mappings (batch.filterMap bulkWrite)
              relations := writeAll (m.define decoded).relations
                ((buildRelationSubs u bridge (m.define decoded).tags decoded).map
                  relationWrite) } := ⟨hcov.hashes, hcov.tags⟩
          have hall : d.writes h (entry :: entries) =
              batch.filterMap bulkWrite ++ d.writes h entries := by
            rw [Dictionary.writes, List.flatMap_cons, hw]
            rfl
          rw [ih hcov₁ ha, hall, writeAll_append]
          rfl

end

/-! ## The snapshot and what follows it -/

/-- The snapshot holds what the updates up to its watermark wrote. -/
def Reflects (d : Dictionary) (h : History) (snap : Snapshot) (w : Nat) : Prop :=
  ∀ k, seededStatus snap k =
    lastWrite (d.writes h (h.entries.filter fun e => e.updateIndex ≤ w)) k

/-- Whatever passes follow, a pass that ends leaves the pairs nobody submitted as the snapshot
followed by every update past its watermark has them. -/
def FollowsSnapshot (u : Unicode) (bridge : Signer) (snap : Snapshot) (w : Nat)
    (node₁ : BridgeNode) : Prop :=
  ∀ (d : Dictionary) (h : History), d.Names h → d.Covers node₁.mirror → Reflects d h snap w →
    ∀ node₂ seen, Relation.ReflTransGen (Pass u bridge h) (node₁, 0) (node₂, seen) →
      ∀ ts src refreshed k applied node₃, seen ≤ k → Serves h k src →
        ((h.entries.take k).filter fun e => e.updateIndex ≤ w) =
          h.entries.filter (fun e => e.updateIndex ≤ w) →
        (syncOnce u bridge ts src refreshed).Returns node₂ applied node₃ →
        ∀ key, lastLogged node₁.repo.toRepoStore key = none →
          node₃.repo.statuses key =
            writeAll (seededStatus snap) (d.writes h (h.published (w + 1) k)) key

theorem filter_split {l : List MetadataEntry} (c : Nat) (p : MetadataEntry → Bool)
    (hasc : l.Pairwise fun a b => a.updateIndex < b.updateIndex) :
    l.filter p = l.filter (fun e => p e && decide (e.updateIndex < c)) ++
      l.filter fun e => p e && decide (c ≤ e.updateIndex) := by
  induction l with
  | nil => rfl
  | cons e l ih =>
    obtain ⟨hlt, htail⟩ := List.pairwise_cons.1 hasc
    by_cases hc : e.updateIndex < c
    · have hnot : ¬c ≤ e.updateIndex := by omega
      simp only [List.filter_cons, hc, hnot, decide_true, decide_false, Bool.and_true,
        Bool.and_false, Bool.false_eq_true, if_false]
      rw [ih htail]
      split
      · rfl
      · rfl
    · have hle : c ≤ e.updateIndex := by omega
      have hnone : l.filter (fun e => p e && decide (e.updateIndex < c)) = [] := by
        rw [List.filter_eq_nil_iff]
        intro x hx
        have := hlt x hx
        have hnot : ¬x.updateIndex < c := by omega
        simp [hnot]
      simp only [List.filter_cons, hc, hle, decide_true, decide_false, Bool.and_true,
        Bool.and_false, Bool.false_eq_true, if_false, hnone, List.nil_append]
      have hrest := ih htail
      rw [hnone, List.nil_append] at hrest
      rw [← hrest]

/-- A cursor that is not past the watermark replays updates the snapshot holds, which changes
nothing. -/
theorem statuses_of_replay {d : Dictionary} {h : History} {snap : Snapshot} {w c k : Nat}
    (hr : Reflects d h snap w) (hc : c ≤ w + 1)
    (hseen : ((h.entries.take k).filter fun e => e.updateIndex ≤ w) =
      h.entries.filter fun e => e.updateIndex ≤ w)
    {f : Hash × String → Option MappingStatus} {key : Hash × String}
    (hf : f key = seededStatus snap key) :
    writeAll f (d.writes h (h.published c k)) key =
      writeAll (seededStatus snap) (d.writes h (h.published (w + 1) k)) key := by
  have hasc : (h.entries.take k).Pairwise fun a b => a.updateIndex < b.updateIndex :=
    h.ascending.sublist (List.take_sublist k h.entries)
  let old := (h.entries.take k).filter fun e =>
    decide (e.updateIndex ≤ w) && decide (e.updateIndex < c)
  let again := (h.entries.take k).filter fun e =>
    decide (e.updateIndex ≤ w) && decide (c ≤ e.updateIndex)
  -- what is published from the cursor on: what is replayed, then what is new
  have hpub : h.published c k = again ++ h.published (w + 1) k := by
    rw [History.published, filter_split (w + 1) _ hasc]
    congr 1
    · refine List.filter_congr fun e _ => ?_
      rw [Bool.and_comm]
      congr 1
      simp only [decide_eq_decide]
      omega
    · refine List.filter_congr fun e _ => ?_
      simp only [Bool.and_eq_right_iff_imp, decide_eq_true_eq]
      omega
  -- what the snapshot holds: what is behind the cursor, then what is replayed
  have hall : h.entries.filter (fun e => e.updateIndex ≤ w) = old ++ again := by
    rw [← hseen]
    exact filter_split c _ hasc
  have hseeded : seededStatus snap key =
      (lastWrite (d.writes h again) key).or (lastWrite (d.writes h old) key) := by
    rw [hr key, hall, Dictionary.writes, List.flatMap_append, lastWrite_append]
    rfl
  have hsplit : d.writes h (h.published c k) =
      d.writes h again ++ d.writes h (h.published (w + 1) k) := by
    rw [hpub, Dictionary.writes, List.flatMap_append]
    rfl
  rw [hsplit, writeAll_apply, lastWrite_append, writeAll_apply, hf, hseeded]
  cases lastWrite (d.writes h (h.published (w + 1) k)) key with
  | some v => rfl
  | none =>
    cases lastWrite (d.writes h again) key with
    | some v => rfl
    | none => rfl

/-! ## The cursor a rebuild leaves -/

section

variable {u : Unicode} {bridge : Signer} {snap : Snapshot} {w : Nat} {node₀ node₁ : BridgeNode}

theorem followsSnapshot_of_cursor (h : Rebuilt snap node₀ node₁)
    (hc : node₁.state.nextUpdateIndex ≤ w + 1) : FollowsSnapshot u bridge snap w node₁ := by
  intro d hist hn hcov hr node₂ seen hruns ts src refreshed k applied node₃ hk hsrc hseen hret
    key hkey
  have hstanding := sync_exactly_once u bridge hist h.serving hruns
  obtain ⟨happly, _⟩ := hstanding.complete ts src refreshed k applied node₃ hk hsrc hret
  have hst : node₃.repo.statuses = writeAll node₁.repo.statuses
      (d.writes hist (hist.published node₁.state.nextUpdateIndex k)) :=
    applyAll_writes hn hcov happly
  rw [hst]
  refine statuses_of_replay hr hc hseen ?_
  rw [statuses_rebuilt h, lastLogged, ← h.submissions]
  change (lastLogged node₁.repo.toRepoStore key).or _ = _
  rw [hkey]
  rfl

/-! ## A cursor past the watermark -/

/-- A table is finite: from some id on it has no row. -/
theorem exists_fresh (t : Table Nat String) : ∃ base, ∀ id, base ≤ id → t.lookup id = none := by
  refine ⟨t.keys.foldr max 0 + 1, fun id hid => ?_⟩
  rw [AList.lookup_eq_none]
  intro hmem
  have hle := Table.le_foldr_max (AList.mem_keys.2 hmem)
  omega

/-- One row of an update for each item, under ids of its own. -/
def rowUpdates : Nat → List (String × String × Bool) → List MappingUpdate
  | _, [] => []
  | id, item :: items =>
    ⟨id, [id], if item.2.2 then .delete else .add⟩ :: rowUpdates (id + 1) items

theorem resolve_rowUpdates {d : Dictionary} {items : List (String × String × Bool)} {id : Nat}
    (hd : ∀ i item, items[i]? = some item →
      d.hashes (id + i) = some item.1 ∧ d.tags (id + i) = some item.2.1) :
    (rowUpdates id items).mapM (resolveMapping d.tags d.hashes) =
      .ok (items.map fun item => [item]) := by
  induction items generalizing id with
  | nil => rfl
  | cons item items ih =>
    obtain ⟨hh, ht⟩ := hd 0 item rfl
    have hstep : ∀ i item', items[i]? = some item' →
        d.hashes (id + 1 + i) = some item'.1 ∧ d.tags (id + 1 + i) = some item'.2.1 := by
      intro i item' hi
      rw [Nat.add_assoc, Nat.add_comm 1 i]
      exact hd (i + 1) item' hi
    have hrest := ih hstep
    obtain ⟨sha, tag, isDelete⟩ := item
    have hone : resolveMapping d.tags d.hashes
        ⟨id, [id], if isDelete then .delete else .add⟩ = .ok [(sha, tag, isDelete)] := by
      simp only [Nat.add_zero] at hh ht
      cases isDelete with
      | true => simp [resolveMapping, resolveHashId, hh, ht, bind, Except.bind, pure, Except.pure]
      | false => simp [resolveMapping, resolveHashId, hh, ht, bind, Except.bind, pure, Except.pure]
    rw [rowUpdates, List.mapM_cons]
    simp [hone, hrest, bind, Except.bind, pure, Except.pure]

/-- An upstream of two updates: the rows of the snapshot, and after it one more. -/
def twoUpdates (w base : Nat) (items : List (String × String × Bool))
    (item : String × String × Bool) : History where
  entries := [⟨w, ["snapshot"]⟩, ⟨w + 1, ["next"]⟩]
  content := fun name =>
    if name = "snapshot" then .ok (.content ⟨rowUpdates base items, [], []⟩)
    else .ok (.content ⟨rowUpdates (base + items.length) [item], [], []⟩)
  ascending := by simp

/-- The ids a node knows, and those of the items from `base` on. -/
def itemIds (node : BridgeNode) (base : Nat) (items : List (String × String × Bool)) :
    Dictionary where
  hashes := fun id => (node.state.defsHashes.lookup id).or (items[id - base]?.map Prod.fst)
  tags := fun id => (node.state.defsTags.lookup id).or (items[id - base]?.map fun item => item.2.1)

theorem covers_itemIds (node : BridgeNode) (base : Nat) (items : List (String × String × Bool)) :
    (itemIds node base items).Covers node.mirror where
  hashes := by
    intro id v hv
    simp only [BridgeNode.mirror] at hv
    simp [itemIds, hv]
  tags := by
    intro id v hv
    simp only [BridgeNode.mirror] at hv
    simp [itemIds, hv]

section

variable {base : Nat} {items : List (String × String × Bool)} {item : String × String × Bool}
  {node : BridgeNode}

theorem names_twoUpdates (d : Dictionary) : d.Names (twoUpdates w base items item) := by
  intro name defs hc
  simp only [twoUpdates] at hc
  split at hc
  · cases hc
  · cases hc

theorem itemIds_spec (hh : ∀ id, base ≤ id → node.state.defsHashes.lookup id = none)
    (ht : ∀ id, base ≤ id → node.state.defsTags.lookup id = none) {i : Nat}
    {it : String × String × Bool} (hi : items[i]? = some it) :
    (itemIds node base items).hashes (base + i) = some it.1 ∧
      (itemIds node base items).tags (base + i) = some it.2.1 := by
  simp [itemIds, hh (base + i) (by omega), ht (base + i) (by omega), hi]

theorem entryWrites_of_rows {d : Dictionary} {h : History} {entry : MetadataEntry} {id : Nat}
    {rows : List (String × String × Bool)}
    (hdec : h.decoded entry = [.content ⟨rowUpdates id rows, [], []⟩])
    (hd : ∀ i it, rows[i]? = some it → d.hashes (id + i) = some it.1 ∧
      d.tags (id + i) = some it.2.1) :
    d.entryWrites h entry = rows.filterMap bulkWrite := by
  have hb : resolveMappings d.tags d.hashes [.content ⟨rowUpdates id rows, [], []⟩] = .ok rows := by
    have hres := resolve_rowUpdates hd
    have hflat : (rows.map fun it => [it]).flatten = rows := by
      rw [← List.flatMap_def, List.flatMap_singleton']
    simp [resolveMappings, contents, hres, hflat, bind, Except.bind, pure, Except.pure]
  rw [Dictionary.entryWrites, hdec]
  exact mappingWrites_of_batch hb

theorem writes_twoUpdates (hh : ∀ id, base ≤ id → node.state.defsHashes.lookup id = none)
    (ht : ∀ id, base ≤ id → node.state.defsTags.lookup id = none) :
    (itemIds node base (items ++ [item])).entryWrites (twoUpdates w base items item)
        ⟨w, ["snapshot"]⟩ = items.filterMap bulkWrite ∧
      (itemIds node base (items ++ [item])).entryWrites (twoUpdates w base items item)
        ⟨w + 1, ["next"]⟩ = [item].filterMap bulkWrite := by
  constructor
  · refine entryWrites_of_rows rfl fun i it hi => itemIds_spec hh ht ?_
    have hlt : i < items.length := (List.getElem?_eq_some_iff.1 hi).1
    rw [List.getElem?_append_left hlt]
    exact hi
  · refine entryWrites_of_rows rfl fun i it hi => ?_
    rw [Nat.add_assoc]
    refine itemIds_spec hh ht ?_
    rw [List.getElem?_append_right (by omega), Nat.add_sub_cancel_left]
    exact hi

/-- A pass that finds nothing past the cursor ends where it began. -/
theorem syncOnce_nothing {ts : Int} {src : UpdateSource} {node : BridgeNode}
    {entries : List MetadataEntry}
    (hmeta : src.metadata node.state.nextUpdateIndex = .ok entries)
    (hnone : pendingEntries node.state.nextUpdateIndex entries = []) :
    (syncOnce u bridge ts src false).Returns node 0 node := by
  refine Prog.bind_returns.2 ⟨_, node, ⟨rfl, rfl⟩, ?_⟩
  refine Prog.bind_returns.2 ⟨entries, node, ⟨hmeta, rfl⟩, ?_⟩
  rw [hnone]
  exact Prog.bind_returns.2 ⟨0, node, ⟨rfl, rfl⟩, ⟨rfl, rfl⟩⟩

/-- An update past the watermark and behind the cursor is never applied. -/
theorem cursor_of_followsSnapshot (h : Rebuilt snap node₀ node₁)
    (hfollows : FollowsSnapshot u bridge snap w node₁) :
    node₁.state.nextUpdateIndex ≤ w + 1 := by
  by_contra hpast
  obtain ⟨b₁, hb₁⟩ := exists_fresh node₁.state.defsHashes
  obtain ⟨b₂, hb₂⟩ := exists_fresh node₁.state.defsTags
  -- a tag nobody has written
  let written := node₁.repo.submissions.filterMap logWrite ++ snap.items.filterMap bulkWrite
  obtain ⟨tag, htag⟩ := Infinite.exists_notMem_finset (written.map fun w => w.1.2).toFinset
  have hnot : ∀ x ∈ written, x.1 ≠ (Hash.fill 0, tag) := by
    intro x hx heq
    refine htag (List.mem_toFinset.2 (List.mem_map.2 ⟨x, hx, ?_⟩))
    rw [heq]
  have hlogged : lastLogged node₁.repo.toRepoStore (Hash.fill 0, tag) = none :=
    lastWrite_eq_none.2 fun x hx => hnot x (List.mem_append_left _ hx)
  have hseeded : seededStatus snap (Hash.fill 0, tag) = none :=
    lastWrite_eq_none.2 fun x hx => hnot x (List.mem_append_right _ hx)
  let item : String × String × Bool := ((Hash.fill 0).toHex, tag, false)
  let base := b₁ + b₂
  let d := itemIds node₁ base (snap.items ++ [item])
  let hist := twoUpdates w base snap.items item
  have hh : ∀ id, base ≤ id → node₁.state.defsHashes.lookup id = none := fun id hid =>
    hb₁ id ((Nat.le_add_right b₁ b₂).trans hid)
  have ht : ∀ id, base ≤ id → node₁.state.defsTags.lookup id = none := fun id hid =>
    hb₂ id ((Nat.le_add_left b₂ b₁).trans hid)
  have hwrites : d.entryWrites hist ⟨w, ["snapshot"]⟩ = snap.items.filterMap bulkWrite ∧
      d.entryWrites hist ⟨w + 1, ["next"]⟩ = [item].filterMap bulkWrite :=
    writes_twoUpdates hh ht
  obtain ⟨hfirst, hnext⟩ := hwrites
  have hreflects : Reflects d hist snap w := by
    intro k
    have hold : hist.entries.filter (fun e => e.updateIndex ≤ w) = [⟨w, ["snapshot"]⟩] := by
      simp [hist, twoUpdates]
    rw [hold, Dictionary.writes, List.flatMap_singleton, hfirst]
    rfl
  have hserves : Serves hist 2 ⟨fun _ => .ok hist.entries, hist.content⟩ :=
    ⟨fun _ _ he => by cases he; exact .refl _, fun _ _ he => he⟩
  have hnone : pendingEntries node₁.state.nextUpdateIndex hist.entries = [] := by
    have hempty : hist.entries.filter
        (fun e => node₁.state.nextUpdateIndex ≤ e.updateIndex) = [] := by
      rw [List.filter_eq_nil_iff]
      intro e he
      simp only [hist, twoUpdates, List.mem_cons, List.not_mem_nil, or_false] at he
      rcases he with rfl | rfl
      · simp only [decide_eq_true_eq]
        omega
      · simp only [decide_eq_true_eq]
        omega
    rw [pendingEntries, hempty]
    rfl
  have hwrong := hfollows d hist (names_twoUpdates d) (covers_itemIds _ _ _) hreflects node₁ 0
    .refl 0 ⟨fun _ => .ok hist.entries, hist.content⟩ false 2 0 node₁ (Nat.zero_le _) hserves
    (by simp [hist, twoUpdates]) (syncOnce_nothing rfl hnone) (Hash.fill 0, tag) hlogged
  have hactual : node₁.repo.statuses (Hash.fill 0, tag) = none := by
    rw [statuses_rebuilt h, hseeded, lastLogged, ← h.submissions]
    change (lastLogged node₁.repo.toRepoStore _).or none = none
    rw [hlogged]
    rfl
  have hpub : hist.published (w + 1) 2 = [⟨w + 1, ["next"]⟩] := by
    simp [History.published, hist, twoUpdates]
  have hexpected : writeAll (seededStatus snap) (d.writes hist (hist.published (w + 1) 2))
      (Hash.fill 0, tag) = some .current := by
    rw [hpub, Dictionary.writes, List.flatMap_singleton, hnext]
    have hitem : bulkWrite item = some ((Hash.fill 0, tag), .current) := by
      simp [bulkWrite, item]
    simp [hitem]
  rw [hactual, hexpected] at hwrong
  cases hwrong

/-- **`rebuild_cursor_iff`**: a rebuild that starts over, from a snapshot with watermark `w`, and any
passes after it come to the snapshot followed by every later update, for every upstream the snapshot
is of, just in case the cursor phase had not run yet or the stored cursor was not past `w + 1`. -/
theorem rebuild_cursor_iff {ts : Int} {generation : String} (hw : snap.watermark = some w)
    (hres : node₀.resumes snap = false) (ht : node₀.repo.repoTags.Unique)
    (h : (seedRun snap bridge ts generation true).Returns node₀ () node₁) :
    FollowsSnapshot u bridge snap w node₁ ↔
      node₀.state.seedPhaseCursor = false ∨ node₀.state.nextUpdateIndex ≤ w + 1 := by
  have hdone := rebuilt_of_returns hres ht h
  have hcursor := hdone.phases.cursor
  have hnext : snap.nextIndex = w + 1 := by simp [Snapshot.nextIndex, hw]
  have hiff : FollowsSnapshot u bridge snap w node₁ ↔ node₁.state.nextUpdateIndex ≤ w + 1 :=
    ⟨cursor_of_followsSnapshot hdone, followsSnapshot_of_cursor hdone⟩
  rw [hiff, hcursor]
  cases node₀.state.seedPhaseCursor with
  | false => simp [hnext]
  | true => simp

end

end

/-! ## A run that loses an update -/

/-- Two updates, the second with a tag of its own. -/
def lateHistory : History where
  entries := [⟨0, ["first"]⟩, ⟨1, ["names", "second"]⟩]
  content := fun name =>
    if name = "first" then .ok (.content ⟨[⟨1, [1], .add⟩], [], []⟩)
    else if name = "names" then .ok (.definitions ⟨[], [(2, "b")]⟩)
    else .ok (.content ⟨[⟨2, [1], .add⟩], [], []⟩)
  ascending := by simp

def lateSource : UpdateSource := ⟨fun _ => .ok lateHistory.entries, lateHistory.content⟩

/-- The snapshot of the upstream after the first of them. -/
def lateSnapshot : Snapshot where
  serviceId := 1
  fingerprint := "f"
  current := [⟨1, (Hash.fill 0).toHex, "a"⟩]
  deleted := []
  hashOrdered := true
  hashDefs := [(1, (Hash.fill 0).toHex)]
  tagDefs := [(1, "a")]
  watermark := some 0
  relations := []
  currentOrdered := rebuildSnapshot.deletedOrdered
  deletedOrdered := rebuildSnapshot.currentOrdered
  oneHash := by simp

def lateIds : Dictionary where
  hashes := fun id => if id = 1 then some (Hash.fill 0).toHex else none
  tags := fun id => if id = 1 then some "a" else if id = 2 then some "b" else none

/-- Seeded from the snapshot, then synced to the live position. -/
def lateSynced : BridgeNode :=
  (syncOnce .plainText rebuildSigner 0 lateSource true).final
    ((seedRun lateSnapshot rebuildSigner 0 "g" false).final .empty)

def lateRebuilt : BridgeNode := (seedRun lateSnapshot rebuildSigner 0 "g" true).final lateSynced

def lateFollowed : BridgeNode :=
  (syncOnce .plainText rebuildSigner 0 lateSource true).final lateRebuilt

/-- A mirror seeded and synced, rebuilt from the snapshot it was seeded from and synced again: the
update past the watermark, which it had, is gone. -/
theorem rebuild_skips_update :
    ((seedRun lateSnapshot rebuildSigner 0 "g" true) lateSynced).result.toOption = some () ∧
      ((syncOnce .plainText rebuildSigner 0 lateSource true) lateRebuilt).result.toOption =
        some 0 ∧
      lateSynced.repo.statuses (Hash.fill 0, "b") = some .current ∧
      lateFollowed.repo.statuses (Hash.fill 0, "b") = none ∧
      writeAll (seededStatus lateSnapshot)
        (lateIds.writes lateHistory (lateHistory.published 1 2)) (Hash.fill 0, "b") =
        some .current := by
  decide +kernel

/-- The iff at that run. -/
theorem rebuild_cursor_iff_late :
    ¬FollowsSnapshot .plainText rebuildSigner lateSnapshot 0 lateRebuilt := by
  have hret : (seedRun lateSnapshot rebuildSigner 0 "g" true).Returns lateSynced ()
      lateRebuilt := ⟨rfl, rfl⟩
  rw [rebuild_cursor_iff rfl (by decide +kernel) (by decide +kernel) hret]
  decide +kernel

end Bridge
end Naiad
