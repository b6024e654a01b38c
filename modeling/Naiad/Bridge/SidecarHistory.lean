import Naiad.Bridge.SidecarFollow

/-!
# Naiad.Bridge.SidecarHistory

What the updates of a history write to the pairs of a sidecar's map, whether or not they can all be
applied, and passes of the sidecar in those terms.

* `History.contents`: the pairs of the map as of an index.
* `MapAt`: a map that is right as of an index, but for pairs that the updates from there on write.
* `MapAt.sync`: a pass from that index or an earlier one takes it to the cursor.
-/

namespace Naiad
namespace Bridge

open Lib Netproto Server SidecarDb SidecarNode

abbrev PairWrite := (Hash × Nat) × Bool

/-! ## The writes of the updates -/

/-- The mapping rows of files, without those of hash ids that have no definition. -/
def wireRows (hashes : Nat → Option Hash) (decoded : List Update) : List WireRow :=
  ((contents decoded).flatMap ContentUpdate.mappings).flatMap fun row =>
    (row.hashIds.filterMap hashes).map fun sha => (sha, row.tagId, decide (row.action = .delete))

namespace History

variable (h : History)

def hashesAfter (hashes : Nat → Option Hash) (entries : List MetadataEntry) : Nat → Option Hash :=
  entries.foldl (fun hashes e => writeAll hashes (hashDefRows (h.decoded e))) hashes

/-- Each update resolves its rows through the definitions up to its own. -/
def writesFrom : (Nat → Option Hash) → List MetadataEntry → List PairWrite
  | _, [] => []
  | hashes, e :: entries =>
    (wireRows (writeAll hashes (hashDefRows (h.decoded e))) (h.decoded e)).map rowWrite ++
      writesFrom (writeAll hashes (hashDefRows (h.decoded e))) entries

def below (c : Nat) : List MetadataEntry := h.entries.filter fun e => e.updateIndex < c

/-- The cursor once the first `k` updates are applied. -/
def cursorAt (k : Nat) : Nat := cursorAfter 0 (h.entries.take k)

def hashesBelow (c : Nat) : Nat → Option Hash := h.hashesAfter (fun _ => none) (h.below c)

def writesBelow (c : Nat) : List PairWrite := h.writesFrom (fun _ => none) (h.below c)

/-- What the published updates from an index on write. -/
def writes (c k : Nat) : List PairWrite := h.writesFrom (h.hashesBelow c) (h.published c k)

/-- Whether a pair is in the map once every update below an index is applied. -/
def contents (c : Nat) : Hash × Nat → Option Bool :=
  writeAll (fun _ => some false) (h.writesBelow c)

variable {h}

theorem hashesAfter_append (hashes : Nat → Option Hash) (as bs : List MetadataEntry) :
    h.hashesAfter hashes (as ++ bs) = h.hashesAfter (h.hashesAfter hashes as) bs := by
  simp [hashesAfter]

theorem writesFrom_append (hashes : Nat → Option Hash) (as bs : List MetadataEntry) :
    h.writesFrom hashes (as ++ bs) =
      h.writesFrom hashes as ++ h.writesFrom (h.hashesAfter hashes as) bs := by
  induction as generalizing hashes with
  | nil => rfl
  | cons e as ih =>
    rw [List.cons_append, writesFrom, writesFrom, ih, List.append_assoc]
    rfl

/-! ## Positions -/

theorem filter_lt_append {entries : List MetadataEntry}
    (hasc : entries.Pairwise fun a b => a.updateIndex < b.updateIndex) (c : Nat) :
    (entries.filter fun e => e.updateIndex < c) ++ (entries.filter fun e => c ≤ e.updateIndex) =
      entries := by
  induction entries with
  | nil => rfl
  | cons e entries ih =>
    obtain ⟨he, hasc⟩ := List.pairwise_cons.1 hasc
    by_cases hc : e.updateIndex < c
    · have hnot : ¬ c ≤ e.updateIndex := by omega
      simp [hc, hnot, ih hasc]
    · have hle : c ≤ e.updateIndex := by omega
      have hnone : (entries.filter fun e => e.updateIndex < c) = [] := by
        rw [List.filter_eq_nil_iff]
        intro e' he'
        have := he e' he'
        simp
        omega
      have hall : (entries.filter fun e => c ≤ e.updateIndex) = entries := by
        rw [List.filter_eq_self]
        intro e' he'
        have := he e' he'
        simp
        omega
      simp [hc, hle, hnone, hall]

theorem cursorAt_spec (h : History) (k : Nat) :
    (∀ e ∈ h.entries.take k, e.updateIndex < h.cursorAt k) ∧
      ∀ e ∈ h.entries.drop k, h.cursorAt k ≤ e.updateIndex := by
  have hasc := h.ascending
  rw [← List.take_append_drop k h.entries] at hasc
  obtain ⟨_, hdone, htodo⟩ := cursorAfter_spec (c := 0) hasc fun e _ => Nat.zero_le _
  exact ⟨hdone, htodo⟩

theorem cursorAt_mono {n k : Nat} (hnk : n ≤ k) : h.cursorAt n ≤ h.cursorAt k := by
  rcases List.eq_nil_or_concat (h.entries.take n) with hnil | ⟨init, last, hlast⟩
  · simp [cursorAt, hnil, cursorAfter]
  · have hmem : last ∈ h.entries.take k := by
      refine List.take_subset_take_left h.entries hnk ?_
      simp [hlast]
    have := (cursorAt_spec h k).1 last hmem
    rw [cursorAt, hlast, List.concat_eq_append, cursorAfter_append]
    omega

/-- The updates below an index that the published ones reach, and those from there on. -/
theorem below_append_published {c k : Nat} (hc : c ≤ h.cursorAt k) :
    h.below c ++ h.published c k = h.entries.take k := by
  have hbelow : h.below c = (h.entries.take k).filter fun e => e.updateIndex < c := by
    have hdrop : ((h.entries.drop k).filter fun e => e.updateIndex < c) = [] := by
      rw [List.filter_eq_nil_iff]
      intro e he
      have := (cursorAt_spec h k).2 e he
      simp
      omega
    rw [below]
    conv_lhs => rw [← List.take_append_drop k h.entries]
    rw [List.filter_append, hdrop, List.append_nil]
  rw [hbelow, published]
  exact filter_lt_append (h.ascending.sublist (List.take_sublist k h.entries)) c

/-- Between two indexes. -/
theorem exists_between {b c k : Nat} (hbc : b ≤ c) (hc : c ≤ h.cursorAt k) :
    ∃ mid, h.below c = h.below b ++ mid ∧ h.published b k = mid ++ h.published c k := by
  have hasc := h.ascending.filter (fun e => decide (e.updateIndex < c))
  have hsplit := filter_lt_append hasc b
  rw [List.filter_filter] at hsplit
  have hb : (h.entries.filter fun e =>
      decide (e.updateIndex < b) && decide (e.updateIndex < c)) = h.below b := by
    refine List.filter_congr fun e _ => ?_
    simp only [Bool.and_eq_left_iff_imp, decide_eq_true_eq]
    omega
  rw [hb] at hsplit
  refine ⟨_, hsplit.symm, ?_⟩
  have hcat := below_append_published (h := h) hc
  have hcat' := below_append_published (h := h) (hbc.trans hc)
  have hbelow : h.below c = _ := hsplit.symm
  rw [hbelow, List.append_assoc, ← hcat'] at hcat
  exact (List.append_cancel_left hcat).symm

/-- What is written between two indexes. -/
theorem exists_writes_between {b c k : Nat} (hbc : b ≤ c) (hc : c ≤ h.cursorAt k) :
    ∃ ws, h.writes b k = ws ++ h.writes c k ∧ h.contents c = writeAll (h.contents b) ws := by
  obtain ⟨mid, hbelow, hpub⟩ := exists_between hbc hc
  refine ⟨h.writesFrom (h.hashesBelow b) mid, ?_, ?_⟩
  · rw [writes, hpub, writesFrom_append, writes, hashesBelow, hashesBelow, hbelow,
      hashesAfter_append]
  · rw [contents, writesBelow, hbelow, writesFrom_append, writeAll_append]
    rfl

theorem writes_publish {c k k' : Nat} (hk : k ≤ k') : h.writes c k ⊆ h.writes c k' := by
  obtain ⟨more, hmore⟩ := published_mono h c hk
  rw [writes, writes, hmore, writesFrom_append]
  exact List.subset_append_left _ _

end History

/-! ## A map as of an index -/

/-- Right as of an index, but for the pairs that the published updates from there on write. -/
def MapAt (h : History) (k b : Nat) (sc : SidecarDb) : Prop :=
  AgreeOff (h.writes b k) sc.current (h.contents b)

section

variable {h : History} {k b c : Nat} {sc : SidecarDb}

theorem MapAt.earlier (hm : MapAt h k c sc) (hbc : b ≤ c) (hc : c ≤ h.cursorAt k) :
    MapAt h k b sc := by
  obtain ⟨ws, hwrites, hcontents⟩ := History.exists_writes_between hbc hc
  intro pair hpair
  rw [hwrites, lastWrite_append, Option.or_eq_none_iff] at hpair
  rw [hm pair hpair.1, hcontents, writeAll_of_not_written hpair.2]

theorem MapAt.publish {k' : Nat} (hm : MapAt h k b sc) (hk : k ≤ k') : MapAt h k' b sc :=
  hm.mono (History.writes_publish hk)

/-! ## What a pass applies -/

theorem mapM_sha256For {hashes : Nat → Option Hash} {ids : List Nat} {shas : List Hash}
    (hids : ids.mapM (sha256For hashes) = .ok shas) :
    ids.filterMap hashes = shas ∧ ∀ id ∈ ids, (hashes id).isSome = true := by
  induction ids generalizing shas with
  | nil =>
    cases hids
    simp
  | cons id ids ih =>
    cases hid : hashes id with
    | none => simp [List.mapM_cons, sha256For, hid, bind, Except.bind] at hids
    | some sha =>
      cases hrest : ids.mapM (sha256For hashes) with
      | error e => simp [List.mapM_cons, sha256For, hid, hrest, bind, Except.bind] at hids
      | ok rest =>
        obtain ⟨hmap, hall⟩ := ih hrest
        simp only [List.mapM_cons, sha256For, hid, hrest, bind, Except.bind, pure, Except.pure,
          Except.ok.injEq] at hids
        refine ⟨by simp [hid, hmap, hids], ?_⟩
        intro id' hid'
        rcases List.mem_cons.1 hid' with rfl | hid'
        · simp [hid]
        · exact hall id' hid'

theorem mapM_gatherRow {hashes : Nat → Option Hash} {rows : List MappingUpdate}
    {out : List (List WireRow)} (hrows : rows.mapM (gatherRow hashes) = .ok out) :
    out.flatten = rows.flatMap (fun row => (row.hashIds.filterMap hashes).map fun sha =>
      (sha, row.tagId, decide (row.action = .delete))) ∧
    ∀ row ∈ rows, ∀ id ∈ row.hashIds, (hashes id).isSome = true := by
  induction rows generalizing out with
  | nil =>
    cases hrows
    simp
  | cons row rows ih =>
    cases hids : row.hashIds.mapM (sha256For hashes) with
    | error e => simp [List.mapM_cons, gatherRow, hids, bind, Except.bind] at hrows
    | ok shas =>
      cases hrest : rows.mapM (gatherRow hashes) with
      | error e => simp [List.mapM_cons, gatherRow, hids, hrest, bind, Except.bind, pure,
          Except.pure] at hrows
      | ok rest =>
        obtain ⟨hflat, hall⟩ := ih hrest
        obtain ⟨hmap, hsome⟩ := mapM_sha256For hids
        simp only [List.mapM_cons, gatherRow, hids, hrest, bind, Except.bind, pure, Except.pure,
          Except.ok.injEq] at hrows
        refine ⟨by simp [← hrows, hflat, hmap], ?_⟩
        intro row' hrow'
        rcases List.mem_cons.1 hrow' with rfl | hrow'
        · exact hsome
        · exact hall row' hrow'

/-- Gathered rows are all rows, each through a definition. -/
theorem gather_eq_ok {hashes : Nat → Option Hash} {decoded : List Update} {rows : List WireRow}
    (hrows : gather hashes decoded = .ok rows) :
    wireRows hashes decoded = rows ∧
      ∀ row ∈ (contents decoded).flatMap ContentUpdate.mappings, ∀ id ∈ row.hashIds,
        (hashes id).isSome = true := by
  unfold gather at hrows
  cases hout : ((contents decoded).flatMap ContentUpdate.mappings).mapM (gatherRow hashes) with
  | error e => simp [hout, bind, Except.bind] at hrows
  | ok out =>
    obtain ⟨hflat, hall⟩ := mapM_gatherRow hout
    simp only [hout, bind, Except.bind, pure, Except.pure, Except.ok.injEq] at hrows
    exact ⟨hflat.symm.trans hrows, hall⟩

/-- Each hash id that the rows of the updates name, and that has a definition in the first
definitions by then, has the same in the second. -/
def History.ResolvesAlike (h : History) :
    (Nat → Option Hash) → (Nat → Option Hash) → List MetadataEntry → Prop
  | _, _, [] => True
  | stored, hashes, e :: entries =>
    (∀ row ∈ (Bridge.contents (h.decoded e)).flatMap ContentUpdate.mappings, ∀ id ∈ row.hashIds,
      ∀ sha, writeAll stored (hashDefRows (h.decoded e)) id = some sha →
        writeAll hashes (hashDefRows (h.decoded e)) id = some sha) ∧
    ResolvesAlike h (writeAll stored (hashDefRows (h.decoded e)))
      (writeAll hashes (hashDefRows (h.decoded e))) entries

theorem History.resolvesAlike_refl (h : History) (hashes : Nat → Option Hash)
    (entries : List MetadataEntry) : h.ResolvesAlike hashes hashes entries := by
  induction entries generalizing hashes with
  | nil => trivial
  | cons e entries ih => exact ⟨fun _ _ _ _ _ hsha => hsha, ih _⟩

/-- Rows gathered through definitions that resolve alike. -/
theorem gather_alike {stored hashes : Nat → Option Hash} {decoded : List Update}
    {rows : List WireRow} (hrows : gather stored decoded = .ok rows)
    (halike : ∀ row ∈ (contents decoded).flatMap ContentUpdate.mappings, ∀ id ∈ row.hashIds,
      ∀ sha, stored id = some sha → hashes id = some sha) : rows = wireRows hashes decoded := by
  obtain ⟨rfl, hall⟩ := gather_eq_ok hrows
  unfold wireRows
  rw [List.flatMap_def, List.flatMap_def]
  congr 1
  refine List.map_congr_left fun row hrow => ?_
  congr 1
  refine List.filterMap_congr fun id hid => ?_
  obtain ⟨sha, hsha⟩ := Option.isSome_iff_exists.1 (hall row hrow id hid)
  rw [hsha, halike row hrow id hid sha hsha]

theorem applyEntry_eq_ok {u : Unicode} {sc' : SidecarDb} {e : MetadataEntry}
    (happly : sc.applyEntry u h e = .ok sc') :
    WellFormedDefs (h.decoded e) ∧ ∃ rows,
      gather (sc.define u (h.decoded e)).defsHashes.lookup (h.decoded e) = .ok rows ∧
      sc' = ((sc.define u (h.decoded e)).applyRows rows).setNextUpdateIndex (e.updateIndex + 1) := by
  unfold SidecarDb.applyEntry at happly
  cases hmap : e.updateHashes.mapM h.content with
  | error err => simp [hmap, Except.mapError, bind, Except.bind] at happly
  | ok decoded =>
    have hd : h.decoded e = decoded := by simp [History.decoded, hmap]
    rw [hd]
    cases hfold : decoded.foldlM (insertSidecarDefs u) sc with
    | error err => simp [hmap, hfold, Except.mapError, bind, Except.bind] at happly
    | ok sc₁ =>
      obtain ⟨hwf, rfl⟩ := foldlM_insertSidecarDefs.1 hfold
      cases hrows : gather (sc.define u decoded).defsHashes.lookup decoded with
      | error err => simp [hmap, hfold, hrows, Except.mapError, bind, Except.bind] at happly
      | ok rows =>
        simp only [hmap, hfold, hrows, Except.mapError, bind, Except.bind, pure, Except.pure,
          Except.ok.injEq] at happly
        exact ⟨hwf, rows, rfl, happly.symm⟩

/-- Updates applied in turn to a sidecar whose definitions resolve as the history's. -/
theorem applyAll_current {u : Unicode} {start : SidecarDb} {hashes : Nat → Option Hash}
    {done todo : List MetadataEntry} (hpacked : start.Packed)
    (happly : start.applyAll u h done = .ok sc)
    (halike : h.ResolvesAlike start.defsHashes.lookup hashes (done ++ todo)) :
    sc.Packed ∧ sc.current = writeAll start.current (h.writesFrom hashes done) ∧
      h.ResolvesAlike sc.defsHashes.lookup (h.hashesAfter hashes done) todo := by
  induction done generalizing start hashes with
  | nil =>
    cases happly
    exact ⟨hpacked, rfl, halike⟩
  | cons e done ih =>
    rw [SidecarDb.applyAll, List.foldlM_cons] at happly
    cases he : start.applyEntry u h e with
    | error err => simp [he, bind, Except.bind] at happly
    | ok sc₁ =>
      simp only [he, bind, Except.bind] at happly
      obtain ⟨_, rows, hrows, hsc₁⟩ := applyEntry_eq_ok he
      rw [define_hashes] at hrows
      obtain ⟨hhead, htail⟩ := halike
      have heq := gather_alike hrows hhead
      obtain ⟨hpacked₁, hcurrent₁⟩ : sc₁.Packed ∧
          sc₁.current = writeAll start.current (rows.map rowWrite) := by
        rw [hsc₁]
        exact current_applyRows (hpacked.define u (h.decoded e)) rows
      have hdefs : sc₁.defsHashes.lookup =
          writeAll start.defsHashes.lookup (hashDefRows (h.decoded e)) := by
        rw [hsc₁, ← define_hashes u]
        exact congrArg (fun t : Table Nat Hash => t.lookup)
          (sameDefs_applyRows rows (start.define u (h.decoded e))).defsHashes
      rw [← hdefs] at htail
      obtain ⟨hend, hcurrent, halike'⟩ := ih hpacked₁ happly htail
      refine ⟨hend, ?_, halike'⟩
      rw [hcurrent, hcurrent₁, History.writesFrom, writeAll_append, heq]

/-- Every update below an index applied to an empty sidecar. -/
theorem contents_of_applyAll {u : Unicode} (happly : SidecarDb.empty.applyAll u h (h.below c) = .ok sc) :
    sc.Packed ∧ sc.current = h.contents c := by
  have halike : h.ResolvesAlike SidecarDb.empty.defsHashes.lookup (fun _ => none)
      (h.below c ++ []) := h.resolvesAlike_refl _ _
  obtain ⟨hpacked, hcurrent, _⟩ := applyAll_current packed_empty happly halike
  exact ⟨hpacked, hcurrent⟩

/-- The updates of a pass that is cut lie below the cursor it leaves, and the others from there on. -/
theorem between_of_progress {done todo : List MetadataEntry}
    (hpub : h.published c k = done ++ todo) (hc : c ≤ h.cursorAt k) :
    c ≤ cursorAfter c done ∧ cursorAfter c done ≤ h.cursorAt k ∧
      h.below (cursorAfter c done) = h.below c ++ done ∧
      h.published (cursorAfter c done) k = todo := by
  have hasc := published_pairwise h c k
  have hge := published_ge h c k
  rw [hpub] at hasc hge
  obtain ⟨hle, hdone, htodo⟩ := cursorAfter_spec hasc hge
  have hmax : cursorAfter c done ≤ h.cursorAt k := by
    rcases List.eq_nil_or_concat done with rfl | ⟨init, last, rfl⟩
    · exact hc
    · have hmem : last ∈ h.published c k := by simp [hpub]
      have := (History.cursorAt_spec h k).1 last (List.mem_filter.1 hmem).1
      rw [List.concat_eq_append, cursorAfter_append]
      omega
  obtain ⟨mid, hbelow, hpub'⟩ := History.exists_between hle hmax
  rw [hpub] at hpub'
  -- both splits are at the cursor
  have hmid : mid = (done ++ todo).filter fun e => e.updateIndex < cursorAfter c done := by
    have hlt : ∀ e ∈ mid, e.updateIndex < cursorAfter c done := by
      intro e he
      have hmem : e ∈ h.below (cursorAfter c done) := by simp [hbelow, he]
      exact of_decide_eq_true (List.mem_filter.1 hmem).2
    have hnot : ((h.published (cursorAfter c done) k).filter fun e =>
        e.updateIndex < cursorAfter c done) = [] := by
      rw [List.filter_eq_nil_iff]
      intro e he
      have := published_ge h _ k e he
      simp
      omega
    rw [hpub', List.filter_append, hnot, List.append_nil, List.filter_eq_self.2]
    simpa using hlt
  have hfilter : ((done ++ todo).filter fun e => e.updateIndex < cursorAfter c done) = done := by
    have hnot : (todo.filter fun e => e.updateIndex < cursorAfter c done) = [] := by
      rw [List.filter_eq_nil_iff]
      intro e he
      have := htodo e he
      simp
      omega
    rw [List.filter_append, hnot, List.append_nil, List.filter_eq_self]
    simpa using hdone
  rw [hfilter] at hmid
  subst hmid
  exact ⟨hle, hmax, hbelow, (List.append_cancel_left hpub').symm⟩

/-- Where a pass that begins at `c` is cut, or ends: the pairs of the updates below the cursor are
written, and besides them only pairs that later ones write. -/
theorem current_of_progress {u : Unicode} {start : SidecarDb} {done todo : List MetadataEntry}
    {node : SidecarNode} (hpacked : start.Packed) (hpub : h.published c k = done ++ todo)
    (halike : h.ResolvesAlike start.defsHashes.lookup (h.hashesBelow c) (h.published c k))
    (hp : SidecarNode.Progress u h start c done todo node) :
    AgreeOff (h.writesFrom (h.hashesAfter (h.hashesBelow c) done) todo) node.sidecar.current
      (writeAll start.current (h.writesFrom (h.hashesBelow c) done)) := by
  obtain ⟨sc, hsc, _, hnear⟩ := hp.applied
  rw [hpub] at halike
  obtain ⟨_, hcurrent, halike'⟩ := applyAll_current hpacked hsc halike
  rw [← hcurrent]
  cases todo with
  | nil =>
    have hx : Alike sc node.sidecar := hnear
    rw [hx.current]
    exact .refl _ _
  | cons e todo =>
    have hx : SidecarDb.Partly u (h.decoded e) sc node.sidecar := hnear
    refine hx.current.mono ?_
    unfold pairWrites
    cases hrows : gather (sc.define u (h.decoded e)).defsHashes.lookup (h.decoded e) with
    | error err => exact List.nil_subset _
    | ok rows =>
      rw [define_hashes] at hrows
      rw [gather_alike hrows halike'.1]
      exact List.subset_append_left _ _

/-- **`MapAt.sync`**: over a map that is right as of the cursor or a later index, a pass leaves one
that is right as of the cursor it leaves; over one that is right as of an earlier index it leaves
that. -/
theorem MapAt.sync {u : Unicode} {start : SidecarDb} {done todo : List MetadataEntry}
    {node : SidecarNode} (hpacked : start.Packed) (hpub : h.published c k = done ++ todo)
    (hc : c ≤ h.cursorAt k) (hb : b ≤ h.cursorAt k)
    (halike : h.ResolvesAlike start.defsHashes.lookup (h.hashesBelow c) (h.published c k))
    (hm : MapAt h k b start) (hp : SidecarNode.Progress u h start c done todo node) :
    MapAt h k (if c ≤ b then cursorAfter c done else b) node.sidecar := by
  obtain ⟨hle, hmax, hbelow, htodo⟩ := between_of_progress hpub hc
  have hcur := current_of_progress hpacked hpub halike hp
  let ws := h.writesFrom (h.hashesBelow c) done
  have hwrites : h.writes (cursorAfter c done) k =
      h.writesFrom (h.hashesAfter (h.hashesBelow c) done) todo := by
    rw [History.writes, htodo, History.hashesBelow, hbelow, History.hashesAfter_append]
    rfl
  have hsplit : h.writes c k = ws ++ h.writes (cursorAfter c done) k := by
    rw [hwrites, History.writes, hpub, History.writesFrom_append]
  rw [← hwrites] at hcur
  by_cases hcb : c ≤ b
  · rw [if_pos hcb]
    have hmc : AgreeOff (ws ++ h.writes (cursorAfter c done) k) start.current (h.contents c) := by
      rw [← hsplit]
      exact hm.earlier hcb hb
    have hcontents : h.contents (cursorAfter c done) = writeAll (h.contents c) ws := by
      rw [History.contents, History.writesBelow, hbelow, History.writesFrom_append, writeAll_append]
      rfl
    unfold MapAt
    rw [hcontents]
    exact hcur.trans hmc.writeAll_both
  · rw [if_neg hcb]
    obtain ⟨ws', hwrites', _⟩ := History.exists_writes_between (h := h) (Nat.le_of_not_le hcb) hc
    have hlater : h.writes (cursorAfter c done) k ⊆ h.writes b k := by
      rw [hwrites', hsplit]
      exact List.Subset.trans (List.subset_append_right _ _) (List.subset_append_right _ _)
    have hdone : ws ⊆ h.writes b k := by
      rw [hwrites', hsplit]
      exact List.Subset.trans (List.subset_append_left _ _) (List.subset_append_right _ _)
    exact (hcur.mono hlater).trans (AgreeOff.writeAll_left hdone hm)

end

end Bridge
end Naiad
