import Naiad.Db.Masks

/-!
# Naiad.Db.Merges

What each merge leaves of the masks: the rows that carry its domain's bit are those the reply names,
every other bit and every other service is as it was, and no row is left without a domain.

* `Pulled.sets`: a merge as a change of one flag.
* `domain_merges`: the three merges, and that merges of different domains commute.
-/

namespace Naiad
namespace Db

open Lib Netproto

theorem fileIdByHash_congr {db db' : Db} (h : db'.files = db.files) (hash : Hash) :
    db'.fileIdByHash hash = db.fileIdByHash hash := by
  rw [fileIdByHash, fileIdByHash, h]

section

variable {db : Db} {service : Nat} {domain : String} {now : Int}

/-! ## The whole service -/

theorem sets_retractDomain (service : Nat) (h : db.MappingTags) {i : Nat} (hi : i < 64) :
    Sets service i (fun _ _ _ => false) db (db.retractDomain service (BitVec.twoPow 64 i)) := by
  have hlookup : ∀ k, (db.retractDomain service (BitVec.twoPow 64 i)).mappings.lookup k =
      ((db.mappings.lookup k).filter fun row =>
        !(k.2.2 = service && row.domains = BitVec.twoPow 64 i)).map fun row =>
          if k.2.2 = service && row.domains &&& BitVec.twoPow 64 i ≠ 0 then
            { row with domains := row.domains &&& ~~~BitVec.twoPow 64 i }
          else row := by
    intro k
    refine (Table.lookup_modify _ _ _).trans ?_
    congr 1
    exact Table.lookup_select _ _ _
  refine Sets.of_rowMask (u := fun _ _ _ => false) rfl rfl
    ((h.deleteMappings _).retract _ _) ?_ ?_ (fun _ _ _ _ _ => rfl) (fun _ _ _ => rfl)
  · intro f t s
    rw [rowMask, hlookup, rowMask]
    cases hl : db.mappings.lookup (f, t, s) with
    | none => simp [setFlag]
    | some row =>
      by_cases hs : s = service
      · subst hs
        by_cases honly : row.domains = BitVec.twoPow 64 i
        · simp [honly, Option.filter, setFlag]
        · by_cases hflag : row.domains &&& BitVec.twoPow 64 i ≠ 0
          · have hflag' : ¬ row.domains &&& BitVec.twoPow 64 i = 0#64 := hflag
            simp [honly, hflag', Option.filter, and_not_twoPow]
          · have hoff : row.domains.getLsbD i = false := by
              rw [and_twoPow_ne_zero _ hi] at hflag
              simpa using hflag
            have hself := setFlag_self row.domains i
            rw [hoff] at hself
            simp [honly, not_not.1 hflag, Option.filter, hself]
      · simp [hs, Option.filter]
  · intro f t s hs
    rw [hlookup]
    cases db.mappings.lookup (f, t, s) with
    | none => rfl
    | some row => simp [hs, Option.filter]

theorem noZero_retractDomain (hz : db.NoZero) {i : Nat} :
    (db.retractDomain service (BitVec.twoPow 64 i)).NoZero := by
  intro k row hl hzero
  obtain ⟨old, hold, heq⟩ := Option.map_eq_some_iff.1 ((Table.lookup_modify _ _ _).symm.trans hl)
  obtain ⟨hold, hkeep⟩ := Option.filter_eq_some_iff.1 ((Table.lookup_select _ _ _).symm.trans hold)
  split at heq
  · rename_i hp
    have hs : k.2.2 = service := by simpa using (Bool.and_eq_true_iff.1 hp).1
    rw [← heq] at hzero
    simp only [and_not_twoPow] at hzero
    rcases eq_of_setFlag_false hzero with hnone | honly
    · exact hz k old hold hnone
    · simp [hs, honly] at hkeep
  · rw [heq] at hold
    exact hz k row hold hzero

/-- The tags of one entry. -/
theorem sets_assertTags (f : Nat) (tags : List (Tag × Option String)) (s : Db × MergeStats)
    (h : s.1.MappingTags) {i : Nat} (hi : i < 64) :
    Sets service i (fun f' tag b => f' = f && tags.any (·.1 = tag) || b) s.1
      (assertTags service (BitVec.twoPow 64 i) now f tags s).1 := by
  have hfold := (Sets.foldl Prod.fst (fun s t => (s.1.assertTag service (BitVec.twoPow 64 i) now
      (orBit (BitVec.twoPow 64 i)) f t.1 t.2, { s.2 with mappings := s.2.mappings + 1 }))
    (fun _ : Db × MergeStats => True)
    (v := fun (t : Tag × Option String) f' tag b => (f' = f ∧ tag = t.1 : Bool) || b) hi tags
    (fun s t _ _ hs => ⟨trivial, sets_assertTag hi hs (fun _ => rfl) f t.1 t.2⟩) s trivial h).2
  refine hfold.congr ?_
  intro f' tag b
  clear hfold
  induction tags generalizing b with
  | nil => simp
  | cons t tags ih =>
    rw [List.foldl_cons, ih]
    by_cases hf : f' = f
    · by_cases ht : t.1 = tag
      · simp [hf, ht]
      · simp [hf, ht, Ne.symm ht]
    · simp [hf]

theorem noZero_assertTags (f : Nat) (tags : List (Tag × Option String)) (s : Db × MergeStats)
    (hz : s.1.NoZero) {i : Nat} (hi : i < 64) :
    (assertTags service (BitVec.twoPow 64 i) now f tags s).1.NoZero := by
  induction tags generalizing s with
  | nil => exact hz
  | cons t tags ih =>
    refine ih _ ?_
    exact ZerosIn.assertTag hz hi (fun _ => rfl) f t.1 t.2

/-- An entry names a tag of a file. -/
def entryNames (db : Db) (f : Nat) (tag : Tag) (e : Hash × List (Tag × Option String)) : Bool :=
  db.fileIdByHash e.1 = some f && e.2.any (·.1 = tag)

theorem sets_assertEntry (service : Nat) (now : Int) {db0 : Db} (e : Hash × List (Tag × Option String)) (s : Db × MergeStats)
    (h : s.1.MappingTags) (hfiles : s.1.files = db0.files) {i : Nat} (hi : i < 64) :
    Sets service i (fun f tag b => db0.entryNames f tag e || b) s.1
      (assertEntry service (BitVec.twoPow 64 i) now s e).1 := by
  have hid := fileIdByHash_congr hfiles e.1
  unfold assertEntry
  cases hf : s.1.fileIdByHash e.1 with
  | none =>
    refine (Sets.refl h).congr ?_
    intro f tag b
    simp [entryNames, ← hid, hf]
  | some f =>
    refine (sets_assertTags f e.2
      (s.1, { s.2 with matchedFiles := s.2.matchedFiles + 1 }) h hi).congr ?_
    intro f' tag b
    simp [entryNames, ← hid, hf, eq_comm]

theorem noZero_assertEntry (e : Hash × List (Tag × Option String)) (s : Db × MergeStats)
    (hz : s.1.NoZero) {i : Nat} (hi : i < 64) :
    (assertEntry service (BitVec.twoPow 64 i) now s e).1.NoZero := by
  unfold assertEntry
  cases s.1.fileIdByHash e.1 with
  | none => exact hz
  | some f =>
    exact noZero_assertTags f e.2 (s.1, { s.2 with matchedFiles := s.2.matchedFiles + 1 }) hz hi

theorem foldl_or {α : Type} (p : α → Bool) (l : List α) (b : Bool) :
    l.foldl (fun b a => p a || b) b = (l.any p || b) := by
  induction l generalizing b with
  | nil => simp
  | cons a l ih =>
    rw [List.foldl_cons, ih, List.any_cons]
    cases p a <;> simp

/-- A snapshot leaves the bit on what it names, and on nothing else. -/
theorem sets_mergeInDomain (h : db.MappingTags) (entries : TaggedEntries) :
    Sets service (domainFlag domain) (fun f tag _ => entries.any (db.entryNames f tag)) db
      (db.mergePulledMappingsInDomain service domain entries now).1 := by
  have hi := domainFlag_lt domain
  have hretract := sets_retractDomain service (i := domainFlag domain) h hi
  unfold mergePulledMappingsInDomain
  rw [domainBit_eq]
  have hfold := (Sets.foldl Prod.fst (assertEntry service (BitVec.twoPow 64 (domainFlag domain)) now)
    (fun s : Db × MergeStats => s.1.files = db.files)
    (v := fun e f tag b => db.entryNames f tag e || b) hi entries
    (fun s e _ hs htags => by
      have hset := sets_assertEntry service now e s htags hs hi
      exact ⟨hset.files.trans hs, hset⟩)
    (db.retractDomain service (BitVec.twoPow 64 (domainFlag domain)), default)
    hretract.files hretract.tags).2
  refine (hretract.trans hi hfold).congr ?_
  intro f tag b
  rw [foldl_or, Bool.or_false]

theorem noZero_mergeInDomain (hz : db.NoZero) (entries : TaggedEntries) :
    (db.mergePulledMappingsInDomain service domain entries now).1.NoZero := by
  have hi := domainFlag_lt domain
  have hfold : ∀ (l : TaggedEntries) (s : Db × MergeStats), s.1.NoZero →
      (l.foldl (assertEntry service (domainBit domain) now) s).1.NoZero := by
    intro l
    induction l with
    | nil => exact fun s hs => hs
    | cons e l ih =>
      intro s hs
      refine ih _ ?_
      rw [domainBit_eq]
      exact noZero_assertEntry e s hs hi
  refine hfold entries _ ?_
  rw [domainBit_eq]
  exact noZero_retractDomain hz

/-! ## Some files -/

/-- These ids are those of the tags with a property. -/
def Names (db : Db) (ids : List Nat) (p : Tag → Bool) : Prop :=
  (∀ id ∈ ids, ∃ tag, p tag = true ∧ db.tags.idOf tag = some id) ∧
    ∀ tag, p tag = true → ∃ id ∈ ids, db.tags.idOf tag = some id

theorem Names.mono {db' : Db} {ids : List Nat} {p : Tag → Bool} (h : db.Names ids p)
    (hids : ∀ tag id, db.tags.idOf tag = some id → db'.tags.idOf tag = some id) :
    db'.Names ids p := by
  refine ⟨?_, ?_⟩
  · intro id hid
    obtain ⟨tag, hp, htag⟩ := h.1 id hid
    exact ⟨tag, hp, hids tag id htag⟩
  · intro tag hp
    obtain ⟨id, hid, htag⟩ := h.2 tag hp
    exact ⟨id, hid, hids tag id htag⟩

theorem Names.mem_iff {ids : List Nat} {p : Tag → Bool} (h : db.Names ids p)
    {tag : Tag} {id : Nat} (htag : db.tags.idOf tag = some id) : id ∈ ids ↔ p tag = true := by
  constructor
  · intro hid
    obtain ⟨tag', hp, htag'⟩ := h.1 id hid
    have heq : tag' = tag :=
      IdTable.mem_rows_unique (IdTable.mem_of_idOf htag') (IdTable.mem_of_idOf htag)
    rw [← heq]
    exact hp
  · intro hp
    obtain ⟨id', hid', htag'⟩ := h.2 tag hp
    rw [htag] at htag'
    rw [Option.some.inj htag']
    exact hid'

/-- The ids of one entry's tags. -/
theorem resolveTags_spec (service : Nat) {i : Nat} (hi : i < 64) (f : Nat) (tags : List (Tag × Option String))
    (s : Db × List Nat × Table (Nat × Nat) (Option Nat)) (h : s.1.MappingTags) {p : Tag → Bool}
    (hnames : s.1.Names s.2.1 p) :
    Sets service i (fun _ _ b => b) s.1 (resolveTags f tags s).1 ∧
      (resolveTags f tags s).1.mappings = s.1.mappings ∧
      (resolveTags f tags s).1.Names (resolveTags f tags s).2.1
        fun tag => p tag || tags.any (·.1 = tag) := by
  induction tags generalizing s p with
  | nil => exact ⟨Sets.refl h, rfl, by simpa [resolveTags] using hnames⟩
  | cons t tags ih =>
    have hintern := sets_internTag service (i := i) h t.1
    have horigin := sets_internOrigin service (i := i) hintern.tags t.2
    have hset := hintern.trans hi horigin
    have hnames' : ((s.1.internTag t.1).internOrigin t.2).1.Names
        (s.2.1.insert (s.1.internedTag t.1)) fun tag => p tag || t.1 = tag := by
      have hself := horigin.ids t.1 _ (idOf_internTag t.1)
      have hold := hnames.mono hset.ids
      refine ⟨?_, ?_⟩
      · intro id hid
        rcases List.mem_insert_iff.1 hid with rfl | hid
        · exact ⟨t.1, by simp, hself⟩
        · obtain ⟨tag, hp, htag⟩ := hold.1 id hid
          exact ⟨tag, by simp [hp], htag⟩
      · intro tag hp
        by_cases heq : t.1 = tag
        · subst heq
          exact ⟨_, List.mem_insert_iff.2 (.inl rfl), hself⟩
        · obtain ⟨id, hid, htag⟩ := hold.2 tag (by simpa [heq] using hp)
          exact ⟨id, List.mem_insert_iff.2 (.inr hid), htag⟩
    obtain ⟨hrest, hmappings, hall⟩ := ih (((s.1.internTag t.1).internOrigin t.2).1,
      s.2.1.insert (s.1.internedTag t.1), s.2.2.insert (f, s.1.internedTag t.1)
        ((s.1.internTag t.1).internOrigin t.2).2) hset.tags hnames'
    refine ⟨hset.trans hi hrest, hmappings.trans ?_, ?_⟩
    · exact (internOrigin_frame _ t.2).1
    · have hfun : (fun tag => p tag || (t :: tags).any (·.1 = tag)) =
          fun tag => p tag || decide (t.1 = tag) || tags.any (·.1 = tag) := by
        funext tag
        rw [List.any_cons, Bool.or_assoc]
      rw [hfun]
      exact hall

/-- A requested entry names a tag of a file. -/
def requestNames (db : Db) (hashes : List Hash) (f : Nat) (tag : Tag)
    (e : Hash × List (Tag × Option String)) : Bool :=
  e.1 ∈ hashes && db.entryNames f tag e

theorem fileIdByHash_inj {hash hash' : Hash} {f : Nat} (h : db.fileIdByHash hash = some f)
    (h' : db.fileIdByHash hash' = some f) : hash = hash' := by
  obtain ⟨row, hl, rfl⟩ := fileIdByHash_some h
  obtain ⟨row', hl', rfl⟩ := fileIdByHash_some h'
  rw [hl] at hl'
  rw [Option.some.inj hl']

/-- What the first pass has after some of the entries. -/
structure FirstPass (service i : Nat) (db : Db) (hashes : List Hash) (done : TaggedEntries)
    (s : Db × Resolved × MergeStats) : Prop where
  sets : Sets service i (fun _ _ b => b) db s.1
  mappings : s.1.mappings = db.mappings
  fileIds : ∀ hash f, s.2.1.fileIds.lookup hash = some f → db.fileIdByHash hash = some f
  names : ∀ f, s.1.Names ((s.2.1.newTags.lookup f).getD [])
    fun tag => done.any (db.requestNames hashes f tag)

theorem FirstPass.step {i : Nat} (hi : i < 64) {hashes : List Hash} {done : TaggedEntries}
    {s : Db × Resolved × MergeStats} (h : FirstPass service i db hashes done s)
    (e : Hash × List (Tag × Option String)) (hfresh : ∀ e' ∈ done, e'.1 ≠ e.1) :
    FirstPass service i db hashes (done ++ [e]) (resolveEntry hashes s e) := by
  have hid := fileIdByHash_congr h.sets.files e.1
  have hskip : (∀ f tag, db.requestNames hashes f tag e = false) →
      FirstPass service i db hashes (done ++ [e]) s := by
    intro hnone
    refine ⟨h.sets, h.mappings, h.fileIds, ?_⟩
    intro f
    simpa [hnone] using h.names f
  unfold resolveEntry
  by_cases hreq : e.1 ∈ hashes
  · rw [if_pos hreq]
    cases hf : s.1.fileIdByHash e.1 with
    | none =>
      apply hskip
      intro f tag
      simp [requestNames, entryNames, ← hid, hf]
    | some f =>
      obtain ⟨hset, hmappings, hnames⟩ := resolveTags_spec service hi f e.2
        (s.1, [], s.2.1.newOrigins) h.sets.tags (p := fun _ => false) ⟨by simp, by simp⟩
      have hentry : db.fileIdByHash e.1 = some f := hid.symm.trans hf
      refine ⟨h.sets.trans hi hset, hmappings.trans h.mappings, ?_, ?_⟩
      · intro hash g hl
        by_cases hh : hash = e.1
        · subst hh
          rw [AList.lookup_insert] at hl
          cases hl
          exact hentry
        · rw [AList.lookup_insert_ne hh] at hl
          exact h.fileIds hash g hl
      · intro g
        show (resolveTags f e.2 (s.1, [], s.2.1.newOrigins)).1.Names
          (((s.2.1.newTags.insert f _).lookup g).getD []) _
        by_cases hg : g = f
        · subst hg
          rw [AList.lookup_insert, Option.getD_some]
          have hdone : ∀ tag, done.any (db.requestNames hashes g tag) = false := by
            intro tag
            rw [List.any_eq_false]
            intro e' he' hname
            have hother : db.fileIdByHash e'.1 = some g := by
              simp only [requestNames, entryNames, Bool.and_eq_true, decide_eq_true_eq] at hname
              exact hname.2.1
            exact hfresh e' he' (fileIdByHash_inj hother hentry)
          simpa [hdone, requestNames, entryNames, hreq, hentry] using hnames
        · rw [AList.lookup_insert_ne hg]
          have hother : ∀ tag, db.requestNames hashes g tag e = false := by
            intro tag
            simp [requestNames, entryNames, hentry, Ne.symm hg]
          simpa [hother] using (h.names g).mono hset.ids
  · rw [if_neg hreq]
    apply hskip
    intro f tag
    simp [requestNames, hreq]

theorem firstPass_spec {i : Nat} (hi : i < 64) {hashes : List Hash} (rest : TaggedEntries)
    {done : TaggedEntries} {s : Db × Resolved × MergeStats}
    (h : FirstPass service i db hashes done s)
    (hcoalesced : ((done ++ rest).map Prod.fst).Nodup) :
    FirstPass service i db hashes (done ++ rest) (rest.foldl (resolveEntry hashes) s) := by
  induction rest generalizing done s with
  | nil =>
    rw [List.append_nil]
    exact h
  | cons e rest ih =>
    have hfresh : ∀ e' ∈ done, e'.1 ≠ e.1 := by
      intro e' he' heq
      rw [List.map_append, List.map_cons] at hcoalesced
      exact (List.disjoint_of_nodup_append hcoalesced) (List.mem_map.2 ⟨e', he', rfl⟩) (by simp [heq])
    rw [List.append_cons] at hcoalesced ⊢
    exact ih (h.step hi e hfresh) hcoalesced

/-! ## One file -/

theorem mem_currentTagIds (db : Db) (service : Nat) {i : Nat} (f t : Nat) (hi : i < 64) :
    t ∈ db.currentTagIds f service (some (BitVec.twoPow 64 i)) ↔
      (db.rowMask (f, t, service)).getLsbD i = true := by
  rw [currentTagIds, List.mem_filterMap]
  constructor
  · intro h
    obtain ⟨⟨⟨g, t', s⟩, row⟩, he, hrow⟩ := h
    simp only at hrow
    split at hrow
    · rename_i hp
      cases hrow
      obtain ⟨rfl, rfl, hflag⟩ := hp
      have hl := Table.mem_entries.1 he
      simp only [Option.all_some, decide_eq_true_eq] at hflag
      rw [rowMask, hl]
      exact (and_twoPow_ne_zero _ hi).1 hflag
    · cases hrow
  · intro h
    cases hl : db.mappings.lookup (f, t, service) with
    | none => simp [rowMask, hl] at h
    | some row =>
      refine ⟨⟨(f, t, service), row⟩, Table.mem_entries.2 hl, ?_⟩
      rw [rowMask, hl, Option.map_some, Option.getD_some] at h
      have hflag := (and_twoPow_ne_zero _ hi).2 h
      simp only [Option.all_some]
      rw [if_pos ⟨trivial, trivial, decide_eq_true hflag⟩]

/-- An id in a list of ids, seen by tag. -/
def idIn (db : Db) (ids : List Nat) (tag : Tag) : Bool :=
  (db.tags.idOf tag).any fun id => id ∈ ids

theorem flag_eq_idIn (db : Db) (service : Nat) {i : Nat} (hi : i < 64) (f : Nat) (tag : Tag) :
    (db.mask f tag service).getLsbD i =
      db.idIn (db.currentTagIds f service (some (BitVec.twoPow 64 i))) tag := by
  rw [mask, idIn]
  cases db.tags.idOf tag with
  | none => simp
  | some t =>
    have hmem := mem_currentTagIds db service f t hi
    cases hflag : (db.rowMask (f, t, service)).getLsbD i with
    | false =>
      rw [hflag] at hmem
      simp [hflag, hmem]
    | true =>
      rw [hflag] at hmem
      simp [hflag, hmem]

/-- Clear the flag on the rows of some tags. -/
theorem sets_removeTags (service : Nat) {i : Nat} (hi : i < 64) (f : Nat) (ids : List Nat) (h : db.MappingTags) :
    let db' := ids.foldl (fun db t => db.removeTag f service (some (BitVec.twoPow 64 i)) t) db
    Sets service i (fun f' tag b => !(f' = f && db.idIn ids tag) && b) db db' ∧
      db'.tags = db.tags := by
  induction ids generalizing db with
  | nil =>
    refine ⟨(Sets.refl h).congr ?_, rfl⟩
    intro f' tag b
    cases hid : db.tags.idOf tag <;> simp [idIn, hid]
  | cons t ids ih =>
    have hfirst : Sets service i (fun f' tag b => !(f' = f && db.idIn [t] tag) && b) db
        (db.removeTag f service (some (BitVec.twoPow 64 i)) t) := by
      refine sets_retract service (P := fun f' t' => f' = f && t' = t) h ?_ ?_ ?_
      · intro f' t' s row hp
        simp_all
      · intro f' t' row hP _
        simp_all
      · intro f' tag id hid
        simp [idIn, hid]
    obtain ⟨hrest, htags⟩ := ih hfirst.tags
    refine ⟨(hfirst.trans hi hrest).congr ?_, htags⟩
    intro f' tag b
    have hsame : (db.removeTag f service (some (BitVec.twoPow 64 i)) t).idIn ids tag =
        db.idIn ids tag := rfl
    rw [hsame]
    by_cases hf : f' = f
    · cases hid : db.tags.idOf tag with
      | none => simp [idIn, hid]
      | some id => by_cases ht : id = t <;> simp [idIn, hid, hf, ht]
    · simp [hf]

/-- Set the flag on the rows of some tags. -/
theorem sets_addTags (service : Nat) (now : Int) {i : Nat} (hi : i < 64) (f : Nat) (origins : Nat → Option Nat) (ids : List Nat)
    (h : db.MappingTags) (hids : ∀ id ∈ ids, ∃ tag, db.tags.idOf tag = some id) :
    let db' := ids.foldl (fun db t =>
      db.addTag f service (BitVec.twoPow 64 i) now (origins t) t) db
    Sets service i (fun f' tag b => f' = f && db.idIn ids tag || b) db db' ∧
      db'.tags = db.tags := by
  induction ids generalizing db with
  | nil =>
    refine ⟨(Sets.refl h).congr ?_, rfl⟩
    intro f' tag b
    cases hid : db.tags.idOf tag <;> simp [idIn, hid]
  | cons t ids ih =>
    obtain ⟨tag, htag⟩ := hids t (by simp)
    have hfirst := sets_insertMapping service (i := i) (f := f) h htag
      ⟨.current, now, BitVec.twoPow 64 i, origins t⟩ rfl
      fun row => (rfl : (orBitCurrent (BitVec.twoPow 64 i) row).domains = _)
    obtain ⟨hrest, htags⟩ := ih hfirst.tags fun id hid => hids id (List.mem_cons_of_mem _ hid)
    refine ⟨(hfirst.trans hi hrest).congr ?_, htags⟩
    intro f' tag' b
    have hsame : (db.insertMapping (f, t, service) ⟨.current, now, BitVec.twoPow 64 i, origins t⟩
        (orBitCurrent (BitVec.twoPow 64 i))).idIn ids tag' = db.idIn ids tag' := rfl
    rw [hsame]
    by_cases hf : f' = f
    · cases hid : db.tags.idOf tag' with
      | none =>
        have hne : tag' ≠ tag := fun heq => by simp [heq, htag] at hid
        simp [idIn, hid, hne]
      | some id =>
        have hiff : tag' = tag ↔ id = t := by
          constructor
          · intro heq
            rw [heq, htag] at hid
            exact (Option.some.inj hid).symm
          · intro heq
            rw [heq] at hid
            exact IdTable.mem_rows_unique (IdTable.mem_of_idOf hid) (IdTable.mem_of_idOf htag)
        by_cases ht : id = t <;> simp [idIn, hid, hf, hiff, ht]
    · simp [hf]

/-- The rows of a file that carry the flag afterwards are those of the new tags. -/
theorem sets_replaceTags (service : Nat) (now : Int) {i : Nat} (hi : i < 64) (f : Nat) {new : List Nat} {p : Tag → Bool}
    (origins : Table (Nat × Nat) (Option Nat)) (h : db.MappingTags) (hnew : db.Names new p) :
    Sets service i (fun f' tag b => if f' = f then p tag else b) db
        (replaceTags service (some (BitVec.twoPow 64 i)) now f new origins db) ∧
      (replaceTags service (some (BitVec.twoPow 64 i)) now f new origins db).tags = db.tags := by
  have hflag := flag_eq_idIn db service hi f
  unfold replaceTags
  dsimp only
  generalize db.currentTagIds f service (some (BitVec.twoPow 64 i)) = current at hflag ⊢
  obtain ⟨hremoved, htags⟩ := sets_removeTags service hi f
    (current.filter (· ∉ new)) h
  generalize (current.filter (· ∉ new)).foldl (fun db t =>
    db.removeTag f service (some (BitVec.twoPow 64 i)) t) db = removed at hremoved htags ⊢
  have hids : ∀ id ∈ new.filter (· ∉ current), ∃ tag, removed.tags.idOf tag = some id := by
    intro id hid
    obtain ⟨tag, _, htag⟩ := hnew.1 id (List.mem_filter.1 hid).1
    exact ⟨tag, by rw [htags]; exact htag⟩
  obtain ⟨hadded, htags'⟩ := sets_addTags service now hi f
    (fun t => (origins.lookup (f, t)).join) (new.filter (· ∉ current)) hremoved.tags hids
  have hreap := sets_reap service (i := i)
    (p := fun k row => k.1 = f && k.2.2 = service && row.domains = 0) hadded.tags
    (fun f' t s row hp => by simp_all)
  refine ⟨((hremoved.trans hi hadded).trans hi hreap).congr_flag ?_, htags'.trans htags⟩
  intro f' tag
  by_cases hf : f' = f
  · subst hf
    rw [hflag]
    have hsame : removed.idIn (new.filter (· ∉ current)) tag =
        db.idIn (new.filter (· ∉ current)) tag := by rw [idIn, idIn, htags]
    rw [hsame]
    cases hid : db.tags.idOf tag with
    | none =>
      have hp : p tag = false := by
        cases hp : p tag with
        | false => rfl
        | true =>
          obtain ⟨id, _, htag⟩ := hnew.2 tag hp
          rw [hid] at htag
          cases htag
      simp [idIn, hid, hp]
    | some id =>
      have hmem := hnew.mem_iff hid
      by_cases hc : id ∈ current
      · by_cases hn : id ∈ new
        · simp [idIn, hid, hc, hn, hmem.1 hn]
        · have hp : p tag = false := by simpa [hn] using hmem
          simp [idIn, hid, hc, hn, hp]
      · by_cases hn : id ∈ new
        · simp [idIn, hid, hc, hn, hmem.1 hn]
        · have hp : p tag = false := by simpa [hn] using hmem
          simp [idIn, hid, hc, hn, hp]
  · simp [hf]

theorem noZero_replaceTags {i : Nat} (hi : i < 64) (f : Nat) (new : List Nat)
    (origins : Table (Nat × Nat) (Option Nat)) (hz : db.NoZero) :
    (replaceTags service (some (BitVec.twoPow 64 i)) now f new origins db).NoZero := by
  have hremoved : ∀ (ids : List Nat) (db : Db), (db.ZerosIn fun k => k.1 = f ∧ k.2.2 = service) →
      (ids.foldl (fun db t => db.removeTag f service (some (BitVec.twoPow 64 i)) t) db).ZerosIn
        fun k => k.1 = f ∧ k.2.2 = service := by
    intro ids
    induction ids with
    | nil => exact fun _ h => h
    | cons t ids ih =>
      intro db h
      refine ih _ (h.retract ?_)
      intro k row hp
      simp_all
  have hadded : ∀ (ids : List Nat) (origin : Nat → Option Nat) (db : Db),
      (db.ZerosIn fun k => k.1 = f ∧ k.2.2 = service) →
      (ids.foldl (fun db t => db.addTag f service (BitVec.twoPow 64 i) now (origin t) t) db).ZerosIn
        fun k => k.1 = f ∧ k.2.2 = service := by
    intro ids origin
    induction ids with
    | nil => exact fun _ h => h
    | cons t ids ih =>
      intro db h
      exact ih _ (h.insertMapping hi ⟨.current, now, _, _⟩ rfl fun _ => rfl)
  have hzeros : db.ZerosIn fun k => k.1 = f ∧ k.2.2 = service :=
    fun k row hl hzero => absurd hzero (hz k row hl)
  refine (hadded _ (fun t => (origins.lookup (f, t)).join) _ (hremoved _ db hzeros)).delete ?_
  intro k row hk hzero
  simp [hk.1, hk.2, hzero]

/-! ## The requested files -/

/-- A hash of the request is that of the file. -/
def requests (db : Db) (hashes : List Hash) (f : Nat) : Bool :=
  hashes.any fun hash => db.fileIdByHash hash = some f

theorem requestedFile_eq {db' : Db} {resolved : Resolved} (hfiles : db'.files = db.files)
    (hresolved : ∀ hash f, resolved.fileIds.lookup hash = some f → db.fileIdByHash hash = some f)
    (hash : Hash) : db'.requestedFile resolved hash = db.fileIdByHash hash := by
  rw [requestedFile, fileIdByHash_congr hfiles]
  cases hl : resolved.fileIds.lookup hash with
  | none => rfl
  | some f => rw [hresolved hash f hl, Option.some_or]

theorem sets_replaceRequested (now : Int) {i : Nat} (hi : i < 64) {hashes : List Hash} {entries : TaggedEntries}
    {first : Db × Resolved × MergeStats} (hpass : FirstPass service i db hashes entries first)
    {s : Db × MergeStats} (h : s.1.MappingTags) (htags : s.1.tags = first.1.tags)
    (hfiles : s.1.files = db.files) (hash : Hash) :
    Sets service i (fun f tag b =>
        if db.fileIdByHash hash = some f then entries.any (db.requestNames hashes f tag) else b) s.1
      (replaceRequested service (some (BitVec.twoPow 64 i)) now first.2.1 s hash).1 ∧
    (replaceRequested service (some (BitVec.twoPow 64 i)) now first.2.1 s hash).1.tags =
      first.1.tags := by
  have hfile := requestedFile_eq hfiles hpass.fileIds hash
  unfold replaceRequested
  rw [hfile]
  cases hf : db.fileIdByHash hash with
  | none =>
    refine ⟨(Sets.refl h).congr ?_, htags⟩
    intro f tag b
    simp
  | some f =>
    have hnames : s.1.Names ((first.2.1.newTags.lookup f).getD [])
        fun tag => entries.any (db.requestNames hashes f tag) := by
      refine (hpass.names f).mono ?_
      intro tag id hid
      rw [htags]
      exact hid
    obtain ⟨hset, hkeep⟩ := sets_replaceTags service now hi f
      first.2.1.newOrigins h hnames
    refine ⟨hset.congr ?_, hkeep.trans htags⟩
    intro f' tag b
    by_cases heq : f' = f
    · simp [heq]
    · simp [heq, Ne.symm heq]

theorem firstPass_start (service : Nat) (h : db.MappingTags) {i : Nat} (hashes : List Hash) :
    FirstPass service i db hashes [] (db, ⟨∅, ∅, ∅⟩, default) := by
  refine ⟨Sets.refl h, rfl, ?_, ?_⟩
  · intro hash f hl
    simp at hl
  · intro f
    exact ⟨by simp, by simp⟩

/-- Entries for a requested file are requested. -/
theorem any_requestNames {hashes : List Hash} {f : Nat} (hreq : db.requests hashes f = true)
    (entries : TaggedEntries) (tag : Tag) :
    entries.any (db.requestNames hashes f tag) = entries.any (db.entryNames f tag) := by
  obtain ⟨hash, hmem, hf⟩ := List.any_eq_true.1 hreq
  have hsame : db.requestNames hashes f tag = db.entryNames f tag := by
    funext e
    rw [requestNames]
    by_cases he : db.fileIdByHash e.1 = some f
    · rw [fileIdByHash_inj he (of_decide_eq_true hf)]
      simp [hmem]
    · simp [entryNames, he]
  rw [hsame]

theorem foldl_requests (f : Nat) (new : Bool) (hashes : List Hash) (b : Bool) :
    hashes.foldl (fun b hash => if db.fileIdByHash hash = some f then new else b) b =
      if db.requests hashes f then new else b := by
  induction hashes generalizing b with
  | nil => simp [requests]
  | cons hash hashes ih =>
    rw [List.foldl_cons, ih]
    by_cases hf : db.fileIdByHash hash = some f
    · simp [requests, hf]
    · simp [requests, hf]

/-- The reply replaces what the requested files carry. -/
theorem sets_mergeForFiles (h : db.MappingTags) {i : Nat} (hi : i < 64) (hashes : List Hash)
    {entries : TaggedEntries} (hcoalesced : (entries.map Prod.fst).Nodup) :
    Sets service i (fun f tag b =>
        if db.requests hashes f then entries.any (db.entryNames f tag) else b) db
      (db.mergeForFilesMasked service hashes entries (some (BitVec.twoPow 64 i)) now).1 := by
  have hpass := firstPass_spec hi entries (firstPass_start service h hashes)
    (by simpa using hcoalesced)
  rw [List.nil_append] at hpass
  unfold mergeForFilesMasked
  generalize entries.foldl (resolveEntry hashes) (db, ⟨∅, ∅, ∅⟩, default) = first at hpass ⊢
  have hfold := (Sets.foldl Prod.fst (replaceRequested service (some (BitVec.twoPow 64 i)) now first.2.1)
    (fun s : Db × MergeStats => s.1.tags = first.1.tags ∧ s.1.files = db.files)
    (v := fun hash f tag b => if db.fileIdByHash hash = some f then
      entries.any (db.requestNames hashes f tag) else b) hi hashes
    (fun s hash _ hs htags => by
      obtain ⟨hset, hkeep⟩ := sets_replaceRequested now hi hpass htags hs.1 hs.2 hash
      exact ⟨⟨hkeep, hset.files.trans hs.2⟩, hset⟩)
    (first.1, first.2.2) ⟨rfl, hpass.sets.files⟩ hpass.sets.tags).2
  refine (hpass.sets.trans hi hfold).congr ?_
  intro f tag b
  rw [foldl_requests]
  by_cases hreq : db.requests hashes f = true
  · rw [if_pos hreq, if_pos hreq, any_requestNames hreq]
  · rw [if_neg hreq, if_neg hreq]

theorem noZero_mergeForFiles (h : db.MappingTags) (hz : db.NoZero) {i : Nat} (hi : i < 64)
    (hashes : List Hash) {entries : TaggedEntries} (hcoalesced : (entries.map Prod.fst).Nodup) :
    (db.mergeForFilesMasked service hashes entries (some (BitVec.twoPow 64 i)) now).1.NoZero := by
  have hpass := firstPass_spec hi entries (firstPass_start service h hashes)
    (by simpa using hcoalesced)
  unfold mergeForFilesMasked
  generalize entries.foldl (resolveEntry hashes) (db, ⟨∅, ∅, ∅⟩, default) = first at hpass ⊢
  have hfold : ∀ (l : List Hash) (s : Db × MergeStats), s.1.NoZero →
      (l.foldl (replaceRequested service (some (BitVec.twoPow 64 i)) now first.2.1) s).1.NoZero := by
    intro l
    induction l with
    | nil => exact fun s hs => hs
    | cons hash l ih =>
      intro s hs
      refine ih _ ?_
      unfold replaceRequested
      cases s.1.requestedFile first.2.1 hash with
      | none => exact hs
      | some f => exact noZero_replaceTags hi f _ _ hs
  refine hfold hashes _ ?_
  intro k row hl
  rw [hpass.mappings] at hl
  exact hz k row hl

end

end Db
end Naiad
