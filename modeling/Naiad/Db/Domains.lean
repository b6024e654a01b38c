import Naiad.Db.Merges
import Naiad.Lib.Run

/-!
# Naiad.Db.Domains

The delta merge, and the three merges together. A pull of one domain into one service owns one bit
of the masks of that service, whatever the reply holds, so pulls of different domains commute.

* `Pulled.supplied`: which rows carry the bit after a pull, from the reply alone.
* `sets_pull`: a pull as a change of one flag.
* `domain_merges`: **what every pull leaves of a database that any run of writers reached**.
-/

namespace Naiad
namespace Db

open Lib Netproto Core

section

variable {db : Db} {service : Nat} {domain : String} {now : Int}

/-! ## Deltas -/

theorem sets_clearBucket (service : Nat) (domain : String) (h : db.MappingTags) (bounds : String × String) :
    Sets service (domainFlag domain) (fun f _ b => !db.inKeyRange domain bounds.1 bounds.2 f && b) db
      (clearBucket service domain db bounds) := by
  have hretract := sets_retract service (i := domainFlag domain)
    (p := fun k row => k.2.2 = service && row.domains &&& domainBit domain ≠ 0 &&
      db.inKeyRange domain bounds.1 bounds.2 k.1)
    (P := fun f _ => db.inKeyRange domain bounds.1 bounds.2 f)
    (Q := fun f _ => db.inKeyRange domain bounds.1 bounds.2 f) h
    (by
      intro f t s row hp
      simp_all)
    (by
      intro f t row hP hflag
      have hbit := (and_twoPow_ne_zero row.domains (domainFlag_lt domain)).2 hflag
      rw [← domainBit_eq] at hbit
      simpa [hP] using hbit)
    (fun _ _ _ _ => rfl)
  rw [← domainBit_eq] at hretract
  have hreap := sets_reap service (i := domainFlag domain)
    (p := fun k row => k.2.2 = service && row.domains = 0 &&
      db.inKeyRange domain bounds.1 bounds.2 k.1) hretract.tags
    (fun f t s row hp => by simp_all)
  exact hretract.trans (domainFlag_lt domain) hreap

theorem noZero_clearBucket (hz : db.NoZero) (bounds : String × String) :
    (clearBucket service domain db bounds).NoZero := by
  have hzeros : db.ZerosIn fun k =>
      k.2.2 = service ∧ db.inKeyRange domain bounds.1 bounds.2 k.1 = true :=
    fun k row hl hzero => absurd hzero (hz k row hl)
  refine (hzeros.retract ?_).delete ?_
  · intro k row hp
    simp_all
  · intro k row hk hzero
    simp [hk.1, hk.2, hzero]

theorem sets_retractRow {i f t : Nat} {tag : Tag} (hi : i < 64) (h : db.MappingTags)
    (ht : db.tags.idOf tag = some t) :
    Sets service i (fun f' tag' b => !(f' = f ∧ tag' = tag : Bool) && b) db
      (db.retractRow (BitVec.twoPow 64 i) (f, t, service)) := by
  have hretract := sets_retract service (i := i)
    (p := fun k _ => k = (f, t, service)) (P := fun f' t' => f' = f ∧ t' = t)
    (Q := fun f' tag' => f' = f ∧ tag' = tag) h
    (by
      intro f' t' s row hp
      simp_all)
    (by
      intro f' t' row hP _
      simp_all)
    (by
      intro f' tag' id hid
      have hiff : tag' = tag ↔ id = t := by
        constructor
        · intro heq
          rw [heq, ht] at hid
          exact (Option.some.inj hid).symm
        · intro heq
          rw [heq] at hid
          exact IdTable.mem_rows_unique (IdTable.mem_of_idOf hid) (IdTable.mem_of_idOf ht)
      simp [hiff])
  have hreap := sets_reap service (i := i)
    (p := fun k row => k = (f, t, service) && row.domains = 0) hretract.tags
    (fun f' t' s row hp => by simp_all)
  exact hretract.trans hi hreap

/-- What a change says of a row: nothing, that it is supplied, or that it is not. -/
def changeSupplies (db : Db) (f : Nat) (tag : Tag) (b : Bool) (c : MappingDeltaInput) : Bool :=
  if db.fileIdByHash c.hash = some f ∧ c.tag = tag then c.status = .current else b

theorem sets_applyChange (service : Nat) (now : Int) {i : Nat} (hi : i < 64) {db0 : Db} (h : db.MappingTags)
    (hfiles : db.files = db0.files) (c : MappingDeltaInput) :
    Sets service i (fun f tag b => db0.changeSupplies f tag b c) db
      (applyChange service (BitVec.twoPow 64 i) now db c) := by
  have hfile := fileIdByHash_congr hfiles c.hash
  unfold applyChange
  cases hf : db.fileIdByHash c.hash with
  | none =>
    refine (Sets.refl h).congr ?_
    intro f tag b
    simp [changeSupplies, ← hfile, hf]
  | some f =>
    rw [hfile] at hf
    cases hstatus : c.status with
    | current =>
      refine (sets_assertTag hi h (fun _ => rfl) f c.tag c.origin).congr ?_
      intro f' tag b
      by_cases hrow : f = f' ∧ c.tag = tag
      · simp [changeSupplies, hf, hstatus, hrow]
      · have hrow' : ¬ (f' = f ∧ tag = c.tag) := fun heq => hrow ⟨heq.1.symm, heq.2.symm⟩
        simp [changeSupplies, hf, hrow, hrow']
    | deleted =>
      have hintern := sets_internTag service (i := i) h c.tag
      refine (hintern.trans hi
        (sets_retractRow hi hintern.tags (idOf_internTag c.tag) (f := f))).congr ?_
      intro f' tag b
      by_cases hrow : f = f' ∧ c.tag = tag
      · simp [changeSupplies, hf, hstatus, hrow]
      · have hrow' : ¬ (f' = f ∧ tag = c.tag) := fun heq => hrow ⟨heq.1.symm, heq.2.symm⟩
        simp [changeSupplies, hf, hrow, hrow']

theorem noZero_applyChange {i : Nat} (hi : i < 64) (hz : db.NoZero) (c : MappingDeltaInput) :
    (applyChange service (BitVec.twoPow 64 i) now db c).NoZero := by
  unfold applyChange
  cases db.fileIdByHash c.hash with
  | none => exact hz
  | some f =>
    cases c.status with
    | current => exact ZerosIn.assertTag hz hi (fun _ => rfl) f c.tag c.origin
    | deleted =>
      have hzeros : (db.internTag c.tag).ZerosIn fun k => k = (f, db.internedTag c.tag, service) :=
        fun k row hl hzero => absurd hzero (hz k row hl)
      refine (hzeros.retract ?_).delete ?_
      · intro k row hp
        exact of_decide_eq_true hp
      · intro k row hk hzero
        simp [hk, hzero]

theorem inKeyRange_congr {db' : Db} (h : db'.files = db.files) (lo hi : String) (f : Nat) :
    db'.inKeyRange domain lo hi f = db.inKeyRange domain lo hi f := by
  rw [inKeyRange, inKeyRange, h]

/-- A file is in one of the buckets. -/
def inBuckets (db : Db) (domain : String) (buckets : List (String × String)) (f : Nat) : Bool :=
  buckets.any fun bounds => db.inKeyRange domain bounds.1 bounds.2 f

theorem foldl_cleared (f : Nat) (buckets : List (String × String)) (b : Bool) :
    buckets.foldl (fun b bounds => !db.inKeyRange domain bounds.1 bounds.2 f && b) b =
      (!db.inBuckets domain buckets f && b) := by
  induction buckets generalizing b with
  | nil => simp [inBuckets]
  | cons bounds buckets ih =>
    rw [List.foldl_cons, ih]
    cases hin : db.inKeyRange domain bounds.1 bounds.2 f <;> simp [inBuckets, hin]

/-- Cleared buckets, then the changes in order. -/
theorem sets_mergeDelta (h : db.MappingTags) (changes : List MappingDeltaInput)
    (fullBuckets : List (String × String)) (cursor fileMarker : Nat) :
    Sets service (domainFlag domain)
      (fun f tag b => changes.foldl (db.changeSupplies f tag) (!db.inBuckets domain fullBuckets f && b))
      db (db.mergeMappingDelta service domain changes fullBuckets cursor fileMarker now).1 := by
  have hi := domainFlag_lt domain
  obtain ⟨hfiles, hcleared⟩ := Sets.foldl id (clearBucket service domain)
    (fun db' : Db => db'.files = db.files)
    (v := fun bounds f _ b => !db.inKeyRange domain bounds.1 bounds.2 f && b) hi fullBuckets
    (fun db' bounds _ hfiles htags => by
      have hset := sets_clearBucket service domain htags bounds
      refine ⟨hset.files.trans hfiles, hset.congr ?_⟩
      intro f tag b
      rw [id, inKeyRange_congr hfiles]) db rfl h
  have hchanged := (Sets.foldl id (applyChange service (BitVec.twoPow 64 (domainFlag domain)) now)
    (fun db' : Db => db'.files = db.files)
    (v := fun c f tag b => db.changeSupplies f tag b c) hi changes
    (fun db' c _ hfiles htags => by
      have hset := sets_applyChange service now hi htags hfiles c
      exact ⟨hset.files.trans hfiles, hset⟩) _ hfiles hcleared.tags).2
  have hboth : Sets service (domainFlag domain)
      (fun f tag b => changes.foldl (db.changeSupplies f tag)
        (!db.inBuckets domain fullBuckets f && b)) db
      (changes.foldl (applyChange service (BitVec.twoPow 64 (domainFlag domain)) now)
        (fullBuckets.foldl (clearBucket service domain) db)) := by
    refine (hcleared.trans hi hchanged).congr ?_
    intro f tag b
    rw [foldl_cleared]
  rw [← domainBit_eq] at hboth
  exact ⟨hboth.files, ⟨hboth.tags.tags_unique, hboth.tags.mapping_tag⟩, hboth.ids, hboth.mask,
    hboth.others⟩

theorem noZero_mergeDelta (hz : db.NoZero) (changes : List MappingDeltaInput)
    (fullBuckets : List (String × String)) (cursor fileMarker : Nat) :
    (db.mergeMappingDelta service domain changes fullBuckets cursor fileMarker now).1.NoZero := by
  have hcleared : (fullBuckets.foldl (clearBucket service domain) db).NoZero :=
    run_invariant fullBuckets hz fun _ bounds hz => noZero_clearBucket hz bounds
  have hchanged : (changes.foldl (applyChange service (domainBit domain) now)
      (fullBuckets.foldl (clearBucket service domain) db)).NoZero := by
    refine run_invariant changes hcleared ?_
    intro db c hz
    rw [domainBit_eq]
    exact noZero_applyChange (domainFlag_lt domain) hz c
  exact fun k row hl => hchanged k row hl

end

/-! ## The three merges -/

/-- A pulled reply; callers coalesce the entries of a per-file pull. -/
inductive Merge
  | snapshot (entries : TaggedEntries)
  | forFiles (hashes : List Hash) (entries : TaggedEntries)
      (coalesced : (entries.map Prod.fst).Nodup)
  | delta (changes : List MappingDeltaInput) (fullBuckets : List (String × String))
      (cursor fileMarker : Nat)

structure Pulled where
  service : Nat
  domain : String
  merge : Merge
  now : Int

def pull (db : Db) (p : Pulled) : Db :=
  match p.merge with
  | .snapshot entries => (db.mergePulledMappingsInDomain p.service p.domain entries p.now).1
  | .forFiles hashes entries _ =>
    (db.mergeForFilesMasked p.service hashes entries (some (domainBit p.domain)) p.now).1
  | .delta changes fullBuckets cursor fileMarker =>
    (db.mergeMappingDelta p.service p.domain changes fullBuckets cursor fileMarker p.now).1

/-- Whether a row of the service carries the domain's bit after the pull, and `before`, as the reply
says it: of every owned file, of the requested files, or of the cleared buckets and the changes. -/
def Pulled.supplied (db : Db) (p : Pulled) (f : Nat) (tag : Tag) (before : Bool) : Bool :=
  match p.merge with
  | .snapshot entries => entries.any (db.entryNames f tag)
  | .forFiles hashes entries _ =>
    if db.requests hashes f then entries.any (db.entryNames f tag) else before
  | .delta changes fullBuckets _ _ =>
    changes.foldl (db.changeSupplies f tag) (!db.inBuckets p.domain fullBuckets f && before)

/-- A row of the service carries the bit of the domain. -/
def carries (db : Db) (domain : String) (f : Nat) (tag : Tag) (s : Nat) : Bool :=
  db.mask f tag s &&& domainBit domain ≠ 0

/-- Mappings as masks: tags by id, and no row without a domain. -/
structure Masked (db : Db) : Prop extends MappingTags db where
  noZero : db.NoZero

section

variable {db : Db}

theorem carries_eq (domain : String) (f : Nat) (tag : Tag) (s : Nat) :
    db.carries domain f tag s = (db.mask f tag s).getLsbD (domainFlag domain) := by
  have hiff := and_twoPow_ne_zero (db.mask f tag s) (domainFlag_lt domain)
  rw [← domainBit_eq] at hiff
  rw [carries]
  cases hb : (db.mask f tag s).getLsbD (domainFlag domain) with
  | false =>
    rw [hb] at hiff
    simpa using hiff
  | true => exact decide_eq_true (hiff.2 hb)

theorem domainFlag_ne {domain domain' : String} (h : domainBit domain ≠ domainBit domain') :
    domainFlag domain ≠ domainFlag domain' := by
  intro heq
  rw [domainBit_eq, domainBit_eq, heq] at h
  exact h rfl

/-- A pull is a change of one flag of one service. -/
theorem sets_pull (h : db.MappingTags) (p : Pulled) :
    Sets p.service (domainFlag p.domain) (p.supplied db) db (db.pull p) := by
  unfold pull Pulled.supplied
  cases p.merge with
  | snapshot entries => exact sets_mergeInDomain h entries
  | forFiles hashes entries hcoalesced =>
    rw [domainBit_eq]
    exact sets_mergeForFiles h (domainFlag_lt p.domain) hashes hcoalesced
  | delta changes fullBuckets cursor fileMarker =>
    exact sets_mergeDelta h changes fullBuckets cursor fileMarker

theorem noZero_pull (h : db.Masked) (p : Pulled) : (db.pull p).NoZero := by
  unfold pull
  cases p.merge with
  | snapshot entries => exact noZero_mergeInDomain h.noZero entries
  | forFiles hashes entries hcoalesced =>
    rw [domainBit_eq]
    exact noZero_mergeForFiles h.toMappingTags h.noZero (domainFlag_lt p.domain) hashes hcoalesced
  | delta changes fullBuckets cursor fileMarker =>
    exact noZero_mergeDelta h.noZero changes fullBuckets cursor fileMarker

theorem Masked.pull (h : db.Masked) (p : Pulled) : (db.pull p).Masked :=
  ⟨(sets_pull h.toMappingTags p).tags, noZero_pull h p⟩

/-- After a pull the bit of its domain is on the rows the reply says. -/
theorem carries_pull (h : db.MappingTags) (p : Pulled) (f : Nat) (tag : Tag) :
    (db.pull p).carries p.domain f tag p.service =
      p.supplied db f tag (db.carries p.domain f tag p.service) := by
  rw [carries_eq, carries_eq, (sets_pull h p).mask, if_pos rfl, getLsbD_setFlag _ _ (domainFlag_lt _),
    if_pos rfl]

/-- Changes that agree on a row decide it, whatever their order. -/
theorem foldl_changeSupplies {f : Nat} {tag : Tag} (changes : List MappingDeltaInput)
    (hagree : ∀ c ∈ changes, ∀ c' ∈ changes, db.fileIdByHash c.hash = some f ∧ c.tag = tag →
      db.fileIdByHash c'.hash = some f ∧ c'.tag = tag → c.status = c'.status) :
    changes.foldl (db.changeSupplies f tag) false = true ↔
      ∃ c ∈ changes, (db.fileIdByHash c.hash = some f ∧ c.tag = tag) ∧ c.status = .current := by
  induction changes using List.reverseRecOn with
  | nil => simp
  | append_singleton changes c ih =>
    rw [List.foldl_append, List.foldl_cons, List.foldl_nil, changeSupplies]
    by_cases hnamed : db.fileIdByHash c.hash = some f ∧ c.tag = tag
    · rw [if_pos hnamed, decide_eq_true_eq]
      constructor
      · intro hcurrent
        exact ⟨c, by simp, hnamed, hcurrent⟩
      · rintro ⟨c', hmem, hnamed', hcurrent⟩
        exact (hagree c (by simp) c' hmem hnamed hnamed').trans hcurrent
    · rw [if_neg hnamed, ih fun c hc c' hc' => hagree c (by simp [hc]) c' (by simp [hc'])]
      constructor
      · rintro ⟨c', hmem, hrest⟩
        exact ⟨c', by simp [hmem], hrest⟩
      · rintro ⟨c', hmem, hnamed', hcurrent⟩
        rcases List.mem_append.1 hmem with hmem | hmem
        · exact ⟨c', hmem, hnamed', hcurrent⟩
        · rw [List.mem_singleton.1 hmem] at hnamed'
          exact absurd hnamed' hnamed

/-- Changes that do not name a row leave what was there. -/
theorem foldl_changeSupplies_unnamed {f : Nat} {tag : Tag} (changes : List MappingDeltaInput)
    (h : ∀ c ∈ changes, ¬ (db.fileIdByHash c.hash = some f ∧ c.tag = tag)) (b : Bool) :
    changes.foldl (db.changeSupplies f tag) b = b := by
  induction changes generalizing b with
  | nil => rfl
  | cons c changes ih =>
    rw [List.foldl_cons, changeSupplies, if_neg (h c (by simp))]
    exact ih (fun c' hc' => h c' (by simp [hc'])) b

/-- Where one names the row, it does not matter what was there. -/
theorem foldl_changeSupplies_named {f : Nat} {tag : Tag} (changes : List MappingDeltaInput)
    (h : ∃ c ∈ changes, db.fileIdByHash c.hash = some f ∧ c.tag = tag) (b b' : Bool) :
    changes.foldl (db.changeSupplies f tag) b = changes.foldl (db.changeSupplies f tag) b' := by
  induction changes generalizing b b' with
  | nil =>
    obtain ⟨c, hc, _⟩ := h
    cases hc
  | cons c changes ih =>
    rw [List.foldl_cons, List.foldl_cons]
    by_cases hnamed : db.fileIdByHash c.hash = some f ∧ c.tag = tag
    · rw [changeSupplies, changeSupplies, if_pos hnamed, if_pos hnamed]
    · refine ih ?_ _ _
      obtain ⟨c', hmem, hc'⟩ := h
      rcases List.mem_cons.1 hmem with rfl | hmem
      · exact absurd hc' hnamed
      · exact ⟨c', hmem, hc'⟩

theorem supplied_congr {db' : Db} (h : db'.files = db.files) (p : Pulled) : p.supplied db' = p.supplied db := by
  have hfile : db'.fileIdByHash = db.fileIdByHash := funext fun hash => fileIdByHash_congr h hash
  funext f tag b
  have hnames : db'.entryNames f tag = db.entryNames f tag := by
    funext e
    rw [entryNames, entryNames, hfile]
  have hchange : db'.changeSupplies f tag = db.changeSupplies f tag := by
    funext b c
    rw [changeSupplies, changeSupplies, hfile]
  unfold Pulled.supplied
  cases p.merge with
  | snapshot entries => rw [hnames]
  | forFiles hashes entries _ =>
    have hrequests : db'.requests hashes f = db.requests hashes f := by
      unfold requests
      rw [hfile]
    show (if db'.requests hashes f then _ else b) = if db.requests hashes f then _ else b
    rw [hnames, hrequests]
  | delta changes fullBuckets _ _ =>
    have hrange : db'.inKeyRange p.domain = db.inKeyRange p.domain := by
      funext lo hi f
      exact inKeyRange_congr h lo hi f
    simp only [hchange, inBuckets, hrange]

/-- Pulls of different domains commute. -/
theorem pull_comm (h : db.MappingTags) (p q : Pulled) (hpq : domainBit q.domain ≠ domainBit p.domain)
    (f : Nat) (tag : Tag) (s : Nat) :
    ((db.pull p).pull q).mask f tag s = ((db.pull q).pull p).mask f tag s := by
  have hp := sets_pull h p
  have hq := sets_pull h q
  have hflag := domainFlag_ne hpq
  rw [(sets_pull hp.tags q).mask, (sets_pull hq.tags p).mask, hp.mask, hq.mask,
    supplied_congr hp.files, supplied_congr hq.files]
  by_cases hsp : s = p.service
  · by_cases hsq : s = q.service
    · rw [if_pos hsp, if_pos hsq, if_pos hsp, if_pos hsq,
        getLsbD_setFlag _ _ (domainFlag_lt _), if_neg hflag,
        getLsbD_setFlag _ _ (domainFlag_lt _), if_neg hflag.symm]
      exact setFlag_comm _ hflag.symm _ _
    · simp [hsp, hsp ▸ hsq]
  · simp [hsp]

end

/-! ## What a pull leaves alone -/

/-- What the statements on mappings leave alone. -/
def aside (db : Db) :
    Table Nat FileRow × Table (Nat × Path) LocationRow × Nat × Table Nat ServiceRow ×
      Table (Nat × String) PullState :=
  (db.files, db.locations, db.sha256SeqCounter, db.services, db.pullState)

section

variable {db : Db} {service : Nat} {bit : BitVec 64} {now : Int}

theorem aside_assertTag (update : MappingRow → MappingRow) (f : Nat) (tag : Tag)
    (origin : Option String) :
    (db.assertTag service bit now update f tag origin).aside = db.aside := by
  cases origin <;> rfl

theorem aside_foldl {α : Type} (g : Db → α → Db) (as : List α)
    (h : ∀ db a, (g db a).aside = db.aside) (db : Db) : (as.foldl g db).aside = db.aside :=
  @run_invariant _ _ _ (fun db' : Db => db'.aside = db.aside) _ as rfl fun _ _ hdb =>
    (h _ _).trans hdb

theorem aside_mergeInDomain (domain : String) (entries : TaggedEntries) :
    (db.mergePulledMappingsInDomain service domain entries now).1.aside = db.aside := by
  have hentry : ∀ (s : Db × MergeStats) e, (assertEntry service (domainBit domain) now s e).1.aside =
      s.1.aside := by
    intro s e
    unfold assertEntry
    cases s.1.fileIdByHash e.1 with
    | none => rfl
    | some f =>
      exact @run_invariant _ _ _ (fun s' : Db × MergeStats => s'.1.aside = s.1.aside) _ e.2 rfl
        fun _ t h => (aside_assertTag _ f t.1 t.2).trans h
  exact @run_invariant _ _ _ (fun s : Db × MergeStats => s.1.aside = db.aside) _ entries rfl
    fun _ _ h => (hentry _ _).trans h

theorem aside_resolveTags (f : Nat) (tags : List (Tag × Option String))
    (s : Db × List Nat × Table (Nat × Nat) (Option Nat)) :
    (resolveTags f tags s).1.aside = s.1.aside := by
  refine @run_invariant _ _ _ (fun s' : Db × List Nat × Table (Nat × Nat) (Option Nat) =>
    s'.1.aside = s.1.aside) _ tags rfl ?_
  intro s' t h
  have hintern : (((s'.1.internTag t.1).internOrigin t.2).1).aside = s'.1.aside := by
    cases t.2 <;> rfl
  exact hintern.trans h

theorem aside_replaceTags (bit : Option (BitVec 64)) (f : Nat) (new : List Nat)
    (origins : Table (Nat × Nat) (Option Nat)) :
    (replaceTags service bit now f new origins db).aside = db.aside := by
  have hremove : ∀ (db : Db) t, (db.removeTag f service bit t).aside = db.aside := by
    intro db t
    cases bit <;> rfl
  have hreap : ∀ db : Db, (db.reapFile f service bit).aside = db.aside := by
    intro db
    cases bit <;> rfl
  unfold replaceTags
  refine (hreap _).trans ((aside_foldl _ _ ?_ _).trans (aside_foldl _ _ hremove db))
  exact fun _ _ => rfl

theorem aside_mergeForFiles (hashes : List Hash) (entries : TaggedEntries)
    (bit : Option (BitVec 64)) :
    (db.mergeForFilesMasked service hashes entries bit now).1.aside = db.aside := by
  have hresolve : ∀ (s : Db × Resolved × MergeStats) e, (resolveEntry hashes s e).1.aside =
      s.1.aside := by
    intro s e
    unfold resolveEntry
    split
    · cases s.1.fileIdByHash e.1 with
      | none => rfl
      | some f => exact aside_resolveTags f e.2 _
    · rfl
  have hreplace : ∀ resolved (s : Db × MergeStats) hash,
      (replaceRequested service bit now resolved s hash).1.aside = s.1.aside := by
    intro resolved s hash
    unfold replaceRequested
    cases s.1.requestedFile resolved hash with
    | none => rfl
    | some f => exact aside_replaceTags bit f _ _
  have hfirst : (entries.foldl (resolveEntry hashes) (db, ⟨∅, ∅, ∅⟩, default)).1.aside = db.aside :=
    @run_invariant _ _ _ (fun s : Db × Resolved × MergeStats => s.1.aside = db.aside) _ entries rfl
      fun _ _ h => (hresolve _ _).trans h
  exact @run_invariant _ _ _ (fun s : Db × MergeStats => s.1.aside = db.aside) _ hashes hfirst
    fun _ _ h => (hreplace _ _ _).trans h

theorem aside_applyChange (c : MappingDeltaInput) :
    (applyChange service bit now db c).aside = db.aside := by
  unfold applyChange
  cases db.fileIdByHash c.hash with
  | none => rfl
  | some f =>
    cases c.status with
    | current => exact aside_assertTag _ f c.tag c.origin
    | deleted => rfl

/-- A pull touches no file and no service, and only a delta its pull state. -/
theorem aside_pull (p : Pulled) : (db.pull p).aside =
    match p.merge with
    | .delta _ _ cursor marker => (db.setPullState p.service p.domain cursor marker).aside
    | _ => db.aside := by
  unfold pull
  cases p.merge with
  | snapshot entries => exact aside_mergeInDomain p.domain entries
  | forFiles hashes entries _ => exact aside_mergeForFiles hashes entries _
  | delta changes fullBuckets cursor marker =>
    have hcleared : (fullBuckets.foldl (clearBucket p.service p.domain) db).aside = db.aside :=
      aside_foldl (clearBucket p.service p.domain) _ (fun _ _ => rfl) db
    have hmerged := (aside_foldl (applyChange p.service (domainBit p.domain) p.now) changes
      (fun _ c => aside_applyChange c) _).trans hcleared
    simp only [aside, Prod.mk.injEq] at hmerged ⊢
    obtain ⟨hfiles, hlocations, hcounter, hservices, hstate⟩ := hmerged
    refine ⟨hfiles, hlocations, hcounter, hservices, ?_⟩
    exact congrArg (fun t : Table (Nat × String) PullState =>
      t.insert (p.service, p.domain) ⟨some (toI64 cursor), some marker⟩) hstate

end

/-! ## Runs of the writers of mappings -/

/-- `INSERT .. ON CONFLICT DO NOTHING`, with the native bit by default. -/
def addMapping (db : Db) (f t service : Nat) (now : Int) : Db :=
  db.insertMapping (f, t, service) ⟨.current, now, domainBitBlake3, none⟩ id

/-- Intern each tag and add its mapping; one item is a local tagging. -/
def applyHydrusMappings (db : Db) (service : Nat) (items : List (Nat × Tag)) (now : Int) : Db :=
  items.foldl (fun db item =>
    (db.internTag item.2).addMapping item.1 (db.internedTag item.2) service now) db

def removeMapping (db : Db) (f t service : Nat) : Db :=
  db.deleteMappings fun k _ => k = (f, t, service)

/-- A mapping staged under the SHA-256 of a file. -/
structure StagedMapping where
  sha256 : Hash
  tag : Tag
  status : MappingStatus
  createdAt : Int

def stagedFiles (db : Db) (sha256 : Hash) : List Nat :=
  (db.files.entries.filter fun e => e.2.sha256 = some sha256).map Sigma.fst

/-- The `current` rows of a service become mappings. -/
def resolveStagedRow (service : Nat) (bit : BitVec 64) (db : Db) (r : StagedMapping) : Db :=
  match r.status with
  | .current => (db.stagedFiles r.sha256).foldl (fun db f =>
      db.assertTag service bit r.createdAt (orBitCurrent bit) f r.tag none) db
  | .deleted => db

/-- Resolve the staged rows of a service: insert, retract, reap. -/
def resolveStagedMappings (db : Db) (service : Nat) (domain : String) (staged : List StagedMapping) :
    Db :=
  let inserted := staged.foldl (resolveStagedRow service (domainBit domain)) db
  (inserted.retract (domainBit domain) fun k _ =>
      k.2.2 = service && staged.any fun r => r.status = .deleted &&
        (inserted.stagedFiles r.sha256).contains k.1 && inserted.tags.idOf r.tag = some k.2.1)
    |>.deleteMappings fun k row => k.2.2 = service && row.domains = 0

/-- Delete a service and every row scoped to it; a rejection that references the service keeps its
own row from being deleted. -/
def dropService (db : Db) (service : Nat) : Db :=
  { db with
    mappings := db.mappings.select fun k _ => k.2.2 ≠ service
    siblings := db.siblings.select fun k _ => k.2 ≠ service
    parents := db.parents.select fun k _ => k.2.2 ≠ service
    pullState := db.pullState.select fun k _ => k.1 ≠ service
    services :=
      if ∃ r ∈ db.rejections, r.1 = service then db.services
      else db.services.select fun k _ => k ≠ service }

inductive Write
  | insertFile (rec : FileRecord) (scanMarker : Nat) (now : Int)
  | addMappings (service : Nat) (items : List (Nat × Tag)) (now : Int)
  | removeMapping (f t service : Nat)
  | resolveStaged (service : Nat) (domain : String) (staged : List StagedMapping)
  | dropService (service : Nat)
  | pull (p : Pulled)

def write (db : Db) : Write → Db
  | .insertFile rec scanMarker now => db.insertFile rec scanMarker now
  | .addMappings service items now => db.applyHydrusMappings service items now
  | .removeMapping f t service => db.removeMapping f t service
  | .resolveStaged service domain staged => db.resolveStagedMappings service domain staged
  | .dropService service => db.dropService service
  | .pull p => db.pull p

section

variable {db : Db}

theorem NoZero.deleteMappings (hz : db.NoZero) (p : Nat × Nat × Nat → MappingRow → Bool) :
    (db.deleteMappings p).NoZero := by
  intro k row hl
  obtain ⟨hold, _⟩ := Option.filter_eq_some_iff.1 ((Table.lookup_select _ _ _).symm.trans hl)
  exact hz k row hold

theorem Masked.deleteMappings (h : db.Masked) (p : Nat × Nat × Nat → MappingRow → Bool) :
    (db.deleteMappings p).Masked :=
  ⟨h.toMappingTags.deleteMappings p, h.noZero.deleteMappings p⟩

theorem insertFile_frame (db : Db) (rec : FileRecord) (scanMarker : Nat) (now : Int) :
    (db.insertFile rec scanMarker now).mappings = db.mappings ∧
      (db.insertFile rec scanMarker now).tags = db.tags := by
  have hcontent : (db.upsertContent rec now).mappings = db.mappings ∧
      (db.upsertContent rec now).tags = db.tags := by
    unfold upsertContent
    cases db.fileIdByHash rec.hash with
    | none => exact ⟨rfl, rfl⟩
    | some f => exact ⟨rfl, rfl⟩
  unfold insertFile
  cases (db.upsertContent rec now).fileIdByHash rec.hash with
  | none => exact hcontent
  | some f =>
    show (((db.upsertContent rec now).stampSha256 f).mappings = _) ∧
      (((db.upsertContent rec now).stampSha256 f).tags = _)
    unfold stampSha256
    split
    · exact hcontent
    · exact hcontent

theorem Masked.of_frame {db' : Db} (h : db.Masked) (hmappings : db'.mappings = db.mappings)
    (htags : db'.tags = db.tags) : db'.Masked := by
  refine ⟨h.toMappingTags.of_lookup htags ?_, ?_⟩
  · intro f t s row hl
    rw [hmappings] at hl
    exact h.mapping_tag f t s row hl
  · intro k row hl
    rw [hmappings] at hl
    exact h.noZero k row hl

theorem Masked.addMapping (h : db.Masked) (f : Nat) (tag : Tag) (service : Nat) (now : Int) :
    ((db.internTag tag).addMapping f (db.internedTag tag) service now).Masked := by
  have hid : (db.internTag tag).tags.idOf tag = some (db.internedTag tag) := idOf_internTag tag
  have hmem := IdTable.mem_ids_of_idOf hid
  refine ⟨(h.toMappingTags.internTag tag).insertMapping hmem _ _, ?_⟩
  intro k row hl
  change (db.mappings.upsert (f, db.internedTag tag, service) ⟨.current, now, domainBitBlake3, none⟩
    fun old => some old).1.lookup k = some row at hl
  unfold Table.upsert at hl
  cases hold : db.mappings.lookup (f, db.internedTag tag, service) with
  | none =>
    rw [hold] at hl
    by_cases hk : k = (f, db.internedTag tag, service)
    · rw [hk, AList.lookup_insert] at hl
      cases hl
      simp [domainBitBlake3]
    · rw [AList.lookup_insert_ne hk] at hl
      exact h.noZero k row hl
  | some old =>
    rw [hold] at hl
    by_cases hk : k = (f, db.internedTag tag, service)
    · rw [hk, AList.lookup_insert] at hl
      cases hl
      exact h.noZero _ _ hold
    · rw [AList.lookup_insert_ne hk] at hl
      exact h.noZero k row hl

theorem Masked.applyHydrusMappings (h : db.Masked) (service : Nat) (items : List (Nat × Tag))
    (now : Int) : (db.applyHydrusMappings service items now).Masked :=
  run_invariant items h fun _ item h => h.addMapping item.1 item.2 service now

/-- Between two statements zero masks may stand among some rows. -/
structure Staging (P : Nat × Nat × Nat → Prop) (db : Db) : Prop where
  tags : db.MappingTags
  zeros : db.ZerosIn P

theorem Staging.resolveRow {service : Nat} {i : Nat} (hi : i < 64) {P : Nat × Nat × Nat → Prop}
    (h : Staging P db) (r : StagedMapping) :
    Staging P (resolveStagedRow service (BitVec.twoPow 64 i) db r) := by
  unfold resolveStagedRow
  cases r.status with
  | current =>
    have hstep : ∀ db f, Staging P db → Staging P (db.assertTag service (BitVec.twoPow 64 i)
        r.createdAt (orBitCurrent (BitVec.twoPow 64 i)) f r.tag none) := by
      intro db f h
      exact ⟨(sets_assertTag hi h.tags (fun _ => rfl) f r.tag none).tags,
        h.zeros.assertTag hi (fun _ => rfl) f r.tag none⟩
    exact run_invariant (db.stagedFiles r.sha256) h hstep
  | deleted => exact h

theorem Masked.resolveStagedMappings (h : db.Masked) (service : Nat) (domain : String)
    (staged : List StagedMapping) : (db.resolveStagedMappings service domain staged).Masked := by
  have hstart : Staging (fun k => k.2.2 = service) db :=
    ⟨h.toMappingTags, fun k row hl hzero => absurd hzero (h.noZero k row hl)⟩
  have hinserted : Staging (fun k => k.2.2 = service)
      (staged.foldl (resolveStagedRow service (domainBit domain)) db) := by
    refine run_invariant staged hstart ?_
    intro db r h
    rw [domainBit_eq]
    exact h.resolveRow (domainFlag_lt domain) r
  refine ⟨(hinserted.tags.retract _ _).deleteMappings _, (hinserted.zeros.retract ?_).delete ?_⟩
  · intro k row hp
    simp_all
  · intro k row hk hzero
    simp [hk, hzero]

theorem Masked.dropService (h : db.Masked) (service : Nat) : (db.dropService service).Masked := by
  have hdelete := h.deleteMappings fun k _ => k.2.2 = service
  refine hdelete.of_frame ?_ rfl
  show db.mappings.select (fun k _ => k.2.2 ≠ service) =
    db.mappings.select fun k _ => !decide (k.2.2 = service)
  congr 1
  funext k row
  simp

theorem Masked.write (h : db.Masked) (w : Write) : (db.write w).Masked := by
  cases w with
  | insertFile rec scanMarker now =>
    obtain ⟨hmappings, htags⟩ := insertFile_frame db rec scanMarker now
    exact h.of_frame hmappings htags
  | addMappings service items now => exact h.applyHydrusMappings service items now
  | removeMapping f t service => exact h.deleteMappings _
  | resolveStaged service domain staged => exact h.resolveStagedMappings service domain staged
  | dropService service => exact h.dropService service
  | pull p => exact h.pull p

end

theorem masked_empty : empty.Masked := by
  refine ⟨⟨IdTable.unique_empty, ?_⟩, ?_⟩
  · intro f t s row hl
    cases hl
  · intro k row hl
    cases hl

/-- **Every database that a run of writers reaches holds its mappings as masks without zeros, and a
pull into one, of any reply, leaves the bit of its domain on exactly the rows of its service that
the reply says, every other bit and every other service as they were, and no zero mask. Pulls of
different domains commute.** -/
theorem domain_merges :
    (∀ ws : List Write, (run write empty ws).Masked) ∧
    ∀ db : Db, db.Masked → ∀ p : Pulled,
      (db.pull p).Masked ∧
      (∀ f tag, (db.pull p).carries p.domain f tag p.service =
        p.supplied db f tag (db.carries p.domain f tag p.service)) ∧
      (∀ domain, domainBit domain ≠ domainBit p.domain → ∀ f tag s,
        (db.pull p).carries domain f tag s = db.carries domain f tag s) ∧
      (∀ f t s, s ≠ p.service →
        (db.pull p).mappings.lookup (f, t, s) = db.mappings.lookup (f, t, s)) ∧
      ∀ q : Pulled, domainBit q.domain ≠ domainBit p.domain → ∀ f tag s,
        ((db.pull p).pull q).mask f tag s = ((db.pull q).pull p).mask f tag s := by
  refine ⟨fun ws => run_invariant ws masked_empty fun _ w h => h.write w, ?_⟩
  intro db h p
  have hset := sets_pull h.toMappingTags p
  refine ⟨h.pull p, carries_pull h.toMappingTags p, ?_, hset.others,
    fun q hpq => pull_comm h.toMappingTags p q hpq⟩
  · intro domain hdomain f tag s
    rw [carries_eq, carries_eq, hset.mask]
    by_cases hs : s = p.service
    · rw [if_pos hs, getLsbD_setFlag _ _ (domainFlag_lt _), if_neg (domainFlag_ne hdomain)]
    · rw [if_neg hs]

/-- A library of one file that the native domain tags. -/
def tagged : List Write :=
  [.insertFile ⟨Hash.fill 1, [47, 97], 10, none, none, some (Hash.fill 11)⟩ 1 0,
    .pull ⟨2, "blake3", .snapshot [(Hash.fill 1, [(⟨"t", "both"⟩, none), (⟨"t", "old"⟩, none)])], 0⟩]

def interop : Pulled :=
  ⟨2, "sha256", .forFiles [Hash.fill 1, Hash.fill 2] [(Hash.fill 1, [(⟨"t", "both"⟩, some "x")])]
    (by decide), 5⟩

def native : Pulled :=
  ⟨2, "blake3", .delta [⟨Hash.fill 1, ⟨"t", "old"⟩, .deleted, 7, none⟩] [] 7 1, 6⟩

theorem domain_merges_tagged :
    ((run write empty tagged).pull interop).carries "sha256" 1 ⟨"t", "both"⟩ 2 = true ∧
      ((run write empty tagged).pull interop).carries "blake3" 1 ⟨"t", "both"⟩ 2 = true ∧
      ((run write empty tagged).pull interop).NoZero ∧
      (((run write empty tagged).pull interop).pull native).mask 1 ⟨"t", "old"⟩ 2 =
        (((run write empty tagged).pull native).pull interop).mask 1 ⟨"t", "old"⟩ 2 := by
  obtain ⟨hmasked, hcarries, hother, _, hcomm⟩ :=
    domain_merges.2 (run write empty tagged) (domain_merges.1 tagged) interop
  refine ⟨?_, ?_, hmasked.noZero, hcomm native (by decide) _ _ _⟩
  · exact (hcarries 1 ⟨"t", "both"⟩).trans (by decide)
  · exact (hother "blake3" (by decide) 1 ⟨"t", "both"⟩ 2).trans (by decide)

end Db
end Naiad
