import Naiad.Db.Domains
import Naiad.Db.Recanonicalize
import Naiad.Lib.Tally

/-!
# Naiad.Db.Counts

The count tables behind tag completion and the row triggers that keep them: how many current
mappings each tag has, and how many tags of each namespace have one. The writers of mappings are
those of the database, statement for statement, with the triggers each of their rows fires; the
triggers of the counts themselves keep the namespaces.

* `CountedDb`: a database with its count tables.
* `Counts`: it holds this database, and its counts are those of its rows.
* `completion_counts_exact`: **whatever the writers do, the counts are exact**.
-/

namespace Naiad

open Lib Netproto

/-- `tag_completion_counts` by tag id and `tag_namespace_counts` by namespace. -/
structure CountedDb extends Db where
  completionCounts : Table Nat Nat
  namespaceCounts : Table String Nat

namespace Db

def namespaceOf (db : Db) (t : Nat) : Option String := (db.tags.valueOf t).map Tag.ns

/-- The tag a mapping counts for. -/
def currentTag (k : Nat × Nat × Nat) (row : MappingRow) : Option Nat :=
  if row.status = .current then some k.2.1 else none

/-- The namespace a tag with a count is tallied in; unnamespaced tags are not. -/
def eligible (db : Db) (t : Nat) : Option String := (db.namespaceOf t).filter (· ≠ "")

def pullTag (service : Nat) (now : Int) (f : Nat) (s : Db × MergeStats) (tag : Tag) :
    Db × MergeStats :=
  let key := (f, s.1.internedTag tag, service)
  ((s.1.internTag tag).addMapping f (s.1.internedTag tag) service now,
    { s.2 with mappings := s.2.mappings + if (s.1.mappings.lookup key).isSome then 0 else 1 })

def pullEntry (service : Nat) (now : Int) (s : Db × MergeStats) (entry : Hash × List Tag) :
    Db × MergeStats :=
  match s.1.fileIdByHash entry.1 with
  | none => s
  | some f =>
    entry.2.foldl (pullTag service now f) (s.1, { s.2 with matchedFiles := s.2.matchedFiles + 1 })

/-- The snapshot merge of a repository with one domain. -/
def mergePulledMappings (db : Db) (service : Nat) (entries : List (Hash × List Tag)) (now : Int) :
    Db × MergeStats :=
  entries.foldl (pullEntry service now) (db.deleteMappings fun k _ => k.2.2 = service, default)

/-- `DELETE FROM mappings WHERE service_id IN (SELECT id FROM services WHERE url IS NOT NULL)`, as two
migrations do. -/
def discardPulled (db : Db) : Db :=
  db.deleteMappings fun k _ => (db.services.lookup k.2.2).any fun row => row.url.isSome

/-- `SELECT COUNT(*) FROM mappings WHERE tag_id = t AND status = 'current'` -/
def currentCount (db : Db) (t : Nat) : Nat :=
  db.mappings.entries.countP fun e => e.1.2.1 = t && e.2.status = .current

end Db

namespace CountedDb

open Db

/-! ## Triggers -/

/-- `namespace_counts_after_insert` -/
def namespaceAfterInsert (c : CountedDb) (t : Nat) : CountedDb :=
  match c.namespaceOf t with
  | none => c
  | some ns =>
    if ns = "" then c else { c with namespaceCounts := increment c.namespaceCounts ns }

/-- `namespace_counts_after_delete` -/
def namespaceAfterDelete (c : CountedDb) (t : Nat) : CountedDb :=
  match c.namespaceOf t with
  | none => c
  | some ns => { c with namespaceCounts := decrement c.namespaceCounts ns }

/-- `INSERT INTO tag_completion_counts .. ON CONFLICT DO UPDATE`: the update fires nothing. -/
def completionUp (c : CountedDb) (t : Nat) : CountedDb :=
  let c' := { c with completionCounts := increment c.completionCounts t }
  if (c.completionCounts.lookup t).isSome then c' else c'.namespaceAfterInsert t

/-- `DELETE FROM tag_completion_counts ..`, then `UPDATE ..`, which fires nothing. -/
def completionDown (c : CountedDb) (t : Nat) : CountedDb :=
  let c' := { c with completionCounts := decrement c.completionCounts t }
  if c.completionCounts.lookup t = some 1 then c'.namespaceAfterDelete t else c'

/-- `mappings_completion_counts_after_insert` -/
def completionAfterInsert (c : CountedDb) (t : Nat) (new : MappingRow) : CountedDb :=
  if new.status = .current then c.completionUp t else c

/-- `mappings_completion_counts_after_delete` -/
def completionAfterDelete (c : CountedDb) (t : Nat) (old : MappingRow) : CountedDb :=
  if old.status = .current then c.completionDown t else c

/-- `mappings_completion_counts_after_update` -/
def completionAfterUpdate (c : CountedDb) (oldTag : Nat) (old : MappingRow) (newTag : Nat)
    (new : MappingRow) : CountedDb :=
  if old.status = .current ∨ new.status = .current then
    (c.completionAfterDelete oldTag old).completionAfterInsert newTag new
  else c

/-! ## Statements -/

/-- A statement that fires no trigger of the counts. -/
def lift (c : CountedDb) (f : Db → Db) : CountedDb := { c with toDb := f c.toDb }

def internTag (c : CountedDb) (tag : Tag) : CountedDb := c.lift fun db => db.internTag tag

/-- The domain mask is not among the columns an update trigger watches. -/
def retract (c : CountedDb) (bit : BitVec 64) (p : Nat × Nat × Nat → MappingRow → Bool) : CountedDb :=
  c.lift fun db => db.retract bit p

/-- Every deleted row fires its trigger; triggers read no mapping, so the rows go first. -/
def deleteMappings (c : CountedDb) (p : Nat × Nat × Nat → MappingRow → Bool) : CountedDb :=
  (c.mappings.entries.filter fun e => p e.1 e.2).foldl
    (fun c e => c.completionAfterDelete e.1.2.1 e.2) (c.lift fun db => db.deleteMappings p)

/-- An upsert; `setsStatus` says that its `SET` list names the status, which the update trigger
watches. -/
def insertMapping (c : CountedDb) (key : Nat × Nat × Nat) (row : MappingRow) (setsStatus : Bool)
    (update : MappingRow → MappingRow) : CountedDb :=
  let c' := c.lift fun db => db.insertMapping key row update
  match c.mappings.lookup key with
  | none => c'.completionAfterInsert key.2.1 row
  | some old => if setsStatus then c'.completionAfterUpdate key.2.1 old key.2.1 (update old) else c'

def assertTag (c : CountedDb) (service : Nat) (bit : BitVec 64) (now : Int) (setsStatus : Bool)
    (update : MappingRow → MappingRow) (f : Nat) (tag : Tag) (origin : Option String) : CountedDb :=
  ((c.internTag tag).lift fun db => (db.internOrigin origin).1).insertMapping
    (f, c.internedTag tag, service)
    ⟨.current, now, bit, ((c.toDb.internTag tag).internOrigin origin).2⟩ setsStatus update

/-! ## Writers -/

def addMapping (c : CountedDb) (f t service : Nat) (now : Int) : CountedDb :=
  c.insertMapping (f, t, service) ⟨.current, now, domainBitBlake3, none⟩ false id

def applyHydrusMappings (c : CountedDb) (service : Nat) (items : List (Nat × Tag)) (now : Int) :
    CountedDb :=
  items.foldl (fun c item =>
    (c.internTag item.2).addMapping item.1 (c.internedTag item.2) service now) c

def removeMapping (c : CountedDb) (f t service : Nat) : CountedDb :=
  c.deleteMappings fun k _ => k = (f, t, service)

def assertTags (service : Nat) (bit : BitVec 64) (now : Int) (f : Nat)
    (tags : List (Tag × Option String)) (s : CountedDb × MergeStats) : CountedDb × MergeStats :=
  tags.foldl (fun s t =>
    (s.1.assertTag service bit now false (orBit bit) f t.1 t.2,
      { s.2 with mappings := s.2.mappings + 1 })) s

def assertEntry (service : Nat) (bit : BitVec 64) (now : Int) (s : CountedDb × MergeStats)
    (entry : Hash × List (Tag × Option String)) : CountedDb × MergeStats :=
  match s.1.fileIdByHash entry.1 with
  | none => s
  | some f =>
    assertTags service bit now f entry.2 (s.1, { s.2 with matchedFiles := s.2.matchedFiles + 1 })

def retractDomain (c : CountedDb) (service : Nat) (bit : BitVec 64) : CountedDb :=
  (c.deleteMappings fun k row => k.2.2 = service && row.domains = bit).retract bit
    fun k row => k.2.2 = service && row.domains &&& bit ≠ 0

def mergePulledMappingsInDomain (c : CountedDb) (service : Nat) (domain : String)
    (entries : TaggedEntries) (now : Int) : CountedDb × MergeStats :=
  entries.foldl (assertEntry service (domainBit domain) now)
    (c.retractDomain service (domainBit domain), default)

def removeTag (c : CountedDb) (f service : Nat) (bit : Option (BitVec 64)) (t : Nat) : CountedDb :=
  match bit with
  | none => c.deleteMappings fun k _ => k = (f, t, service)
  | some bit => c.retract bit fun k _ => k = (f, t, service)

def addTag (c : CountedDb) (f service : Nat) (bit : BitVec 64) (now : Int) (origin : Option Nat)
    (t : Nat) : CountedDb :=
  c.insertMapping (f, t, service) ⟨.current, now, bit, origin⟩ true (orBitCurrent bit)

def reapFile (c : CountedDb) (f service : Nat) (bit : Option (BitVec 64)) : CountedDb :=
  if bit.isSome then
    c.deleteMappings fun k row => k.1 = f && k.2.2 = service && row.domains = 0
  else c

def replaceTags (service : Nat) (bit : Option (BitVec 64)) (now : Int) (f : Nat) (new : List Nat)
    (origins : Table (Nat × Nat) (Option Nat)) (c : CountedDb) : CountedDb :=
  let current := c.currentTagIds f service bit
  let removed := (current.filter (· ∉ new)).foldl (fun c t => c.removeTag f service bit t) c
  let added := (new.filter (· ∉ current)).foldl (fun c t =>
    c.addTag f service (bit.getD domainBitBlake3) now ((origins.lookup (f, t)).join) t) removed
  added.reapFile f service bit

def replaceRequested (service : Nat) (bit : Option (BitVec 64)) (now : Int) (resolved : Resolved)
    (s : CountedDb × MergeStats) (hash : Hash) : CountedDb × MergeStats :=
  match s.1.requestedFile resolved hash with
  | none => s
  | some f =>
    let new := (resolved.newTags.lookup f).getD []
    (replaceTags service bit now f new resolved.newOrigins s.1,
      { s.2 with
        mappings := s.2.mappings +
          (new.filter (· ∉ s.1.currentTagIds f service bit)).length })

/-- The first pass interns tags and writes no mapping. -/
def mergeForFilesMasked (c : CountedDb) (service : Nat) (hashes : List Hash) (entries : TaggedEntries)
    (bit : Option (BitVec 64)) (now : Int) : CountedDb × MergeStats :=
  let first := entries.foldl (resolveEntry hashes) (c.toDb, ⟨∅, ∅, ∅⟩, default)
  hashes.foldl (replaceRequested service bit now first.2.1) (c.lift fun _ => first.1, first.2.2)

def clearBucket (service : Nat) (domain : String) (c : CountedDb) (bounds : String × String) :
    CountedDb :=
  (c.retract (domainBit domain) fun k row =>
      k.2.2 = service && row.domains &&& domainBit domain ≠ 0 &&
        c.inKeyRange domain bounds.1 bounds.2 k.1).deleteMappings
    fun k row =>
      k.2.2 = service && row.domains = 0 && c.inKeyRange domain bounds.1 bounds.2 k.1

def retractRow (c : CountedDb) (bit : BitVec 64) (key : Nat × Nat × Nat) : CountedDb :=
  (c.retract bit fun k _ => k = key).deleteMappings fun k row => k = key && row.domains = 0

def applyChange (service : Nat) (bit : BitVec 64) (now : Int) (c : CountedDb)
    (change : MappingDeltaInput) : CountedDb :=
  match c.fileIdByHash change.hash with
  | none => c
  | some f =>
    match change.status with
    | .current => c.assertTag service bit now true (orBitRefresh bit now) f change.tag change.origin
    | .deleted => (c.internTag change.tag).retractRow bit (f, c.internedTag change.tag, service)

def mergeMappingDelta (c : CountedDb) (service : Nat) (domain : String)
    (changes : List MappingDeltaInput) (fullBuckets : List (String × String))
    (cursor fileMarker : Nat) (now : Int) : CountedDb × MergeStats :=
  let cleared := fullBuckets.foldl (clearBucket service domain) c
  let merged := (changes.foldl (applyChange service (domainBit domain) now) cleared).lift fun db =>
    db.setPullState service domain cursor fileMarker
  (merged, ⟨(changes.filterMap fun change => c.fileIdByHash change.hash).dedup.length,
    merged.mappings.entries.countP fun e => e.1.2.2 = service⟩)

def resolveStagedRow (service : Nat) (bit : BitVec 64) (c : CountedDb) (r : StagedMapping) :
    CountedDb :=
  match r.status with
  | .current => (c.stagedFiles r.sha256).foldl (fun c f =>
      c.assertTag service bit r.createdAt true (orBitCurrent bit) f r.tag none) c
  | .deleted => c

def resolveStagedMappings (c : CountedDb) (service : Nat) (domain : String)
    (staged : List StagedMapping) : CountedDb :=
  let inserted := staged.foldl (resolveStagedRow service (domainBit domain)) c
  (inserted.retract (domainBit domain) fun k _ =>
      k.2.2 = service && staged.any fun r => r.status = .deleted &&
        (inserted.stagedFiles r.sha256).contains k.1 && inserted.tags.idOf r.tag = some k.2.1)
    |>.deleteMappings fun k row => k.2.2 = service && row.domains = 0

/-- The deletion of the mappings fires triggers, those of the other tables none of the counts'. -/
def dropService (c : CountedDb) (service : Nat) : CountedDb :=
  (c.deleteMappings fun k _ => k.2.2 = service).lift fun db => db.dropService service

def pullTag (service : Nat) (now : Int) (f : Nat) (s : CountedDb × MergeStats) (tag : Tag) :
    CountedDb × MergeStats :=
  let key := (f, s.1.internedTag tag, service)
  ((s.1.internTag tag).addMapping f (s.1.internedTag tag) service now,
    { s.2 with mappings := s.2.mappings + if (s.1.mappings.lookup key).isSome then 0 else 1 })

def pullEntry (service : Nat) (now : Int) (s : CountedDb × MergeStats) (entry : Hash × List Tag) :
    CountedDb × MergeStats :=
  match s.1.fileIdByHash entry.1 with
  | none => s
  | some f =>
    entry.2.foldl (pullTag service now f) (s.1, { s.2 with matchedFiles := s.2.matchedFiles + 1 })

def mergePulledMappings (c : CountedDb) (service : Nat) (entries : List (Hash × List Tag))
    (now : Int) : CountedDb × MergeStats :=
  entries.foldl (pullEntry service now) (c.deleteMappings fun k _ => k.2.2 = service, default)

def discardPulled (c : CountedDb) : CountedDb :=
  c.deleteMappings fun k _ => (c.services.lookup k.2.2).any fun row => row.url.isSome

/-- Both tables filled from nothing, as the migrations that create them do and the hook does again. -/
def materialize (db : Db) : CountedDb :=
  let completionCounts := tallyOf (db.mappings.entries.filterMap fun e => currentTag e.1 e.2)
  { db with
    completionCounts
    namespaceCounts := tallyOf (completionCounts.entries.filterMap fun e => db.eligible e.1) }

/-- The triggers that the hook's statements fire write the two count tables only, which it rebuilds
when it changed a tag; a hook that fails is rolled back. -/
def recanonicalizeTags (c : CountedDb) (u : Unicode) : CountedDb :=
  match c.toDb.recanonicalizeTags u with
  | none => c
  | some (db, changed) => if changed then materialize db else c

end CountedDb

/-! ## Writes -/

namespace Db

/-- The writers of mappings, of tags, and of anything else. -/
inductive MappingWrite
  | addMapping (f : Nat) (tag : Tag) (service : Nat) (now : Int)
  | applyHydrusMappings (service : Nat) (items : List (Nat × Tag)) (now : Int)
  | removeMapping (f t service : Nat)
  | mergePulledMappings (service : Nat) (entries : List (Hash × List Tag)) (now : Int)
  | mergePulledMappingsInDomain (service : Nat) (domain : String) (entries : TaggedEntries) (now : Int)
  | mergeForFilesMasked (service : Nat) (hashes : List Hash) (entries : TaggedEntries)
      (bit : Option (BitVec 64)) (now : Int)
  | mergeMappingDelta (service : Nat) (domain : String) (changes : List MappingDeltaInput)
      (fullBuckets : List (String × String)) (cursor fileMarker : Nat) (now : Int)
  | resolveStagedMappings (service : Nat) (domain : String) (staged : List StagedMapping)
  | dropService (service : Nat)
  | discardPulled
  | recanonicalizeTags (u : Unicode)
  | internTag (tag : Tag)
  | elsewhere (f : Db → Db) (mappings : ∀ db, (f db).mappings = db.mappings)
      (tags : ∀ db, (f db).tags = db.tags)

def writeMappings (db : Db) : MappingWrite → Db
  | .addMapping f tag service now =>
    (db.internTag tag).addMapping f (db.internedTag tag) service now
  | .applyHydrusMappings service items now => db.applyHydrusMappings service items now
  | .removeMapping f t service => db.removeMapping f t service
  | .mergePulledMappings service entries now => (db.mergePulledMappings service entries now).1
  | .mergePulledMappingsInDomain service domain entries now =>
    (db.mergePulledMappingsInDomain service domain entries now).1
  | .mergeForFilesMasked service hashes entries bit now =>
    (db.mergeForFilesMasked service hashes entries bit now).1
  | .mergeMappingDelta service domain changes fullBuckets cursor fileMarker now =>
    (db.mergeMappingDelta service domain changes fullBuckets cursor fileMarker now).1
  | .resolveStagedMappings service domain staged => db.resolveStagedMappings service domain staged
  | .dropService service => db.dropService service
  | .discardPulled => db.discardPulled
  | .recanonicalizeTags u => ((db.recanonicalizeTags u).map Prod.fst).getD db
  | .internTag tag => db.internTag tag
  | .elsewhere f _ _ => f db

end Db

namespace CountedDb

open Db

def writeMappings (c : CountedDb) : MappingWrite → CountedDb
  | .addMapping f tag service now =>
    (c.internTag tag).addMapping f (c.internedTag tag) service now
  | .applyHydrusMappings service items now => c.applyHydrusMappings service items now
  | .removeMapping f t service => c.removeMapping f t service
  | .mergePulledMappings service entries now => (c.mergePulledMappings service entries now).1
  | .mergePulledMappingsInDomain service domain entries now =>
    (c.mergePulledMappingsInDomain service domain entries now).1
  | .mergeForFilesMasked service hashes entries bit now =>
    (c.mergeForFilesMasked service hashes entries bit now).1
  | .mergeMappingDelta service domain changes fullBuckets cursor fileMarker now =>
    (c.mergeMappingDelta service domain changes fullBuckets cursor fileMarker now).1
  | .resolveStagedMappings service domain staged => c.resolveStagedMappings service domain staged
  | .dropService service => c.dropService service
  | .discardPulled => c.discardPulled
  | .recanonicalizeTags u => c.recanonicalizeTags u
  | .internTag tag => c.internTag tag
  | .elsewhere f _ _ => c.lift f

/-- The tags of a namespace that have a count. -/
def countedTags (c : CountedDb) (ns : String) : List Nat :=
  c.completionCounts.keys.filter fun t => c.namespaceOf t = some ns

/-! ## Exact counts -/

/-- A database and its counts. -/
structure Counts (c : CountedDb) (db : Db) : Prop where
  toDb_eq : c.toDb = db
  tags : db.MappingTags
  completions : Materializes c.completionCounts (groupCount db.mappings currentTag)
  namespaces : Materializes c.namespaceCounts (groupCount c.completionCounts fun t _ => db.eligible t)

section

variable {c : CountedDb} {db : Db}

/-! ### Triggers -/

@[simp] theorem toDb_namespaceAfterInsert (c : CountedDb) (t : Nat) :
    (c.namespaceAfterInsert t).toDb = c.toDb := by
  unfold namespaceAfterInsert
  cases c.namespaceOf t with
  | none => rfl
  | some ns => by_cases h : ns = "" <;> simp [h]

@[simp] theorem toDb_namespaceAfterDelete (c : CountedDb) (t : Nat) :
    (c.namespaceAfterDelete t).toDb = c.toDb := by
  unfold namespaceAfterDelete
  cases c.namespaceOf t with
  | none => rfl
  | some ns => rfl

@[simp] theorem completions_namespaceAfterInsert (c : CountedDb) (t : Nat) :
    (c.namespaceAfterInsert t).completionCounts = c.completionCounts := by
  unfold namespaceAfterInsert
  cases c.namespaceOf t with
  | none => rfl
  | some ns => by_cases h : ns = "" <;> simp [h]

@[simp] theorem completions_namespaceAfterDelete (c : CountedDb) (t : Nat) :
    (c.namespaceAfterDelete t).completionCounts = c.completionCounts := by
  unfold namespaceAfterDelete
  cases c.namespaceOf t with
  | none => rfl
  | some ns => rfl

/-- One more tag in its namespace. -/
theorem namespaces_afterInsert {f : String → Nat} (h : Materializes c.namespaceCounts f) (t : Nat) :
    Materializes (c.namespaceAfterInsert t).namespaceCounts fun ns =>
      f ns + if c.eligible t = some ns then 1 else 0 := by
  unfold namespaceAfterInsert eligible
  cases c.namespaceOf t with
  | none => simpa using h
  | some ns =>
    by_cases hns : ns = ""
    · simpa [hns, Option.filter] using h
    · simp only [if_neg hns]
      refine (h.increment ns).congr ?_
      intro ns'
      simp [Option.filter, hns, eq_comm]

/-- One tag fewer; no unnamespaced tag was counted. -/
theorem namespaces_afterDelete {f : String → Nat} (h : Materializes c.namespaceCounts f)
    (hempty : f "" = 0) (t : Nat) :
    Materializes (c.namespaceAfterDelete t).namespaceCounts fun ns =>
      f ns - if c.eligible t = some ns then 1 else 0 := by
  unfold namespaceAfterDelete eligible
  cases c.namespaceOf t with
  | none => simpa using h
  | some ns =>
    refine (h.decrement ns).congr ?_
    intro ns'
    by_cases hns : ns = ""
    · by_cases hns' : ns' = ""
      · simp [hns, hns', hempty]
      · simp [hns, hns', Option.filter]
    · simp [Option.filter, hns, eq_comm]

@[simp] theorem toDb_completionUp (c : CountedDb) (t : Nat) : (c.completionUp t).toDb = c.toDb := by
  unfold completionUp
  by_cases h : (c.completionCounts.lookup t).isSome = true <;> simp [h]

@[simp] theorem toDb_completionDown (c : CountedDb) (t : Nat) :
    (c.completionDown t).toDb = c.toDb := by
  unfold completionDown
  by_cases h : c.completionCounts.lookup t = some 1 <;> simp [h]

theorem completions_completionUp (c : CountedDb) (t : Nat) :
    (c.completionUp t).completionCounts = increment c.completionCounts t := by
  unfold completionUp
  by_cases h : (c.completionCounts.lookup t).isSome = true <;> simp [h]

theorem completions_completionDown (c : CountedDb) (t : Nat) :
    (c.completionDown t).completionCounts = decrement c.completionCounts t := by
  unfold completionDown
  by_cases h : c.completionCounts.lookup t = some 1 <;> simp [h]

/-- The counts of the namespaces follow those of the tags. -/
def Tallied (c : CountedDb) : Prop :=
  Materializes c.namespaceCounts (groupCount c.completionCounts fun t _ => c.eligible t)

theorem Tallied.completionUp (h : c.Tallied) (t : Nat) : (c.completionUp t).Tallied := by
  unfold Tallied
  rw [completions_completionUp, toDb_completionUp]
  unfold CountedDb.completionUp
  by_cases hin : (c.completionCounts.lookup t).isSome = true
  · simp only [hin, if_true]
    refine Materializes.congr h ?_
    intro ns
    rw [groupCount_increment, if_pos hin, Nat.add_zero]
  · simp only [hin]
    refine (namespaces_afterInsert
      (c := { c with completionCounts := increment c.completionCounts t }) h t).congr ?_
    intro ns
    rw [groupCount_increment, if_neg hin]

theorem not_eligible_empty (db : Db) (t : Nat) : db.eligible t ≠ some "" := by
  intro h
  have hne := (Option.filter_eq_some_iff.1 h).2
  simp at hne

theorem Tallied.completionDown (h : c.Tallied) (t : Nat) : (c.completionDown t).Tallied := by
  unfold Tallied
  rw [completions_completionDown, toDb_completionDown]
  unfold CountedDb.completionDown
  by_cases hlast : c.completionCounts.lookup t = some 1
  · simp only [hlast, if_true]
    have hempty : groupCount c.completionCounts (fun t _ => c.eligible t) "" = 0 := by
      by_contra hpos
      obtain ⟨t', _, _, ht'⟩ := exists_of_groupCount hpos
      exact not_eligible_empty c.toDb t' ht'
    refine (namespaces_afterDelete
      (c := { c with completionCounts := decrement c.completionCounts t }) h hempty t).congr ?_
    intro ns
    rw [groupCount_decrement, if_pos hlast]
  · simp only [hlast, if_false]
    refine Materializes.congr h ?_
    intro ns
    rw [groupCount_decrement, if_neg hlast, Nat.sub_zero]

/-- The counts are those of a function, and the namespaces follow. -/
structure Holds (c : CountedDb) (f : Nat → Nat) : Prop where
  completions : Materializes c.completionCounts f
  tallied : c.Tallied

@[simp] theorem toDb_completionAfterInsert (c : CountedDb) (t : Nat) (new : MappingRow) :
    (c.completionAfterInsert t new).toDb = c.toDb := by
  unfold completionAfterInsert
  split <;> simp

@[simp] theorem toDb_completionAfterDelete (c : CountedDb) (t : Nat) (old : MappingRow) :
    (c.completionAfterDelete t old).toDb = c.toDb := by
  unfold completionAfterDelete
  split <;> simp

@[simp] theorem toDb_completionAfterUpdate (c : CountedDb) (oldTag : Nat) (old : MappingRow)
    (newTag : Nat) (new : MappingRow) :
    (c.completionAfterUpdate oldTag old newTag new).toDb = c.toDb := by
  unfold completionAfterUpdate
  split <;> simp

/-- The counts before a row was inserted, and the row. -/
theorem Holds.afterInsert {f : Nat → Nat} (h : c.Holds f) (k : Nat × Nat × Nat) (new : MappingRow) :
    (c.completionAfterInsert k.2.1 new).Holds fun t =>
      f t + if currentTag k new = some t then 1 else 0 := by
  unfold completionAfterInsert currentTag
  by_cases hcurrent : new.status = .current
  · simp only [if_pos hcurrent]
    refine ⟨?_, h.tallied.completionUp _⟩
    rw [completions_completionUp]
    refine (h.completions.increment k.2.1).congr ?_
    intro t
    simp [eq_comm]
  · simpa [hcurrent] using h

/-- The counts before a row was deleted, without the row. -/
theorem Holds.afterDelete {f : Nat → Nat} (h : c.Holds f) (k : Nat × Nat × Nat) (old : MappingRow) :
    (c.completionAfterDelete k.2.1 old).Holds fun t =>
      f t - if currentTag k old = some t then 1 else 0 := by
  unfold completionAfterDelete currentTag
  by_cases hcurrent : old.status = .current
  · simp only [if_pos hcurrent]
    refine ⟨?_, h.tallied.completionDown _⟩
    rw [completions_completionDown]
    refine (h.completions.decrement k.2.1).congr ?_
    intro t
    simp [eq_comm]
  · simpa [hcurrent] using h

/-- An update takes the old row away and adds the new one. -/
theorem Holds.afterUpdate {f : Nat → Nat} (h : c.Holds f) (k : Nat × Nat × Nat) (old new : MappingRow) :
    (c.completionAfterUpdate k.2.1 old k.2.1 new).Holds fun t =>
      f t - (if currentTag k old = some t then 1 else 0) +
        if currentTag k new = some t then 1 else 0 := by
  unfold completionAfterUpdate
  by_cases hcurrent : old.status = .current ∨ new.status = .current
  · rw [if_pos hcurrent]
    exact (h.afterDelete k old).afterInsert k new
  · rw [if_neg hcurrent]
    obtain ⟨hold, hnew⟩ := not_or.1 hcurrent
    simpa [currentTag, hold, hnew] using h

/-- Rows that are gone and whose trigger has yet to fire are still counted. -/
structure Owing (c : CountedDb) (db : Db) (rows : List (Sigma fun _ : Nat × Nat × Nat => MappingRow)) :
    Prop where
  toDb_eq : c.toDb = db
  tags : db.MappingTags
  holds : c.Holds fun t =>
    groupCount db.mappings currentTag t + rows.countP fun e => currentTag e.1 e.2 = some t

theorem Owing.afterDelete {e : Sigma fun _ : Nat × Nat × Nat => MappingRow}
    {rows : List (Sigma fun _ : Nat × Nat × Nat => MappingRow)} (h : Owing c db (e :: rows)) :
    Owing (c.completionAfterDelete e.1.2.1 e.2) db rows := by
  have hfired := h.holds.afterDelete e.1 e.2
  refine ⟨by rw [toDb_completionAfterDelete, h.toDb_eq], h.tags, hfired.completions.congr ?_,
    hfired.tallied⟩
  intro t
  by_cases ht : currentTag e.1 e.2 = some t
  · simp [ht]
  · simp [ht]

theorem Counts.of_holds {f : Nat → Nat} (hdb : c.toDb = db) (htags : db.MappingTags) (h : c.Holds f)
    (hf : ∀ t, f t = groupCount db.mappings currentTag t) : c.Counts db := by
  refine ⟨hdb, htags, h.completions.congr hf, ?_⟩
  rw [← hdb]
  exact h.tallied

theorem Owing.foldl (rows : List (Sigma fun _ : Nat × Nat × Nat => MappingRow)) {c : CountedDb}
    (h : Owing c db rows) :
    Counts (rows.foldl (fun c e => c.completionAfterDelete e.1.2.1 e.2) c) db := by
  induction rows generalizing c with
  | nil => exact .of_holds h.toDb_eq h.tags h.holds fun _ => rfl
  | cons e rows ih => exact ih h.afterDelete

theorem Counts.holds (h : c.Counts db) : c.Holds (groupCount db.mappings currentTag) := by
  refine ⟨h.completions, ?_⟩
  unfold Tallied
  rw [h.toDb_eq]
  exact h.namespaces

/-! ### Statements -/

/-- A statement that keeps every tag and every mapping's tag and status. -/
theorem Counts.lift (h : c.Counts db) {f : Db → Db} (htags : (f db).MappingTags)
    (hrows : ∀ t, groupCount (f db).mappings currentTag t = groupCount db.mappings currentTag t)
    (heligible : ∀ t ∈ db.tags.ids, (f db).eligible t = db.eligible t) :
    (c.lift f).Counts (f db) := by
  refine ⟨by rw [CountedDb.lift, h.toDb_eq], htags, ?_, ?_⟩
  · exact h.completions.congr fun t => (hrows t).symm
  · refine h.namespaces.congr ?_
    intro ns
    refine groupCount_congr_group ?_ ns
    intro t n hl
    have hpos : groupCount db.mappings currentTag t ≠ 0 := by
      intro hzero
      have hnone := h.completions t
      rw [if_pos hzero] at hnone
      have hsome : c.completionCounts.lookup t = some n := hl
      rw [hnone] at hsome
      cases hsome
    obtain ⟨⟨f', t', s⟩, row, hrow, ht⟩ := exists_of_groupCount hpos
    unfold currentTag at ht
    split at ht
    · cases ht
      exact (heligible _ (h.tags.mapping_tag f' _ s row hrow)).symm
    · cases ht

theorem Counts.of_frame (h : c.Counts db) {f : Db → Db} (hmappings : (f db).mappings = db.mappings)
    (htags : (f db).tags = db.tags) : (c.lift f).Counts (f db) := by
  refine h.lift ?_ ?_ ?_
  · refine h.tags.of_lookup htags ?_
    intro g t s row hl
    rw [hmappings] at hl
    exact h.tags.mapping_tag g t s row hl
  · intro t
    rw [hmappings]
  · intro t _
    rw [eligible, eligible, namespaceOf, namespaceOf, htags]

/-- New tags, and the old ones as they were. -/
structure Interned (db db' : Db) : Prop where
  mappings : db'.mappings = db.mappings
  tags : db'.MappingTags
  rows : ∀ r ∈ db.tags.rows, r ∈ db'.tags.rows

theorem Interned.refl (h : db.MappingTags) : Interned db db := ⟨rfl, h, fun _ hr => hr⟩

theorem Interned.trans {db' db'' : Db} (h : Interned db db') (h' : Interned db' db'') :
    Interned db db'' :=
  ⟨h'.mappings.trans h.mappings, h'.tags, fun r hr => h'.rows r (h.rows r hr)⟩

theorem Interned.tag (h : db.MappingTags) (tag : Tag) : Interned db (db.internTag tag) :=
  ⟨rfl, h.internTag tag, fun _ hr => IdTable.intern_rows hr⟩

theorem Interned.origin (h : db.MappingTags) (origin : Option String) :
    Interned db (db.internOrigin origin).1 := by
  obtain ⟨hmappings, htags, _⟩ := internOrigin_frame db origin
  refine ⟨hmappings, h.of_lookup htags ?_, ?_⟩
  · intro f t s row hl
    rw [hmappings] at hl
    exact h.mapping_tag f t s row hl
  · intro r hr
    rw [htags]
    exact hr

theorem Counts.interned (h : c.Counts db) {f : Db → Db} (hf : Interned db (f db)) :
    (c.lift f).Counts (f db) := by
  refine h.lift hf.tags ?_ ?_
  · intro t
    rw [hf.mappings]
  · intro t ht
    obtain ⟨tag, htag⟩ := IdTable.exists_valueOf ht
    have hnew := IdTable.valueOf_eq_some.2 (hf.rows _ (IdTable.valueOf_eq_some.1 htag))
    rw [eligible, eligible, namespaceOf, namespaceOf, htag, hnew]

theorem Counts.retract (h : c.Counts db) (bit : BitVec 64)
    (p : Nat × Nat × Nat → MappingRow → Bool) :
    (c.retract bit p).Counts (db.retract bit p) := by
  refine h.lift (h.tags.retract bit p) ?_ ?_
  · intro t
    refine groupCount_modify ?_ t
    intro k row
    by_cases hp : p k row = true <;> simp [currentTag, hp]
  · exact fun _ _ => rfl

theorem Counts.deleteMappings (h : c.Counts db) (p : Nat × Nat × Nat → MappingRow → Bool) :
    (c.deleteMappings p).Counts (db.deleteMappings p) := by
  have htallied := h.holds.tallied
  refine Owing.foldl _ ⟨?_, h.tags.deleteMappings p, ?_, htallied⟩
  · rw [CountedDb.lift, h.toDb_eq]
  · refine h.completions.congr ?_
    intro t
    have hsplit : groupCount db.mappings currentTag t = _ :=
      groupCount_select db.mappings (fun k row => !p k row) t
    simp only [Bool.not_not] at hsplit
    rw [h.toDb_eq]
    exact hsplit

/-- An upsert; one that does not set the status leaves it. -/
theorem Counts.insertMapping (h : c.Counts db) {key : Nat × Nat × Nat} (ht : key.2.1 ∈ db.tags.ids)
    (row : MappingRow) {setsStatus : Bool} {update : MappingRow → MappingRow}
    (hupdate : setsStatus = false → ∀ old, (update old).status = old.status) :
    (c.insertMapping key row setsStatus update).Counts (db.insertMapping key row update) := by
  have htags : (db.insertMapping key row update).MappingTags := h.tags.insertMapping ht row update
  have hholds : (c.lift fun db => db.insertMapping key row update).Holds
      (groupCount db.mappings currentTag) := ⟨h.completions, h.holds.tallied⟩
  unfold CountedDb.insertMapping
  dsimp only
  rw [h.toDb_eq]
  generalize hc : (c.lift fun db => db.insertMapping key row update) = c' at hholds ⊢
  have hdb : c'.toDb = db.insertMapping key row update := by
    rw [← hc, CountedDb.lift, h.toDb_eq]
  have hmappings : (db.insertMapping key row update).mappings =
      (db.mappings.upsert key row fun old => some (update old)).1 := rfl
  unfold Table.upsert at hmappings
  cases hl : db.mappings.lookup key with
  | none =>
    simp only [hl] at hmappings ⊢
    refine .of_holds ?_ htags (hholds.afterInsert key row) ?_
    · rw [toDb_completionAfterInsert, hdb]
    · intro t
      rw [hmappings, groupCount_insert, groupCount_erase_of_none hl]
  | some old =>
    simp only [hl] at hmappings ⊢
    have hbefore : ∀ t, groupCount db.mappings currentTag t = _ := groupCount_of_lookup hl
    cases setsStatus with
    | true =>
      simp only [if_true]
      refine .of_holds ?_ htags (hholds.afterUpdate key old (update old)) ?_
      · rw [toDb_completionAfterUpdate, hdb]
      · intro t
        rw [hmappings, groupCount_insert, hbefore t, Nat.add_sub_cancel]
    | false =>
      refine .of_holds hdb htags hholds ?_
      intro t
      have hsame : currentTag key (update old) = currentTag key old := by
        rw [currentTag, currentTag, hupdate rfl old]
      rw [hmappings, groupCount_insert, hsame, hbefore t]

theorem Counts.internTag (h : c.Counts db) (tag : Tag) :
    (c.internTag tag).Counts (db.internTag tag) :=
  h.interned (f := fun db => db.internTag tag) (.tag h.tags tag)

theorem internedTag_mem (db : Db) (tag : Tag) : db.internedTag tag ∈ (db.internTag tag).tags.ids :=
  IdTable.mem_ids_of_idOf (idOf_internTag tag)

theorem Counts.assertTag (h : c.Counts db) (service : Nat) (bit : BitVec 64) (now : Int)
    {setsStatus : Bool} {update : MappingRow → MappingRow}
    (hupdate : setsStatus = false → ∀ old, (update old).status = old.status) (f : Nat) (tag : Tag)
    (origin : Option String) :
    (c.assertTag service bit now setsStatus update f tag origin).Counts
      (db.assertTag service bit now update f tag origin) := by
  have hdb := h.toDb_eq
  subst hdb
  have hintern := h.internTag tag
  have horigin := hintern.interned (f := fun db => (db.internOrigin origin).1)
    (.origin hintern.tags origin)
  refine horigin.insertMapping ?_ _ hupdate
  rw [(internOrigin_frame _ origin).2.1]
  exact internedTag_mem c.toDb tag

/-! ### Writers -/

theorem Counts.addMapping (h : c.Counts db) (f : Nat) {t : Nat} (ht : t ∈ db.tags.ids)
    (service : Nat) (now : Int) : (c.addMapping f t service now).Counts (db.addMapping f t service now) :=
  h.insertMapping ht _ fun _ _ => rfl

theorem Counts.addTag (h : c.Counts db) (f : Nat) (tag : Tag) (service : Nat) (now : Int) :
    ((c.internTag tag).addMapping f (c.internedTag tag) service now).Counts
      ((db.internTag tag).addMapping f (db.internedTag tag) service now) := by
  have hdb := h.toDb_eq
  subst hdb
  exact (h.internTag tag).addMapping f (internedTag_mem c.toDb tag) service now

theorem Counts.applyHydrusMappings (h : c.Counts db) (service : Nat) (items : List (Nat × Tag))
    (now : Int) :
    (c.applyHydrusMappings service items now).Counts (db.applyHydrusMappings service items now) :=
  List.foldl_rel h fun item _ _ _ h => h.addTag item.1 item.2 service now

/-- Both sides of a merge: the databases, and the same statistics. -/
def Merging (s : CountedDb × MergeStats) (s' : Db × MergeStats) : Prop := s.1.Counts s'.1 ∧ s.2 = s'.2

theorem Merging.pullEntry {s : CountedDb × MergeStats} {s' : Db × MergeStats} (h : Merging s s')
    (service : Nat) (now : Int) (entry : Hash × List Tag) :
    Merging (CountedDb.pullEntry service now s entry) (Db.pullEntry service now s' entry) := by
  have hfile : s.1.fileIdByHash entry.1 = s'.1.fileIdByHash entry.1 := by rw [h.1.toDb_eq]
  unfold CountedDb.pullEntry Db.pullEntry
  rw [hfile]
  cases s'.1.fileIdByHash entry.1 with
  | none => exact h
  | some f =>
    refine List.foldl_rel ⟨h.1, by rw [h.2]⟩ ?_
    intro tag _ s s' h
    refine ⟨h.1.addTag f tag service now, ?_⟩
    rw [CountedDb.pullTag, Db.pullTag, h.2, h.1.toDb_eq]

theorem Counts.mergePulledMappings (h : c.Counts db) (service : Nat)
    (entries : List (Hash × List Tag)) (now : Int) :
    Merging (c.mergePulledMappings service entries now) (db.mergePulledMappings service entries now) :=
  List.foldl_rel ⟨h.deleteMappings _, rfl⟩ fun entry _ _ _ h => h.pullEntry service now entry

theorem Merging.assertEntry {s : CountedDb × MergeStats} {s' : Db × MergeStats} (h : Merging s s')
    (service : Nat) (bit : BitVec 64) (now : Int) (entry : Hash × List (Tag × Option String)) :
    Merging (CountedDb.assertEntry service bit now s entry) (Db.assertEntry service bit now s' entry) := by
  have hfile : s.1.fileIdByHash entry.1 = s'.1.fileIdByHash entry.1 := by rw [h.1.toDb_eq]
  unfold CountedDb.assertEntry Db.assertEntry
  rw [hfile]
  cases s'.1.fileIdByHash entry.1 with
  | none => exact h
  | some f =>
    refine List.foldl_rel ⟨h.1, by rw [h.2]⟩ ?_
    intro t _ s s' h
    have hstatus : ∀ old, (orBit bit old).status = old.status := fun _ => rfl
    exact ⟨h.1.assertTag service bit now (fun _ => hstatus) f t.1 t.2, by rw [h.2]⟩

theorem Counts.mergePulledMappingsInDomain (h : c.Counts db) (service : Nat) (domain : String)
    (entries : TaggedEntries) (now : Int) :
    Merging (c.mergePulledMappingsInDomain service domain entries now)
      (db.mergePulledMappingsInDomain service domain entries now) := by
  have hretract : (c.retractDomain service (domainBit domain)).Counts
      (db.retractDomain service (domainBit domain)) := (h.deleteMappings _).retract _ _
  exact List.foldl_rel ⟨hretract, rfl⟩ fun entry _ _ _ h => h.assertEntry service _ now entry

/-- The ids the first pass collects are those of tags. -/
structure Resolves (db : Db) (s : Db × Resolved × MergeStats) : Prop where
  interned : Interned db s.1
  ids : ∀ f new, s.2.1.newTags.lookup f = some new → ∀ t ∈ new, t ∈ s.1.tags.ids

/-- The ids collected for one entry are those of tags. -/
structure ResolvesEntry (db : Db) (s : Db × List Nat × Table (Nat × Nat) (Option Nat)) : Prop where
  interned : Interned db s.1
  ids : ∀ t ∈ s.2.1, t ∈ s.1.tags.ids

theorem ResolvesEntry.tags (h : db.MappingTags) (f : Nat) (tags : List (Tag × Option String))
    (origins : Table (Nat × Nat) (Option Nat)) :
    ResolvesEntry db (resolveTags f tags (db, [], origins)) := by
  refine run_invariant tags ⟨.refl h, by simp⟩ ?_
  intro s t hs
  have htag := Interned.tag hs.interned.tags t.1
  have horigin := Interned.origin htag.tags t.2
  refine ⟨(hs.interned.trans htag).trans horigin, ?_⟩
  intro id hid
  rw [(internOrigin_frame _ t.2).2.1]
  rcases List.mem_insert_iff.1 hid with rfl | hid
  · exact internedTag_mem s.1 t.1
  · exact IdTable.mem_ids_intern (hs.ids id hid)

theorem Interned.ids {db' : Db} (h : Interned db db') {t : Nat} (ht : t ∈ db.tags.ids) :
    t ∈ db'.tags.ids := by
  obtain ⟨r, hr, rfl⟩ := List.mem_map.1 ht
  exact List.mem_map.2 ⟨r, h.rows r hr, rfl⟩

theorem Resolves.entry {s : Db × Resolved × MergeStats} (h : Resolves db s) (hashes : List Hash)
    (entry : Hash × List (Tag × Option String)) : Resolves db (resolveEntry hashes s entry) := by
  unfold resolveEntry
  split
  · cases s.1.fileIdByHash entry.1 with
    | none => exact h
    | some f =>
      obtain ⟨hinterned, hids⟩ :=
        ResolvesEntry.tags h.interned.tags f entry.2 s.2.1.newOrigins
      refine ⟨h.interned.trans hinterned, ?_⟩
      intro f' new hl
      by_cases hf : f' = f
      · have hnew := (congrArg (fun g => AList.lookup g _) hf).symm.trans hl
        rw [AList.lookup_insert] at hnew
        cases hnew
        exact hids
      · have hold := (AList.lookup_insert_ne hf).symm.trans hl
        exact fun t ht => hinterned.ids (h.ids f' new hold t ht)
  · exact h

theorem Counts.removeTag (h : c.Counts db) (f service : Nat) (bit : Option (BitVec 64)) (t : Nat) :
    (c.removeTag f service bit t).Counts (db.removeTag f service bit t) := by
  cases bit with
  | none => exact h.deleteMappings _
  | some bit => exact h.retract bit _

theorem tags_removeTag (db : Db) (f service : Nat) (bit : Option (BitVec 64)) (t : Nat) :
    (db.removeTag f service bit t).tags = db.tags := by
  cases bit with
  | none => rfl
  | some bit => rfl

/-- Between the statements of one file the tags stay. -/
theorem Counts.replaceTags (h : c.Counts db) (service : Nat) (bit : Option (BitVec 64)) (now : Int)
    (f : Nat) {new : List Nat} (hnew : ∀ t ∈ new, t ∈ db.tags.ids)
    (origins : Table (Nat × Nat) (Option Nat)) :
    (CountedDb.replaceTags service bit now f new origins c).Counts
        (Db.replaceTags service bit now f new origins db) ∧
      (Db.replaceTags service bit now f new origins db).tags = db.tags := by
  unfold CountedDb.replaceTags Db.replaceTags
  dsimp only
  rw [h.toDb_eq]
  generalize db.currentTagIds f service bit = current
  have hremoved : ((current.filter (· ∉ new)).foldl (fun c t => c.removeTag f service bit t) c).Counts
        ((current.filter (· ∉ new)).foldl (fun db t => db.removeTag f service bit t) db) ∧
      ((current.filter (· ∉ new)).foldl (fun db t => db.removeTag f service bit t) db).tags =
        db.tags := by
    refine List.foldl_rel (r := fun (c : CountedDb) (db' : Db) => c.Counts db' ∧ db'.tags = db.tags)
      ⟨h, rfl⟩ ?_
    intro t _ c' db' h'
    exact ⟨h'.1.removeTag f service bit t, (tags_removeTag db' f service bit t).trans h'.2⟩
  have hadded := List.foldl_rel
    (r := fun (c : CountedDb) (db' : Db) => c.Counts db' ∧ db'.tags = db.tags)
    (l := new.filter (· ∉ current))
    (f := fun c t =>
      c.addTag f service (bit.getD domainBitBlake3) now ((origins.lookup (f, t)).join) t)
    (g := fun db t =>
      db.addTag f service (bit.getD domainBitBlake3) now ((origins.lookup (f, t)).join) t)
    hremoved (by
      intro t ht c' db' h'
      have hmem : t ∈ db'.tags.ids := by
        rw [h'.2]
        exact hnew t (List.mem_filter.1 ht).1
      exact ⟨h'.1.insertMapping hmem _ (by simp), h'.2⟩)
  unfold CountedDb.reapFile Db.reapFile
  split
  · exact ⟨hadded.1.deleteMappings _, hadded.2⟩
  · exact hadded

theorem Counts.mergeForFilesMasked (h : c.Counts db) (service : Nat) (hashes : List Hash)
    (entries : TaggedEntries) (bit : Option (BitVec 64)) (now : Int) :
    Merging (c.mergeForFilesMasked service hashes entries bit now)
      (db.mergeForFilesMasked service hashes entries bit now) := by
  have hfirst : Resolves db (entries.foldl (resolveEntry hashes) (db, ⟨∅, ∅, ∅⟩, default)) :=
    run_invariant entries ⟨.refl h.tags, by simp⟩ fun _ entry hs => hs.entry hashes entry
  unfold CountedDb.mergeForFilesMasked Db.mergeForFilesMasked
  dsimp only
  rw [h.toDb_eq]
  generalize entries.foldl (resolveEntry hashes) (db, ⟨∅, ∅, ∅⟩, default) = first at hfirst ⊢
  have hinterned := h.interned (f := fun _ => first.1) hfirst.interned
  refine (List.foldl_rel (r := fun (s : CountedDb × MergeStats) (s' : Db × MergeStats) =>
    Merging s s' ∧ s'.1.tags = first.1.tags) ⟨⟨hinterned, rfl⟩, rfl⟩ ?_).1
  intro hash _ s s' hs
  have hfile : s.1.requestedFile first.2.1 hash = s'.1.requestedFile first.2.1 hash := by
    rw [hs.1.1.toDb_eq]
  unfold CountedDb.replaceRequested Db.replaceRequested
  rw [hfile]
  cases s'.1.requestedFile first.2.1 hash with
  | none => exact hs
  | some f =>
    have hnew : ∀ t ∈ (first.2.1.newTags.lookup f).getD [], t ∈ s'.1.tags.ids := by
      intro t ht
      rw [hs.2]
      cases hl : first.2.1.newTags.lookup f with
      | none => simp [hl] at ht
      | some new => exact hfirst.ids f new hl t (by simpa [hl] using ht)
    obtain ⟨hcounts, htags⟩ := hs.1.1.replaceTags service bit now f hnew first.2.1.newOrigins
    exact ⟨⟨hcounts, by rw [hs.1.2, hs.1.1.toDb_eq]⟩, htags.trans hs.2⟩

theorem Counts.clearBucket (h : c.Counts db) (service : Nat) (domain : String)
    (bounds : String × String) :
    (CountedDb.clearBucket service domain c bounds).Counts (Db.clearBucket service domain db bounds) := by
  have hdb := h.toDb_eq
  subst hdb
  exact (h.retract _ _).deleteMappings _

theorem Counts.applyChange (h : c.Counts db) (service : Nat) (bit : BitVec 64) (now : Int)
    (change : MappingDeltaInput) :
    (CountedDb.applyChange service bit now c change).Counts (Db.applyChange service bit now db change) := by
  have hdb := h.toDb_eq
  subst hdb
  unfold CountedDb.applyChange Db.applyChange
  cases c.fileIdByHash change.hash with
  | none => exact h
  | some f =>
    cases change.status with
    | current => exact h.assertTag service bit now (by simp) f change.tag change.origin
    | deleted => exact ((h.internTag change.tag).retract _ _).deleteMappings _

theorem Counts.mergeMappingDelta (h : c.Counts db) (service : Nat) (domain : String)
    (changes : List MappingDeltaInput) (fullBuckets : List (String × String))
    (cursor fileMarker : Nat) (now : Int) :
    Merging (c.mergeMappingDelta service domain changes fullBuckets cursor fileMarker now)
      (db.mergeMappingDelta service domain changes fullBuckets cursor fileMarker now) := by
  have hcleared : (fullBuckets.foldl (CountedDb.clearBucket service domain) c).Counts
      (fullBuckets.foldl (Db.clearBucket service domain) db) :=
    List.foldl_rel h fun bounds _ _ _ h => h.clearBucket service domain bounds
  have hchanged : (changes.foldl (CountedDb.applyChange service (domainBit domain) now)
        (fullBuckets.foldl (CountedDb.clearBucket service domain) c)).Counts
      (changes.foldl (Db.applyChange service (domainBit domain) now)
        (fullBuckets.foldl (Db.clearBucket service domain) db)) :=
    List.foldl_rel hcleared fun change _ _ _ h => h.applyChange service _ now change
  have hmerged := hchanged.of_frame (f := fun db => db.setPullState service domain cursor fileMarker)
    rfl rfl
  refine ⟨hmerged, ?_⟩
  have hstats := congrArg (fun db : Db => db.mappings.entries.countP fun e => e.1.2.2 = service)
    hmerged.toDb_eq
  unfold CountedDb.mergeMappingDelta Db.mergeMappingDelta
  dsimp only at hstats ⊢
  rw [hstats, h.toDb_eq]

theorem Counts.resolveStagedRow (h : c.Counts db) (service : Nat) (bit : BitVec 64)
    (r : StagedMapping) :
    (CountedDb.resolveStagedRow service bit c r).Counts (Db.resolveStagedRow service bit db r) := by
  have hdb := h.toDb_eq
  subst hdb
  unfold CountedDb.resolveStagedRow Db.resolveStagedRow
  cases r.status with
  | current =>
    exact List.foldl_rel h fun f _ _ _ h => h.assertTag service bit r.createdAt (by simp) f r.tag none
  | deleted => exact h

theorem Counts.resolveStagedMappings (h : c.Counts db) (service : Nat) (domain : String)
    (staged : List StagedMapping) :
    (c.resolveStagedMappings service domain staged).Counts
      (db.resolveStagedMappings service domain staged) := by
  have hinserted : (staged.foldl (CountedDb.resolveStagedRow service (domainBit domain)) c).Counts
      (staged.foldl (Db.resolveStagedRow service (domainBit domain)) db) :=
    List.foldl_rel h fun r _ _ _ h => h.resolveStagedRow service _ r
  unfold CountedDb.resolveStagedMappings Db.resolveStagedMappings
  dsimp only
  rw [hinserted.toDb_eq]
  exact (hinserted.retract _ _).deleteMappings _

/-- Once the mappings of a service are gone, the rest of the drop deletes none. -/
theorem dropService_deleteMappings (db : Db) (service : Nat) :
    (db.deleteMappings fun k _ => k.2.2 = service).dropService service = db.dropService service := by
  unfold Db.dropService Db.deleteMappings
  congr 1
  refine AList.ext ?_
  simp [Table.select]

theorem Counts.dropService (h : c.Counts db) (service : Nat) :
    (c.dropService service).Counts (db.dropService service) := by
  have hdeleted := h.deleteMappings fun k _ => k.2.2 = service
  have hmappings : ((db.deleteMappings fun k _ => k.2.2 = service).dropService service).mappings =
      (db.deleteMappings fun k _ => k.2.2 = service).mappings := by
    refine AList.ext ?_
    simp [Db.dropService, Db.deleteMappings, Table.select]
  have hrest := hdeleted.of_frame (f := fun db => db.dropService service) hmappings rfl
  rw [dropService_deleteMappings] at hrest
  exact hrest

/-- Counts filled from nothing are exact. -/
theorem counts_materialize (h : db.MappingTags) : (materialize db).Counts db := by
  refine ⟨rfl, h, ?_, ?_⟩
  · refine (materializes_tallyOf _).congr ?_
    intro t
    rw [groupCount_eq_count]
  · refine (materializes_tallyOf _).congr ?_
    intro ns
    rw [groupCount_eq_count]
    rfl

theorem Counts.recanonicalizeTags (h : c.Counts db) (u : Unicode) :
    (c.recanonicalizeTags u).Counts (((db.recanonicalizeTags u).map Prod.fst).getD db) := by
  have hdb := h.toDb_eq
  subst hdb
  unfold CountedDb.recanonicalizeTags
  cases hrun : c.toDb.recanonicalizeTags u with
  | none => exact h
  | some s =>
    obtain ⟨db', changed⟩ := s
    have hresult := h.tags.recanonicalizeTags hrun
    cases changed with
    | true => exact counts_materialize hresult.tags
    | false =>
      have hsame : db' = c.toDb := hresult.unchanged rfl
      rw [hsame]
      exact h

/-- Every writer keeps the counts exact and does to the database what it does without them. -/
theorem Counts.writeMappings (h : c.Counts db) (w : MappingWrite) :
    (c.writeMappings w).Counts (db.writeMappings w) := by
  cases w with
  | addMapping f tag service now => exact h.addTag f tag service now
  | applyHydrusMappings service items now => exact h.applyHydrusMappings service items now
  | removeMapping f t service => exact h.deleteMappings _
  | mergePulledMappings service entries now => exact (h.mergePulledMappings service entries now).1
  | mergePulledMappingsInDomain service domain entries now =>
    exact (h.mergePulledMappingsInDomain service domain entries now).1
  | mergeForFilesMasked service hashes entries bit now =>
    exact (h.mergeForFilesMasked service hashes entries bit now).1
  | mergeMappingDelta service domain changes fullBuckets cursor fileMarker now =>
    exact (h.mergeMappingDelta service domain changes fullBuckets cursor fileMarker now).1
  | resolveStagedMappings service domain staged => exact h.resolveStagedMappings service domain staged
  | dropService service => exact h.dropService service
  | discardPulled =>
    have hdb := h.toDb_eq
    subst hdb
    exact h.deleteMappings _
  | recanonicalizeTags u => exact h.recanonicalizeTags u
  | internTag tag => exact h.internTag tag
  | elsewhere f hmappings htags => exact h.of_frame (hmappings db) (htags db)

theorem Counts.run (ws : List MappingWrite) (h : c.Counts db) :
    (Lib.run CountedDb.writeMappings c ws).Counts (Lib.run Db.writeMappings db ws) := by
  induction ws generalizing c db with
  | nil => exact h
  | cons w ws ih => exact ih (h.writeMappings w)

theorem Counts.completion_eq (h : c.Counts db) (t : Nat) : c.completionCounts.lookup t =
    if db.currentCount t = 0 then none else some (db.currentCount t) := by
  have hcount : groupCount db.mappings currentTag t = db.currentCount t := by
    refine List.countP_congr ?_
    intro e _
    by_cases hcurrent : e.2.status = .current <;> simp [currentTag, hcurrent]
  rw [← hcount]
  exact h.completions t

theorem Counts.namespace_eq (h : c.Counts db) {ns : String} (hns : ns ≠ "") :
    c.namespaceCounts.lookup ns =
      if (c.countedTags ns).length = 0 then none else some (c.countedTags ns).length := by
  have hcount : groupCount c.completionCounts (fun t _ => db.eligible t) ns =
      (c.countedTags ns).length := by
    rw [countedTags, ← List.countP_eq_length_filter, AList.keys, List.keys, List.countP_map, h.toDb_eq]
    refine List.countP_congr ?_
    intro e _
    simp only [Function.comp, decide_eq_true_eq, eligible, Option.filter_eq_some_iff]
    exact ⟨And.left, fun heq => ⟨heq, hns⟩⟩
  rw [← hcount]
  exact h.namespaces ns

theorem Counts.unnamespaced (h : c.Counts db) : c.namespaceCounts.lookup "" = none := by
  rw [h.namespaces "", if_pos]
  by_contra hpos
  obtain ⟨t, _, _, ht⟩ := exists_of_groupCount hpos
  exact not_eligible_empty db t ht

end

/-- **Whatever writers run on a database, in any order, the triggers change nothing else, every tag
has exactly the count of its current mappings, none when there is none, and every namespace exactly
the number of its tags that have a count; tags without a namespace are not tallied.** -/
theorem completion_counts_exact (db : Db) (h : db.MappingTags) (ws : List MappingWrite) :
    let c := run writeMappings (materialize db) ws
    c.toDb = run Db.writeMappings db ws ∧
      (∀ t, c.completionCounts.lookup t =
        if c.currentCount t = 0 then none else some (c.currentCount t)) ∧
      (∀ ns, ns ≠ "" → c.namespaceCounts.lookup ns =
        if (c.countedTags ns).length = 0 then none else some (c.countedTags ns).length) ∧
      c.namespaceCounts.lookup "" = none := by
  intro c
  have hcounts : c.Counts (run Db.writeMappings db ws) := (counts_materialize h).run ws
  refine ⟨hcounts.toDb_eq, ?_, fun ns hns => hcounts.namespace_eq hns, hcounts.unnamespaced⟩
  intro t
  rw [hcounts.toDb_eq]
  exact hcounts.completion_eq t

/-- A file with a namespaced and an unnamespaced tag. -/
def twoTags : List MappingWrite :=
  [.elsewhere (fun db => db.insertFile ⟨Hash.fill 1, [47, 97], 10, none, none, none⟩ 1 0)
      (fun db => (insertFile_frame db _ _ _).1) (fun db => (insertFile_frame db _ _ _).2),
    .addMapping 1 ⟨"", "cat"⟩ 1 0, .addMapping 1 ⟨"series", "metroid"⟩ 1 0]

theorem completion_counts_exact_twoTags :
    ((run writeMappings (materialize empty) twoTags).completionCounts.lookup 1 = some 1 ∧
      (run writeMappings (materialize empty) twoTags).completionCounts.lookup 3 = none) ∧
    (run writeMappings (materialize empty) twoTags).namespaceCounts.lookup "series" = some 1 := by
  obtain ⟨_, hcompletion, hnamespace, _⟩ :=
    completion_counts_exact empty masked_empty.toMappingTags twoTags
  refine ⟨⟨?_, ?_⟩, ?_⟩
  · exact (hcompletion 1).trans (by decide)
  · exact (hcompletion 3).trans (by decide)
  · exact (hnamespace "series" (by decide)).trans (by decide)

/-- A tag without a namespace has a count, and the tally of the empty namespace has no row. -/
theorem unnamespaced_not_tallied :
    ¬ ∀ (db : Db), db.MappingTags → ∀ (ws : List MappingWrite) (ns : String),
      ((run writeMappings (materialize db) ws).namespaceCounts.lookup ns).getD 0 =
        ((run writeMappings (materialize db) ws).countedTags ns).length := by
  intro h
  have hbad := h empty masked_empty.toMappingTags twoTags ""
  exact absurd hbad (by decide)

end CountedDb
end Naiad
