import Naiad.Server.RelationSync

/-!
# Naiad.Server.Accounts

Accounts and reports: roles, bans, the report queue, and who may do what. The tables of the store
keep the ban flags and the report rows; the columns they leave out stand beside them.

* `Opens`: what the mapping writes do to accounts and reports, which is to create accounts.
* `reportRows_insertReport`, `reportRows_closeReport`, `reportRows_closeReports`: the queue after
  each write.
-/

namespace Naiad
namespace Server

open Lib Netproto

inductive Role
  | contributor
  | moderator
deriving DecidableEq

/-- The columns of `reports` beside the pair and the status. -/
structure ReportCols where
  reporter : String
  note : Option String
  createdAt : Int
deriving DecidableEq

/-- A row of `reports`; rows are never deleted, so the ids count them. -/
structure ReportEntry where
  id : Nat
  hash : String
  tag : String
  reporter : String
  note : Option String
  createdAt : Int
  isOpen : Bool
deriving DecidableEq

/-- The repository with the role column of its accounts, where a missing role is the default, and
the rest of its report columns. -/
structure NodeDb extends RepoDb where
  roles : Table String Role
  reportCols : List ReportCols

inductive NodeError
  | store (e : StoreError)
  | setRole (pubkey : String)
  | setBanned (pubkey : String)
  | bannedReporter
  | closeReport (id : Int)
deriving DecidableEq

namespace NodeDb

def empty : NodeDb := { RepoDb.empty with roles := ∅, reportCols := [] }

def setStore (db : NodeDb) (s : RepoStore) : NodeDb :=
  { db with toRepoDb := { db.toRepoDb with toRepoStore := s } }

/-- `UPDATE accounts SET role = ?`. -/
def setRole (db : NodeDb) (pubkey : String) (role : Role) : Except NodeError NodeDb :=
  if pubkey ∈ db.accounts then .ok { db with roles := db.roles.insert pubkey role }
  else .error (.setRole pubkey)

/-- `UPDATE accounts SET banned = ?`. -/
def setBanned (db : NodeDb) (pubkey : String) (banned : Bool) : Except NodeError NodeDb :=
  if pubkey ∈ db.accounts then .ok (db.setStore (db.toRepoStore.setBanned pubkey banned))
  else .error (.setBanned pubkey)

/-- The role is `moderator` and the account is not banned. -/
def isModerator (db : NodeDb) (pubkey : String) : Bool :=
  match db.accounts.lookup pubkey with
  | some a => !a.banned && db.roles.lookup pubkey = some .moderator
  | none => false

def insertReport (db : NodeDb) (hash tag reporter : String) (note : Option String)
    (createdAt : Int) : Except NodeError NodeDb :=
  if db.isBanned reporter then .error .bannedReporter
  else .ok { db.setStore { db.toRepoStore with reports := db.reports ++ [⟨hash, tag, true⟩] } with
    reportCols := db.reportCols ++ [⟨reporter, note, createdAt⟩] }

def reportEntry (n : Nat) (e : ReportRow × ReportCols) : ReportEntry :=
  ⟨n + 1, e.1.hash, e.1.tag, e.2.reporter, e.2.note, e.2.createdAt, e.1.isOpen⟩

/-- The rows of `reports`, in the order of their ids. -/
def reportRows (db : NodeDb) : List ReportEntry :=
  (db.reports.zip db.reportCols).mapIdx reportEntry

/-- The open reports, oldest first. -/
def openReports (db : NodeDb) : List ReportEntry :=
  orderBy (fun r => toLex (r.createdAt, r.id)) (db.reportRows.filter ReportEntry.isOpen)

/-- `UPDATE reports SET status = 'closed' WHERE id = ?`. -/
def closeReport (db : NodeDb) (id : Int) : Except NodeError NodeDb :=
  if 1 ≤ id ∧ id ≤ db.reports.length then
    .ok (db.setStore { db.toRepoStore with
      reports := db.reports.modify (id.toNat - 1) fun r => { r with isOpen := false } })
  else .error (.closeReport id)

def moderatorDeleteMapping (db : NodeDb) (hash tag : String) : Except NodeError NodeDb :=
  match db.toRepoStore.moderatorDeleteMapping hash tag with
  | .error e => .error (.store e)
  | .ok s => .ok (db.setStore s)

@[simp] theorem setStore_toRepoStore (db : NodeDb) (s : RepoStore) :
    (db.setStore s).toRepoStore = s := rfl

@[simp] theorem setStore_relations (db : NodeDb) (s : RepoStore) :
    (db.setStore s).relations = db.relations := rfl

@[simp] theorem setStore_roles (db : NodeDb) (s : RepoStore) :
    (db.setStore s).roles = db.roles := rfl

@[simp] theorem setStore_reportCols (db : NodeDb) (s : RepoStore) :
    (db.setStore s).reportCols = db.reportCols := rfl

@[simp] theorem setStore_self (db : NodeDb) : db.setStore db.toRepoStore = db := rfl

end NodeDb

/-! ## The queue after each write -/

namespace NodeDb

/-- The columns of the reports stand in rows. -/
def Paired (db : NodeDb) : Prop := db.reports.length = db.reportCols.length

/-- A report, closed. -/
def closed (r : ReportEntry) : ReportEntry := { r with isOpen := false }

theorem getElem?_reportRows (db : NodeDb) (n : Nat) :
    db.reportRows[n]? = (db.reports[n]?).bind fun r =>
      (db.reportCols[n]?).map fun c => reportEntry n (r, c) := by
  rw [reportRows, List.getElem?_mapIdx, List.zip, List.getElem?_zipWith]
  cases db.reports[n]? with
  | none => rfl
  | some r =>
    cases db.reportCols[n]? with
    | none => rfl
    | some c => rfl

theorem length_reportRows {db : NodeDb} (hp : db.Paired) :
    db.reportRows.length = db.reports.length := by
  simp only [Paired] at hp
  simp [reportRows, hp]

/-- The ids count the rows. -/
theorem mem_reportRows {db : NodeDb} {r : ReportEntry} (h : r ∈ db.reportRows) :
    db.reportRows[r.id - 1]? = some r ∧ 1 ≤ r.id ∧ r.id ≤ db.reports.length := by
  obtain ⟨n, hn⟩ := List.mem_iff_getElem?.1 h
  have hrow := hn
  rw [getElem?_reportRows] at hrow
  obtain ⟨e, he, hrow⟩ := Option.bind_eq_some_iff.1 hrow
  obtain ⟨c, _, rfl⟩ := Option.map_eq_some_iff.1 hrow
  have hlt : n < db.reports.length := (List.getElem?_eq_some_iff.1 he).1
  refine ⟨hn, ?_, ?_⟩
  · simp [reportEntry]
  · simp only [reportEntry]
    omega

theorem reportRows_insertReport {db db' : NodeDb} (hp : db.Paired) {hash tag reporter : String}
    {note : Option String} {createdAt : Int}
    (h : db.insertReport hash tag reporter note createdAt = .ok db') :
    db'.Paired ∧ db'.reportRows = db.reportRows ++
      [⟨db.reports.length + 1, hash, tag, reporter, note, createdAt, true⟩] := by
  unfold insertReport at h
  split at h
  · cases h
  · cases h
    simp only [Paired] at hp
    constructor
    · simp [Paired, hp]
    · simp only [reportRows, setStore_toRepoStore]
      rw [List.zip_append hp, List.mapIdx_append]
      simp [reportEntry, hp]

theorem reportRows_closeReport {db db' : NodeDb} {id : Int} (h : db.closeReport id = .ok db') :
    db'.reportCols.length = db.reportCols.length ∧ db'.reports.length = db.reports.length ∧
      db'.reportRows = db.reportRows.map fun r => if (r.id : Int) = id then closed r else r := by
  unfold closeReport at h
  split at h
  · rename_i hid
    cases h
    refine ⟨rfl, by simp, ?_⟩
    apply List.ext_getElem?
    intro n
    rw [getElem?_reportRows, List.getElem?_map, getElem?_reportRows]
    simp only [setStore_toRepoStore, setStore_reportCols, List.getElem?_modify]
    cases db.reports[n]? with
    | none => simp
    | some r =>
      cases db.reportCols[n]? with
      | none => simp
      | some c =>
        have heq : id.toNat - 1 = n ↔ ((n : Int) + 1 = id) := by omega
        by_cases hn : id.toNat - 1 = n
        · simp [hn, reportEntry, closed, heq.1 hn]
        · have hne : ¬ (n : Int) + 1 = id := fun hc => hn (heq.2 hc)
          simp [hn, reportEntry, hne]
  · cases h

theorem reportRows_closeReports {db db' : NodeDb} {hash tag : String}
    (hcols : db'.reportCols = db.reportCols)
    (hreports : db'.reports = (db.toRepoStore.closeReports hash tag).reports) :
    db'.reportRows = db.reportRows.map fun r =>
      if r.hash = hash ∧ r.tag = tag then closed r else r := by
  apply List.ext_getElem?
  intro n
  rw [getElem?_reportRows, List.getElem?_map, getElem?_reportRows, hcols, hreports]
  simp only [RepoStore.closeReports, List.getElem?_map]
  cases db.reports[n]? with
  | none => simp
  | some r =>
    cases db.reportCols[n]? with
    | none => simp
    | some c =>
      by_cases hr : r.hash = hash ∧ r.tag = tag
      · simp [hr, reportEntry, closed]
      · simp [hr, reportEntry]

theorem reportRows_of_eq (db db' : NodeDb) (hcols : db'.reportCols = db.reportCols)
    (hreports : db'.reports = db.reports) : db'.reportRows = db.reportRows := by
  rw [reportRows, reportRows, hcols, hreports]

/-- A moderator's deletion closes the reports of its pair and changes no account. -/
theorem moderatorDeleteMapping_ok {db db' : NodeDb} {hash tag : String}
    (h : db.moderatorDeleteMapping hash tag = .ok db') :
    ∃ s, db.toRepoStore.moderatorDeleteMapping hash tag = .ok s ∧ db' = db.setStore s ∧
      s.accounts = db.accounts ∧
      db'.reportRows = db.reportRows.map fun r =>
        if r.hash = hash ∧ r.tag = tag then closed r else r := by
  unfold moderatorDeleteMapping at h
  split at h
  · cases h
  · rename_i s hs
    cases h
    obtain ⟨hh, hid, tid, old, _, _, _, _, rfl⟩ := moderatorDeleteMapping_eq_ok hs
    exact ⟨_, hs, rfl, rfl, reportRows_closeReports rfl rfl⟩

end NodeDb

/-! ## What the mapping writes leave alone -/

/-- The reports stay, and accounts are at most created, as contributors in good standing. -/
structure Opens (s s' : RepoStore) : Prop where
  reports : s'.reports = s.reports
  accounts : ∀ k, s'.accounts.lookup k = s.accounts.lookup k ∨
    s.accounts.lookup k = none ∧ ∃ ts, s'.accounts.lookup k = some ⟨false, ts⟩

namespace Opens

theorem of_eq {s s' : RepoStore} (hr : s'.reports = s.reports) (ha : s'.accounts = s.accounts) :
    Opens s s' := ⟨hr, fun _ => .inl (by rw [ha])⟩

theorem refl (s : RepoStore) : Opens s s := of_eq rfl rfl

theorem trans {s s' s'' : RepoStore} (h : Opens s s') (h' : Opens s' s'') : Opens s s'' := by
  refine ⟨h'.reports.trans h.reports, ?_⟩
  intro k
  rcases h.accounts k with heq | ⟨hnone, ts, hts⟩
  · rw [← heq]
    exact h'.accounts k
  · rcases h'.accounts k with heq' | ⟨hnone', _⟩
    · exact .inr ⟨hnone, ts, heq'.trans hts⟩
    · rw [hts] at hnone'
      cases hnone'

theorem isBanned {s s' : RepoStore} (h : Opens s s') (k : String) :
    s'.isBanned k = s.isBanned k := by
  unfold RepoStore.isBanned
  rcases h.accounts k with heq | ⟨hnone, ts, hts⟩
  · rw [heq]
  · rw [hnone, hts]

theorem mem {s s' : RepoStore} (h : Opens s s') {k : String} (hk : k ∈ s.accounts) :
    k ∈ s'.accounts := by
  rw [← AList.lookup_isSome] at hk ⊢
  rcases h.accounts k with heq | ⟨hnone, _⟩
  · rwa [heq]
  · rw [hnone] at hk
    cases hk

end Opens

theorem opens_ensureAccount (s : RepoStore) (pubkey : String) (ts : Int) :
    Opens s (s.ensureAccount pubkey ts) := by
  unfold RepoStore.ensureAccount
  split
  · exact .refl s
  · rename_i hnot
    refine ⟨rfl, ?_⟩
    intro k
    by_cases hk : k = pubkey
    · subst hk
      exact .inr ⟨AList.lookup_eq_none.2 hnot, ts, AList.lookup_insert _⟩
    · exact .inl (AList.lookup_insert_ne hk)

theorem opens_adjust (s : RepoStore) (before after : Nat) :
    Opens s (s.adjustDistinctHashCount before after) := by
  unfold RepoStore.adjustDistinctHashCount
  split
  · exact .of_eq rfl rfl
  · split <;> exact .of_eq rfl rfl

theorem opens_applySubmissionTx (s : RepoStore) (ts : Int) (sub : Submission) (hash : Hash) :
    Opens s (s.applySubmissionTx ts sub hash) := by
  simp only [RepoStore.applySubmissionTx]
  split
  · refine Opens.trans ?_ (opens_adjust _ _ _)
    exact .of_eq rfl rfl
  · exact .of_eq rfl rfl

theorem opens_applySubmission (verify : Submission → Bool) (s : RepoStore) (ts : Int)
    (sub : Submission) : Opens s (s.applySubmission verify ts sub).1 := by
  rcases applySubmission_cases verify s ts sub with ⟨_, _, h | h⟩ | ⟨hash, _, h⟩
  · rw [h]
    exact .refl s
  · rw [h]
    exact opens_ensureAccount s _ _
  · rw [h]
    exact (opens_ensureAccount s _ _).trans (opens_applySubmissionTx _ _ _ _)

theorem opens_seedItem (account : Account) (ts : Int) (st : SeedState) (item : Hash × Tag) :
    Opens st.store (seedItem account ts st item).store := by
  simp only [seedItem]
  split <;> exact .of_eq rfl rfl

theorem opens_seedMappings (s : RepoStore) (account : Account) (ts : Int)
    (items : List (Hash × Tag)) : Opens s (s.seedMappings account ts items).1 := by
  have hfold : ∀ (items : List (Hash × Tag)) (st : SeedState),
      Opens st.store (items.foldl (seedItem account ts) st).store := by
    intro items
    induction items with
    | nil => exact fun st => .refl _
    | cons item items ih => exact fun st => (opens_seedItem account ts st item).trans (ih _)
  have ha := opens_ensureAccount s account.publicHex ts
  simp only [RepoStore.seedMappings]
  split
  · exact ha
  · refine ha.trans ?_
    exact hfold items ⟨_, _, 0, 0⟩

theorem opens_resolveHash {mode : HashResolve} {s s' : RepoStore} {caches caches' : InternCaches}
    {hash : Hash} {hid : Nat} (h : resolveHash mode s caches hash = .ok (s', caches', hid)) :
    Opens s s' := by
  have happend : ∀ {out}, appendHash s caches hash = .ok out → Opens s out.1 := by
    intro out hout
    unfold appendHash at hout
    split at hout
    · cases hout
    · cases hout
      exact .of_eq rfl rfl
  unfold resolveHash at h
  split at h
  · split at h
    · cases h
      exact .refl s
    · cases h
      exact .of_eq rfl rfl
  · split at h
    · split at h
      · cases h
        exact .refl s
      · exact happend h
    · exact happend h

theorem opens_resolveTag (s : RepoStore) (caches : InternCaches) (tag : String) :
    Opens s (resolveTag s caches tag).1 := by
  unfold resolveTag
  split
  · exact .refl s
  · exact .of_eq rfl rfl

theorem opens_applyItem {mode : HashResolve} {st st' : BulkState} {item : String × String × Bool}
    (h : applyItem mode st item = .ok st') : Opens st.store st'.store := by
  unfold applyItem at h
  split at h
  · cases h
    exact .refl _
  · split at h
    · cases h
    · rename_i s₁ caches₁ hid hres
      cases h
      refine (opens_resolveHash hres).trans ((opens_resolveTag s₁ caches₁ item.2.1).trans ?_)
      exact .of_eq rfl rfl

theorem opens_applyMappingsBulk {s : RepoStore} {items : List (String × String × Bool)}
    {st : BulkState} (h : s.applyMappingsBulk items = .ok st) : Opens s st.store := by
  have hitems : ∀ (items : List (String × String × Bool)) (st st' : BulkState),
      applyItems .indexed st items = .ok st' → Opens st.store st'.store := by
    intro items
    induction items with
    | nil =>
      intro st st' h
      cases h
      exact .refl _
    | cons item items ih =>
      intro st st' h
      rw [applyItems] at h
      split at h
      · cases h
      · rename_i mid hmid
        exact (opens_applyItem hmid).trans (ih mid st' h)
  unfold RepoStore.applyMappingsBulk RepoStore.applyMappingsBulkCached
    RepoStore.applyMappingsImpl at h
  split at h
  · cases h
  · simp only at h
    split at h
    · cases h
    · rename_i hmid
      cases h
      exact hitems items _ _ hmid

theorem opens_bridgeRelations {ts : Int} {rows : List RelationSubmission} {acc acc' : RepoDb × Nat}
    (h : RepoDb.bridgeRelations ts acc rows = .ok acc') :
    acc'.1.toRepoStore = acc.1.toRepoStore := by
  induction rows generalizing acc with
  | nil =>
    cases h
    rfl
  | cons row rows ih =>
    rw [RepoDb.bridgeRelations] at h
    split at h
    · cases h
    · rename_i mid hmid
      rw [ih h]
      unfold RepoDb.bridgeRelation at hmid
      split at hmid
      · cases hmid
      · cases hmid
        rfl

theorem opens_applyBridgeRelations {db db' : RepoDb} {ts : Int} {rows : List RelationSubmission}
    {n : Nat} (h : db.applyBridgeRelations ts rows = .ok (db', n)) :
    Opens db.toRepoStore db'.toRepoStore := by
  cases rows with
  | nil =>
    cases h
    exact .refl _
  | cons row rows =>
    have hstore := opens_bridgeRelations h
    simp only at hstore
    rw [hstore]
    exact opens_ensureAccount _ _ _

theorem opens_applyRelation (db : RepoDb) (ts : Int) (sub : RelationSubmission) :
    Opens db.toRepoStore (db.applyRelation ts sub).1.toRepoStore := by
  unfold RepoDb.applyRelation
  simp only
  split
  · exact opens_ensureAccount _ _ _
  · split <;> exact opens_ensureAccount _ _ _

end Server
end Naiad
