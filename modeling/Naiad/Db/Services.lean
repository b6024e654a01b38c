import Naiad.Db.Domains

/-!
# Naiad.Db.Services

The subscriptions of a client. A shared service is attached to a URL, detached, attached again under
the same row and repointed in place, and its pull cursors stay with the row.

* `serve`: one operation on a service; a failed one changes nothing.
* `Tracked`: a database with the URL each stored cursor was recorded at.
* `cursors_of_current_url`: **the cursors of an attached service were recorded at its URL, in every
  run that never attaches a row that stores cursors to another URL than its last**.
-/

namespace Naiad
namespace Db

open Lib Netproto

inductive ServiceError
  | invalid (message : String)
  | notFound (message : String)
  | constraint
deriving DecidableEq

structure SharedService where
  id : Nat
  name : String
  url : String
deriving DecidableEq

/-! ## Statements on services -/

/-- The row id a new service takes; that of a dropped one may be taken again. -/
def nextServiceId (db : Db) : Nat := db.services.keys.foldr max 0 + 1

/-- `INSERT INTO services ..`; names are unique over both scopes. -/
def insertService (db : Db) (row : ServiceRow) : Except ServiceError (Db × Nat) :=
  if ∃ e ∈ db.services.entries, e.2.name = row.name then .error .constraint
  else .ok ({ db with services := db.services.insert db.nextServiceId row }, db.nextServiceId)

/-- `UPDATE services SET .. WHERE id = ?1` -/
def updateService (db : Db) (service : Nat) (f : ServiceRow → ServiceRow) : Db :=
  { db with services := db.services.modify fun k row => if k = service then f row else row }

/-- `UPDATE services SET .. WHERE id = ?1 AND scope = 'shared'` -/
def updateShared (db : Db) (service : Nat) (f : ServiceRow → ServiceRow) : Db :=
  db.updateService service fun row => if row.scope = .shared then f row else row

/-- `DELETE FROM service_domain_pull_state WHERE service_id = ?1` -/
def deletePullState (db : Db) (service : Nat) : Db :=
  { db with pullState := db.pullState.select fun k _ => k.1 ≠ service }

/-- The shared service of a name, attached or detached. -/
def sharedNamed (db : Db) (name : String) : Option (Sigma fun _ : Nat => ServiceRow) :=
  db.services.entries.find? fun e => e.2.scope = .shared && e.2.name = name

def subscribeSharedService (db : Db) (name url : String) (origin : Option String) :
    Except ServiceError (Db × Nat) :=
  match db.sharedNamed name with
  | some ⟨id, row⟩ =>
    if row.url.isSome then .error (.invalid ("repo name already subscribed: " ++ name))
    else .ok (db.updateService id fun row => { row with url := some url }, id)
  | none => db.insertService { name, scope := .shared, url := some url, origin }

def addLocalService (db : Db) (name : String) (origin : Option String) :
    Except ServiceError (Db × Nat) :=
  db.insertService { name, scope := .local, origin }

def detachService (db : Db) (service : Nat) : Db :=
  db.updateShared service fun row => { row with url := none }

/-- The URL of a shared service. -/
def sharedUrl (db : Db) (service : Nat) : Option String :=
  ((db.services.lookup service).filter (·.scope = .shared)).bind ServiceRow.url

def setServiceUrl (db : Db) (service : Nat) (url : String) : Db :=
  let updated := db.updateShared service fun row => { row with url := some url }
  -- a service that had no URL keeps its pull state
  if (db.sharedUrl service).any (· ≠ url) then updated.deletePullState service else updated

def setMappingPullState (db : Db) (service : Nat) (domain : String) (cursor marker : Nat) :
    Except ServiceError Db :=
  if (db.services.lookup service).isSome then .ok (db.setPullState service domain cursor marker)
  else .error .constraint

def clearMappingPullState (db : Db) (service : Nat) (domain : String) : Db :=
  { db with pullState := db.pullState.erase (service, domain) }

/-- What a relation pull leaves on its service. -/
def setRelationCursor (db : Db) (service cursor : Nat) (now : Int) : Db :=
  db.updateService service fun row =>
    { row with relationCursor := some (toI64 cursor), lastRelationPullAt := some now }

def resetServiceCursors (db : Db) (service : Nat) : Db :=
  (db.updateService service fun row => { row with relationCursor := none }).deletePullState service

def mappingCursor (db : Db) (service : Nat) (domain : String) : Option Nat :=
  (db.pullState.lookup (service, domain)).bind PullState.mappingCursor

def relationCursor (db : Db) (service : Nat) : Option Nat :=
  (db.services.lookup service).bind ServiceRow.relationCursor

def setServiceStoreGeneration (db : Db) (service : Nat) (generation : String) :
    Except ServiceError Db :=
  if (db.services.lookup service).isSome then
    .ok (db.updateService service fun row => { row with storeGeneration := some generation })
  else .error (.notFound ("no service with id " ++ toString service))

/-- Written once: the first anchor stays. -/
def freezeRepoAnchor (db : Db) (service : Nat) (anchor : String) : Db :=
  db.updateService service fun row =>
    if row.repoAnchor = none then { row with repoAnchor := some anchor } else row

/-- The subscribed shared services; detached ones are left out. -/
def listSharedServices (db : Db) : List SharedService :=
  (orderBy (fun e : Sigma fun _ : Nat => ServiceRow => e.1) db.services.entries).filterMap fun e =>
    if e.2.scope = .shared then e.2.url.map fun url => ⟨e.1, e.2.name, url⟩ else none

def sharedServiceByName (db : Db) (name : String) : Option SharedService :=
  db.listSharedServices.find? (·.name = name)

inductive ServiceOp
  | subscribe (name url : String) (origin : Option String)
  | addLocal (name : String) (origin : Option String)
  | detach (service : Nat)
  | setUrl (service : Nat) (url : String)
  | setPullState (service : Nat) (domain : String) (cursor marker : Nat)
  | clearPullState (service : Nat) (domain : String)
  | setRelationCursor (service cursor : Nat) (now : Int)
  | resetCursors (service : Nat)
  | drop (service : Nat)
deriving DecidableEq

/-- The database after a statement that may fail. -/
def committed (db : Db) : Except ServiceError Db → Db
  | .ok db' => db'
  | .error _ => db

def serve (db : Db) : ServiceOp → Db
  | .subscribe name url origin =>
    db.committed ((db.subscribeSharedService name url origin).map Prod.fst)
  | .addLocal name origin => db.committed ((db.addLocalService name origin).map Prod.fst)
  | .detach service => db.detachService service
  | .setUrl service url => db.setServiceUrl service url
  | .setPullState service domain cursor marker =>
    db.committed (db.setMappingPullState service domain cursor marker)
  | .clearPullState service domain => db.clearMappingPullState service domain
  | .setRelationCursor service cursor now => db.setRelationCursor service cursor now
  | .resetCursors service => db.resetServiceCursors service
  | .drop service => db.dropService service

/-- The URL a service is attached to. -/
def urlOf (db : Db) (service : Nat) : Option String :=
  (db.services.lookup service).bind ServiceRow.url

/-- A service stores a cursor of some pull. -/
def hasCursor (db : Db) (service : Nat) : Bool :=
  (db.relationCursor service).isSome ||
    db.pullState.entries.any fun e => e.1.1 = service && e.2.mappingCursor.isSome

/-! ## Runs -/

/-- A database, the last URL each service was attached to, and the URL its service had when a stored
cursor was recorded. -/
structure Tracked where
  db : Db
  lastUrl : Nat → Option String
  mappingUrl : Nat × String → Option String
  relationUrl : Nat → Option String

namespace Tracked

def start (db : Db) : Tracked := ⟨db, db.urlOf, fun _ => none, fun _ => none⟩

def step (t : Tracked) (op : ServiceOp) : Tracked where
  db := t.db.serve op
  lastUrl s :=
    match (t.db.serve op).services.lookup s with
    | none => none
    | some row => row.url.or (t.lastUrl s)
  mappingUrl k :=
    match op with
    | .setPullState s d _ _ => if k = (s, d) then t.db.urlOf s else t.mappingUrl k
    | _ => t.mappingUrl k
  relationUrl s :=
    match op with
    | .setRelationCursor s' _ _ => if s = s' then t.db.urlOf s else t.relationUrl s
    | _ => t.relationUrl s

/-- A service stores no cursor, or the URL is its last one. -/
def returns (t : Tracked) (service : Nat) (url : String) : Bool :=
  !t.db.hasCursor service || t.lastUrl service = some url

/-- A detached row is attached to its last URL again, or stores no cursor; an attached one is
repointed while it stores no relation cursor; cursors are recorded on attached services. -/
def clean (t : Tracked) : ServiceOp → Bool
  | .subscribe name url _ =>
    (t.db.sharedNamed name).all fun e => e.2.url.isSome || t.returns e.1 url
  | .setUrl service url =>
    ((t.db.services.lookup service).filter (·.scope = .shared)).all fun row =>
      match row.url with
      | none => t.returns service url
      | some previous => previous = url || row.relationCursor.isNone
  | .setPullState service _ _ _ | .setRelationCursor service _ _ =>
    (t.db.services.lookup service).all (·.url.isSome)
  | _ => true

def Clean (t : Tracked) (op : ServiceOp) : Prop := t.clean op = true

instance (t : Tracked) (op : ServiceOp) : Decidable (t.Clean op) :=
  inferInstanceAs (Decidable (t.clean op = true))

/-- Every stored cursor was recorded at the last URL of its service. -/
structure Owned (t : Tracked) : Prop where
  service : ∀ s d st, t.db.pullState.lookup (s, d) = some st →
    (t.db.services.lookup s).isSome = true
  mapping : ∀ s d c, t.db.mappingCursor s d = some c → t.mappingUrl (s, d) = t.lastUrl s
  relation : ∀ s c, t.db.relationCursor s = some c → t.relationUrl s = t.lastUrl s
  attached : ∀ s row url, t.db.services.lookup s = some row → row.url = some url →
    t.lastUrl s = some url

/-- What a pull of an attached service sends to its URL was recorded at that URL. -/
def CursorsAtUrl (t : Tracked) : Prop :=
  ∀ svc ∈ t.db.listSharedServices,
    (∀ domain cursor, t.db.mappingCursor svc.id domain = some cursor →
      t.mappingUrl (svc.id, domain) = some svc.url) ∧
    ∀ cursor, t.db.relationCursor svc.id = some cursor → t.relationUrl svc.id = some svc.url

end Tracked

section

variable {db : Db} {t : Tracked}

@[simp] theorem lookup_updateService (db : Db) (s : Nat) (f : ServiceRow → ServiceRow) (k : Nat) :
    (db.updateService s f).services.lookup k =
      (db.services.lookup k).map fun row => if k = s then f row else row :=
  Table.lookup_modify _ _ _

@[simp] theorem pullState_updateService (db : Db) (s : Nat) (f : ServiceRow → ServiceRow) :
    (db.updateService s f).pullState = db.pullState := rfl

@[simp] theorem services_deletePullState (db : Db) (s : Nat) :
    (db.deletePullState s).services = db.services := rfl

@[simp] theorem lookup_deletePullState (db : Db) (s : Nat) (k : Nat × String) :
    (db.deletePullState s).pullState.lookup k = if k.1 = s then none else db.pullState.lookup k := by
  refine (Table.lookup_select _ _ _).trans ?_
  by_cases h : k.1 = s
  · simp [h]
  · cases hl : db.pullState.lookup k with
    | none => simp [h]
    | some st => simp [h]

theorem serve_subscribe_new {name : String} (h : db.sharedNamed name = none) (url : String)
    (origin : Option String) : db.serve (.subscribe name url origin) = db.committed
      ((db.insertService { name, scope := .shared, url := some url, origin }).map Prod.fst) := by
  rw [serve, subscribeSharedService, h]

theorem serve_subscribe_detached {name : String} {s : Nat} {row : ServiceRow}
    (h : db.sharedNamed name = some ⟨s, row⟩) (hurl : row.url = none) (url : String)
    (origin : Option String) : db.serve (.subscribe name url origin) =
      db.updateService s fun row => { row with url := some url } := by
  rw [serve, subscribeSharedService, h]
  simp [hurl, committed, Except.map]

theorem serve_subscribe_attached {name : String} {s : Nat} {row : ServiceRow} {previous : String}
    (h : db.sharedNamed name = some ⟨s, row⟩) (hurl : row.url = some previous) (url : String)
    (origin : Option String) : db.serve (.subscribe name url origin) = db := by
  rw [serve, subscribeSharedService, h]
  simp [hurl, committed, Except.map]

theorem services_setServiceUrl (s : Nat) (url : String) : (db.setServiceUrl s url).services =
    (db.updateShared s fun row => { row with url := some url }).services := by
  unfold setServiceUrl
  split
  · rfl
  · rfl

theorem sharedUrl_eq_some {s : Nat} {url : String} (h : db.sharedUrl s = some url) :
    ∃ row, db.services.lookup s = some row ∧ row.scope = .shared ∧ row.url = some url := by
  obtain ⟨row, hrow, hurl⟩ := Option.bind_eq_some_iff.1 h
  obtain ⟨hl, hscope⟩ := Option.filter_eq_some_iff.1 hrow
  exact ⟨row, hl, of_decide_eq_true hscope, hurl⟩

theorem sharedUrl_of_lookup {s : Nat} {row : ServiceRow} {url : String}
    (hl : db.services.lookup s = some row) (hscope : row.scope = .shared) (hurl : row.url = some url) :
    db.sharedUrl s = some url := by
  simp [sharedUrl, hl, Option.filter_some, hscope, hurl]

/-- An update that keeps the scope and the URL of every row keeps the URLs of the shared services. -/
theorem sharedUrl_updateService {s : Nat} {f : ServiceRow → ServiceRow}
    (hf : ∀ row, (f row).scope = row.scope ∧ (f row).url = row.url) (k : Nat) :
    (db.updateService s f).sharedUrl k = db.sharedUrl k := by
  rw [sharedUrl, sharedUrl, lookup_updateService]
  cases db.services.lookup k with
  | none => rfl
  | some row =>
    by_cases hk : k = s
    · by_cases hscope : row.scope = .shared
      · simp [hk, Option.filter_some, hf row, hscope]
      · simp [hk, Option.filter_some, hf row, hscope]
    · simp [hk]

@[simp] theorem sharedUrl_setRelationCursor (db : Db) (s cursor : Nat) (now : Int) (k : Nat) :
    (db.setRelationCursor s cursor now).sharedUrl k = db.sharedUrl k :=
  sharedUrl_updateService (f := fun row =>
    { row with relationCursor := some (toI64 cursor), lastRelationPullAt := some now })
    (fun _ => ⟨rfl, rfl⟩) k

@[simp] theorem sharedUrl_resetServiceCursors (db : Db) (s k : Nat) :
    (db.resetServiceCursors s).sharedUrl k = db.sharedUrl k :=
  sharedUrl_updateService (f := fun row => { row with relationCursor := none })
    (fun _ => ⟨rfl, rfl⟩) k

@[simp] theorem sharedUrl_setServiceStoreGeneration (db : Db) (s : Nat) (generation : String) (k : Nat) :
    (db.committed (db.setServiceStoreGeneration s generation)).sharedUrl k = db.sharedUrl k := by
  unfold setServiceStoreGeneration
  split
  · exact sharedUrl_updateService (f := fun row => { row with storeGeneration := some generation })
      (fun _ => ⟨rfl, rfl⟩) k
  · rfl

@[simp] theorem sharedUrl_freezeRepoAnchor (db : Db) (s : Nat) (anchor : String) (k : Nat) :
    (db.freezeRepoAnchor s anchor).sharedUrl k = db.sharedUrl k := by
  refine sharedUrl_updateService ?_ k
  intro row
  split
  · exact ⟨rfl, rfl⟩
  · exact ⟨rfl, rfl⟩

theorem lookup_of_dropService {s k : Nat} {row : ServiceRow}
    (hl : (db.dropService s).services.lookup k = some row) : db.services.lookup k = some row := by
  unfold dropService at hl
  simp only at hl
  split at hl
  · exact hl
  · rw [Table.lookup_select, Option.filter_eq_some_iff] at hl
    exact hl.1

theorem lookup_nextServiceId (db : Db) : db.services.lookup db.nextServiceId = none := by
  rw [AList.lookup_eq_none, AList.mem_keys]
  intro h
  have hle : db.nextServiceId ≤ db.services.keys.foldr max 0 := Table.le_foldr_max h
  simp [nextServiceId] at hle

theorem hasCursor_eq_false {s : Nat} :
    db.hasCursor s = false ↔ db.relationCursor s = none ∧ ∀ d, db.mappingCursor s d = none := by
  unfold hasCursor
  rw [Bool.or_eq_false_iff, Option.isSome_eq_false_iff, Option.isNone_iff_eq_none]
  refine and_congr Iff.rfl ?_
  rw [List.any_eq_false]
  constructor
  · intro h d
    unfold mappingCursor
    cases hl : db.pullState.lookup (s, d) with
    | none => rfl
    | some st =>
      have hentry := h _ (Table.mem_entries.2 hl)
      simpa using hentry
  · intro h e he hcursor
    obtain ⟨⟨s', d⟩, st⟩ := e
    have hl := Table.mem_entries.1 he
    have hnone := h d
    simp only [Bool.and_eq_true, decide_eq_true_eq] at hcursor
    obtain ⟨rfl, hsome⟩ := hcursor
    rw [mappingCursor, hl] at hnone
    simp only [Option.bind_some] at hnone
    simp [hnone] at hsome

namespace Tracked

theorem lastUrl_of_returns {s : Nat} {url : String} (h : t.returns s url = true)
    (hhas : t.db.hasCursor s = true) : t.lastUrl s = some url := by
  simpa [returns, hhas] using h

/-- The URL of an unchanged row. -/
theorem Owned.url_eq (h : Owned t) {s : Nat} {row : ServiceRow}
    (hl : t.db.services.lookup s = some row) : row.url = none ∨ row.url = t.lastUrl s := by
  cases hurl : row.url with
  | none => exact .inl rfl
  | some url => exact .inr (h.attached s row url hl hurl).symm

/-- A step preserves the invariant when every row it leaves stores no cursor, or has its last URL
or none and only cursors recorded there. -/
theorem Owned.step_of {op : ServiceOp}
    (hservice : ∀ s d st, (t.db.serve op).pullState.lookup (s, d) = some st →
      ((t.db.serve op).services.lookup s).isSome = true)
    (hrows : ∀ s row, (t.db.serve op).services.lookup s = some row →
      (t.db.serve op).hasCursor s = false ∨
        (row.url = none ∨ row.url = t.lastUrl s) ∧
          (∀ d c, (t.db.serve op).mappingCursor s d = some c →
            (t.step op).mappingUrl (s, d) = t.lastUrl s) ∧
          (∀ c, row.relationCursor = some c → (t.step op).relationUrl s = t.lastUrl s)) :
    Owned (t.step op) := by
  have hlast : ∀ s row, (t.db.serve op).services.lookup s = some row →
      row.url = none ∨ row.url = t.lastUrl s → (t.step op).lastUrl s = t.lastUrl s := by
    intro s row hl hurl
    simp only [step, hl]
    rcases hurl with hurl | hurl
    · rw [hurl, Option.none_or]
    · rw [hurl, Option.or_self]
  refine ⟨hservice, ?_, ?_, ?_⟩
  · intro s d c hc
    have hexists : ((t.db.serve op).services.lookup s).isSome = true := by
      obtain ⟨st, hst, _⟩ := Option.bind_eq_some_iff.1 hc
      exact hservice s d st hst
    obtain ⟨row, hl⟩ := Option.isSome_iff_exists.1 hexists
    rcases hrows s row hl with hnone | ⟨hurl, hmapping, _⟩
    · have hnone := (hasCursor_eq_false.1 hnone).2 d
      rw [show (t.step op).db = t.db.serve op from rfl, hnone] at hc
      cases hc
    · rw [hlast s row hl hurl]
      exact hmapping d c hc
  · intro s c hc
    obtain ⟨row, hl, hrow⟩ := Option.bind_eq_some_iff.1 hc
    rcases hrows s row hl with hnone | ⟨hurl, _, hrelation⟩
    · have hnone := (hasCursor_eq_false.1 hnone).1
      rw [show (t.step op).db = t.db.serve op from rfl, hnone] at hc
      cases hc
    · rw [hlast s row hl hurl]
      exact hrelation c hrow
  · intro s row url hl hurl
    have hl' : (t.db.serve op).services.lookup s = some row := hl
    simp [step, hl', hurl]

/-- A step that records no cursor: it keeps the rows of the pull state it does not delete, and each
row of a service keeps its URL, loses it or returns to its last one. -/
theorem Owned.step_kept {op : ServiceOp} (h : Owned t)
    (hmappingUrl : (t.step op).mappingUrl = t.mappingUrl)
    (hrelationUrl : (t.step op).relationUrl = t.relationUrl)
    (hstate : ∀ k st, (t.db.serve op).pullState.lookup k = some st → t.db.pullState.lookup k = some st)
    (hdeleted : ∀ s, (t.db.serve op).services.lookup s = none → t.db.services.lookup s = none ∨
      ∀ d, (t.db.serve op).pullState.lookup (s, d) = none)
    (hrows : ∀ s row', (t.db.serve op).services.lookup s = some row' →
      (t.db.serve op).hasCursor s = false ∨ ∃ row, t.db.services.lookup s = some row ∧
        (row'.relationCursor = none ∨ row'.relationCursor = row.relationCursor) ∧
        (row'.url = none ∨ row'.url = row.url ∨ row'.url = t.lastUrl s)) :
    Owned (t.step op) := by
  refine Owned.step_of ?_ ?_
  · intro s d st hst
    cases hl : (t.db.serve op).services.lookup s with
    | some row => rfl
    | none =>
      have hold := h.service s d st (hstate _ _ hst)
      rcases hdeleted s hl with hnone | hnone
      · rw [hnone] at hold
        cases hold
      · rw [hnone d] at hst
        cases hst
  · intro s row' hl'
    rcases hrows s row' hl' with hnone | ⟨row, hl, hcursor, hurl⟩
    · exact .inl hnone
    · refine .inr ⟨?_, ?_, ?_⟩
      · rcases hurl with hurl | hurl | hurl
        · exact .inl hurl
        · rw [hurl]
          exact h.url_eq hl
        · exact .inr hurl
      · intro d c hc
        obtain ⟨st, hst, hcur⟩ := Option.bind_eq_some_iff.1 hc
        rw [hmappingUrl]
        refine h.mapping s d c ?_
        rw [mappingCursor, hstate _ _ hst, Option.bind_some, hcur]
      · intro c hc
        rcases hcursor with hnone | hsame
        · rw [hnone] at hc
          cases hc
        · rw [hrelationUrl]
          refine h.relation s c ?_
          rw [relationCursor, hl, Option.bind_some, ← hsame, hc]

/-- A step that only changes the row of one service, and neither its relation cursor. -/
theorem Owned.step_updated {op : ServiceOp} (h : Owned t)
    (hmappingUrl : (t.step op).mappingUrl = t.mappingUrl)
    (hrelationUrl : (t.step op).relationUrl = t.relationUrl) {s : Nat} {f : ServiceRow → ServiceRow}
    (hserve : t.db.serve op = t.db.updateService s f)
    (hf : ∀ row, t.db.services.lookup s = some row → (f row).relationCursor = row.relationCursor ∧
      (t.db.hasCursor s = true →
        (f row).url = none ∨ (f row).url = row.url ∨ (f row).url = t.lastUrl s)) :
    Owned (t.step op) := by
  refine h.step_kept hmappingUrl hrelationUrl ?_ ?_ ?_
  · intro k st hst
    rwa [hserve] at hst
  · intro k hnone
    rw [hserve, lookup_updateService, Option.map_eq_none_iff] at hnone
    exact .inl hnone
  · intro k row' hl'
    rw [hserve, lookup_updateService] at hl'
    obtain ⟨row, hl, rfl⟩ := Option.map_eq_some_iff.1 hl'
    by_cases hk : k = s
    · subst hk
      obtain ⟨hcursor, hurl⟩ := hf row hl
      simp only [if_true]
      cases hhas : t.db.hasCursor k with
      | true => exact .inr ⟨row, hl, .inr hcursor, hurl hhas⟩
      | false =>
        left
        rw [hasCursor_eq_false] at hhas ⊢
        refine ⟨?_, ?_⟩
        · rw [hserve, relationCursor, lookup_updateService, hl]
          simpa [relationCursor, hl, hcursor] using hhas.1
        · intro d
          rw [hserve]
          exact hhas.2 d
    · rw [if_neg hk]
      exact .inr ⟨row, hl, .inr rfl, .inr (.inl rfl)⟩

theorem Owned.unchanged {op : ServiceOp} (h : Owned t)
    (hmappingUrl : (t.step op).mappingUrl = t.mappingUrl)
    (hrelationUrl : (t.step op).relationUrl = t.relationUrl) (hserve : t.db.serve op = t.db) :
    Owned (t.step op) := by
  refine h.step_kept hmappingUrl hrelationUrl ?_ ?_ ?_
  · intro k st hst
    rwa [hserve] at hst
  · intro s hnone
    rw [hserve] at hnone
    exact .inl hnone
  · intro s row hl
    rw [hserve] at hl
    exact .inr ⟨row, hl, .inr rfl, .inr (.inl rfl)⟩

/-- A new row stores no cursor. -/
theorem Owned.inserted {op : ServiceOp} (h : Owned t)
    (hmappingUrl : (t.step op).mappingUrl = t.mappingUrl)
    (hrelationUrl : (t.step op).relationUrl = t.relationUrl) (row : ServiceRow)
    (hrow : row.relationCursor = none)
    (hserve : t.db.serve op = t.db.committed ((t.db.insertService row).map Prod.fst)) :
    Owned (t.step op) := by
  by_cases htaken : ∃ e ∈ t.db.services.entries, e.2.name = row.name
  · refine h.unchanged hmappingUrl hrelationUrl ?_
    rw [hserve, insertService, if_pos htaken]
    rfl
  rw [insertService, if_neg htaken] at hserve
  have hserve' : t.db.serve op =
      { t.db with services := t.db.services.insert t.db.nextServiceId row } := hserve
  have hfresh := lookup_nextServiceId t.db
  refine h.step_kept hmappingUrl hrelationUrl ?_ ?_ ?_
  · intro k st hst
    rwa [hserve'] at hst
  · intro s hnone
    rw [hserve'] at hnone
    by_cases hs : s = t.db.nextServiceId
    · rw [hs]
      exact .inl hfresh
    · exact .inl ((AList.lookup_insert_ne hs).symm.trans hnone)
  · intro s row' hl
    by_cases hs : s = t.db.nextServiceId
    · left
      rw [hasCursor_eq_false, hserve', hs]
      refine ⟨?_, ?_⟩
      · simp [relationCursor, hrow]
      · intro d
        change (t.db.pullState.lookup (t.db.nextServiceId, d)).bind _ = none
        cases hst : t.db.pullState.lookup (t.db.nextServiceId, d) with
        | none => rfl
        | some st =>
          have hexists := h.service _ _ _ hst
          rw [hfresh] at hexists
          cases hexists
    · rw [hserve'] at hl
      have hl' : t.db.services.lookup s = some row' := (AList.lookup_insert_ne hs).symm.trans hl
      exact .inr ⟨row', hl', .inr rfl, .inr (.inl rfl)⟩

theorem Owned.subscribe (h : Owned t) {name url : String} {origin : Option String}
    (hclean : t.Clean (.subscribe name url origin)) :
    Owned (t.step (.subscribe name url origin)) := by
  cases hnamed : t.db.sharedNamed name with
  | none => exact h.inserted rfl rfl _ rfl (serve_subscribe_new hnamed url origin)
  | some e =>
    obtain ⟨s, row⟩ := e
    simp only [Clean, clean, hnamed, Option.all_some] at hclean
    cases hurl : row.url with
    | some previous =>
      exact h.unchanged rfl rfl (serve_subscribe_attached hnamed hurl url origin)
    | none =>
      refine h.step_updated rfl rfl (serve_subscribe_detached hnamed hurl url origin) ?_
      intro _ _
      have hreturns : t.returns s url = true := by
        simpa [hurl] using hclean
      exact ⟨rfl, fun hhas => .inr (.inr (lastUrl_of_returns hreturns hhas).symm)⟩

theorem Owned.detach (h : Owned t) (s : Nat) : Owned (t.step (.detach s)) := by
  refine h.step_updated rfl rfl (s := s)
    (f := fun row => if row.scope = .shared then { row with url := none } else row) rfl ?_
  intro row _
  by_cases hscope : row.scope = .shared
  · simp [hscope]
  · simp [hscope]

theorem Owned.setUrl (h : Owned t) {s : Nat} {url : String} (hclean : t.Clean (.setUrl s url)) :
    Owned (t.step (.setUrl s url)) := by
  by_cases hrepoint : (t.db.sharedUrl s).any (· ≠ url) = true
  · -- the pull state goes, and there is no relation cursor
    have hserve : t.db.serve (.setUrl s url) = (t.db.updateShared s fun row =>
        { row with url := some url }).deletePullState s := by
      rw [serve, setServiceUrl, if_pos hrepoint]
    refine h.step_kept rfl rfl ?_ ?_ ?_
    · intro k st hst
      rw [hserve, lookup_deletePullState] at hst
      split at hst
      · cases hst
      · exact hst
    · intro k hnone
      rw [hserve, services_deletePullState, updateShared, lookup_updateService,
        Option.map_eq_none_iff] at hnone
      exact .inl hnone
    · intro k row' hl'
      rw [hserve, services_deletePullState, updateShared, lookup_updateService] at hl'
      obtain ⟨row, hl, rfl⟩ := Option.map_eq_some_iff.1 hl'
      by_cases hk : k = s
      · subst hk
        left
        rw [hasCursor_eq_false, hserve]
        refine ⟨?_, ?_⟩
        · obtain ⟨previous, hprevious, hne⟩ := (Option.any_eq_true _ _).1 hrepoint
          obtain ⟨row', hl', hscope, hurl⟩ := sharedUrl_eq_some hprevious
          rw [hl] at hl'
          cases hl'
          have hne' : previous ≠ url := of_decide_eq_true hne
          have hnone : row.relationCursor = none := by
            simpa [Clean, clean, hl, hscope, hurl, hne'] using hclean
          simp [relationCursor, updateShared, hl, hscope, hnone]
        · intro d
          simp [mappingCursor]
      · rw [if_neg hk]
        exact .inr ⟨row, hl, .inr rfl, .inr (.inl rfl)⟩
  · refine h.step_updated rfl rfl (s := s)
      (f := fun row => if row.scope = .shared then { row with url := some url } else row) ?_ ?_
    · rw [serve, setServiceUrl, if_neg hrepoint]
      rfl
    · intro row hl
      by_cases hscope : row.scope = .shared
      · simp only [hscope, if_true, true_and]
        intro hhas
        cases hurl : row.url with
        | none =>
          have hreturns : t.returns s url = true := by
            simpa [Clean, clean, hl, hscope, hurl] using hclean
          exact .inr (.inr (lastUrl_of_returns hreturns hhas).symm)
        | some previous =>
          have heq : previous = url := by
            simpa [sharedUrl, hl, Option.filter_some, hscope, hurl] using hrepoint
          rw [heq]
          exact .inr (.inl rfl)
      · simp [hscope]

theorem Owned.clearPullState (h : Owned t) (s : Nat) (domain : String) :
    Owned (t.step (.clearPullState s domain)) := by
  refine h.step_kept rfl rfl ?_ (fun _ hnone => .inl hnone) ?_
  · intro k st hst
    by_cases hk : k = (s, domain)
    · subst hk
      have hgone : (t.db.pullState.erase (s, domain)).lookup (s, domain) = some st := hst
      simp at hgone
    · exact (AList.lookup_erase_ne hk).symm.trans hst
  · intro k row hl
    exact .inr ⟨row, hl, .inr rfl, .inr (.inl rfl)⟩

theorem Owned.resetCursors (h : Owned t) (s : Nat) : Owned (t.step (.resetCursors s)) := by
  have hserve : t.db.serve (.resetCursors s) = (t.db.updateService s fun row =>
      { row with relationCursor := none }).deletePullState s := rfl
  refine h.step_kept rfl rfl ?_ ?_ ?_
  · intro k st hst
    rw [hserve, lookup_deletePullState] at hst
    split at hst
    · cases hst
    · exact hst
  · intro k hnone
    rw [hserve, services_deletePullState, lookup_updateService, Option.map_eq_none_iff] at hnone
    exact .inl hnone
  · intro k row' hl'
    rw [hserve, services_deletePullState, lookup_updateService] at hl'
    obtain ⟨row, hl, rfl⟩ := Option.map_eq_some_iff.1 hl'
    refine .inr ⟨row, hl, ?_⟩
    by_cases hk : k = s
    · simp [hk]
    · simp [hk]

theorem Owned.drop (h : Owned t) (s : Nat) : Owned (t.step (.drop s)) := by
  have hstate : ∀ k : Nat × String, (t.db.dropService s).pullState.lookup k =
      if k.1 = s then none else t.db.pullState.lookup k := lookup_deletePullState t.db s
  refine h.step_kept rfl rfl ?_ ?_ ?_
  · intro k st hst
    have hst' := (hstate k).symm.trans hst
    split at hst'
    · cases hst'
    · exact hst'
  · intro k hnone
    by_cases hk : k = s
    · right
      intro d
      exact (hstate (k, d)).trans (by simp [hk])
    · left
      change (t.db.dropService s).services.lookup k = none at hnone
      unfold dropService at hnone
      simp only at hnone
      split at hnone
      · exact hnone
      · rw [Table.lookup_select] at hnone
        cases hl : t.db.services.lookup k with
        | none => rfl
        | some row => simp [hl, hk] at hnone
  · intro k row hl
    exact .inr ⟨row, lookup_of_dropService hl, .inr rfl, .inr (.inl rfl)⟩

theorem Owned.setPullState (h : Owned t) {s : Nat} {domain : String} {cursor marker : Nat}
    (hclean : t.Clean (.setPullState s domain cursor marker)) :
    Owned (t.step (.setPullState s domain cursor marker)) := by
  cases hl : t.db.services.lookup s with
  | none =>
    have hserve : t.db.serve (.setPullState s domain cursor marker) = t.db := by
      simp [serve, setMappingPullState, hl, committed]
    refine Owned.step_of ?_ ?_
    · rw [hserve]
      exact h.service
    · rw [hserve]
      intro k row hk
      refine .inr ⟨h.url_eq hk, ?_, ?_⟩
      · intro d c hc
        have hne : k ≠ s := by
          intro heq
          rw [heq, hl] at hk
          cases hk
        simp only [step, Prod.mk.injEq, hne, false_and, if_false]
        exact h.mapping k d c hc
      · intro c hc
        refine h.relation k c ?_
        rw [relationCursor, hk, Option.bind_some, hc]
  | some row =>
    have hserve : t.db.serve (.setPullState s domain cursor marker) =
        t.db.setPullState s domain cursor marker := by
      simp [serve, setMappingPullState, hl, committed]
    obtain ⟨url, hurl⟩ := Option.isSome_iff_exists.1 ((Option.all_eq_true _ _).1 hclean row hl)
    have hlast := h.attached s row url hl hurl
    refine Owned.step_of ?_ ?_
    · rw [hserve]
      intro k d st hst
      change (t.db.services.lookup k).isSome = true
      by_cases hk : (k, d) = (s, domain)
      · rw [(Prod.mk.inj hk).1, hl]
        rfl
      · exact h.service k d st ((AList.lookup_insert_ne hk).symm.trans hst)
    · rw [hserve]
      intro k row' hk
      refine .inr ⟨h.url_eq hk, ?_, ?_⟩
      · intro d c hc
        simp only [step]
        by_cases hkey : (k, d) = (s, domain)
        · rw [if_pos hkey, (Prod.mk.inj hkey).1, hlast, urlOf, hl, Option.bind_some, hurl]
        · rw [if_neg hkey]
          refine h.mapping k d c ?_
          have hne : (t.db.setPullState s domain cursor marker).pullState.lookup (k, d) =
              t.db.pullState.lookup (k, d) := AList.lookup_insert_ne hkey
          rwa [mappingCursor, hne] at hc
      · intro c hc
        refine h.relation k c ?_
        have hk' : t.db.services.lookup k = some row' := hk
        rw [relationCursor, hk', Option.bind_some, hc]

theorem Owned.setRelationCursor (h : Owned t) {s cursor : Nat} {now : Int}
    (hclean : t.Clean (.setRelationCursor s cursor now)) :
    Owned (t.step (.setRelationCursor s cursor now)) := by
  have hserve : t.db.serve (.setRelationCursor s cursor now) = t.db.updateService s fun row =>
      { row with relationCursor := some (toI64 cursor), lastRelationPullAt := some now } := rfl
  refine Owned.step_of ?_ ?_
  · rw [hserve]
    intro k d st hst
    have hexists := h.service k d st hst
    simpa using hexists
  · rw [hserve]
    intro k row' hk
    rw [lookup_updateService] at hk
    obtain ⟨row, hl, rfl⟩ := Option.map_eq_some_iff.1 hk
    refine .inr ⟨?_, fun d c hc => h.mapping k d c hc, ?_⟩
    · have hurl := h.url_eq hl
      by_cases hks : k = s
      · simpa [hks] using hurl
      · simpa [hks] using hurl
    · intro c hc
      simp only [step]
      by_cases hks : k = s
      · rw [if_pos hks]
        subst hks
        obtain ⟨url, hurl⟩ := Option.isSome_iff_exists.1 ((Option.all_eq_true _ _).1 hclean row hl)
        rw [urlOf, hl, Option.bind_some, hurl, h.attached k row url hl hurl]
      · rw [if_neg hks] at hc ⊢
        refine h.relation k c ?_
        rw [relationCursor, hl, Option.bind_some, hc]

theorem Owned.step (h : Owned t) (op : ServiceOp) (hclean : t.Clean op) : Owned (t.step op) := by
  cases op with
  | subscribe name url origin => exact h.subscribe hclean
  | addLocal name origin => exact h.inserted rfl rfl { name, scope := .local, origin } rfl rfl
  | detach s => exact h.detach s
  | setUrl s url => exact h.setUrl hclean
  | setPullState s domain cursor marker => exact h.setPullState hclean
  | clearPullState s domain => exact h.clearPullState s domain
  | setRelationCursor s cursor now => exact h.setRelationCursor hclean
  | resetCursors s => exact h.resetCursors s
  | drop s => exact h.drop s

theorem Owned.start (hstate : db.pullState = ∅)
    (hservices : ∀ e ∈ db.services.entries, e.2.relationCursor = none) : Owned (start db) := by
  refine ⟨?_, ?_, ?_, ?_⟩
  · intro s d st hst
    simp [Tracked.start, hstate] at hst
  · intro s d c hc
    simp [Tracked.start, mappingCursor, hstate] at hc
  · intro s c hc
    obtain ⟨row, hl, hrow⟩ := Option.bind_eq_some_iff.1 hc
    rw [hservices _ (Table.mem_entries.2 hl)] at hrow
    cases hrow
  · intro s row url hl hurl
    have hl' : db.services.lookup s = some row := hl
    simp [Tracked.start, urlOf, hl', hurl]

theorem Owned.cursorsAtUrl (h : Owned t) : t.CursorsAtUrl := by
  intro svc hsvc
  obtain ⟨e, he, hsome⟩ := List.mem_filterMap.1 hsvc
  split at hsome
  case isFalse => cases hsome
  obtain ⟨url, hurl, rfl⟩ := Option.map_eq_some_iff.1 hsome
  have hlast := h.attached e.1 e.2 url (Table.mem_entries.1 (mem_orderBy.1 he)) hurl
  refine ⟨?_, ?_⟩
  · intro domain cursor hc
    exact (h.mapping e.1 domain cursor hc).trans hlast
  · intro cursor hc
    exact (h.relation e.1 cursor hc).trans hlast

end Tracked

/-- **From a database that stores no cursor, every run of clean operations leaves each attached
service with cursors that were recorded while it had its URL.** -/
theorem cursors_of_current_url (db : Db) (hstate : db.pullState = ∅)
    (hservices : ∀ e ∈ db.services.entries, e.2.relationCursor = none) (ops : List ServiceOp)
    (hclean : AllSteps Tracked.step Tracked.Clean (Tracked.start db) ops) :
    (run Tracked.step (Tracked.start db) ops).CursorsAtUrl := by
  have howned : (run Tracked.step (Tracked.start db) ops).Owned :=
    hclean.invariant (Tracked.Owned.start hstate hservices) fun _ op h hc => h.step op hc
  exact howned.cursorsAtUrl

/-- Detached and attached again, then reset and repointed. -/
def repointed : List ServiceOp :=
  [.subscribe "repo" "http://a" none, .setPullState 2 "blake3" 7 0, .setRelationCursor 2 9 100,
    .detach 2, .subscribe "repo" "http://a" none, .resetCursors 2, .setUrl 2 "http://b",
    .setPullState 2 "blake3" 3 0]

theorem cursors_of_current_url_repointed :
    (run Tracked.step (Tracked.start empty) repointed).db.mappingCursor 2 "blake3" = some 3 ∧
      (run Tracked.step (Tracked.start empty) repointed).CursorsAtUrl :=
  ⟨by decide, cursors_of_current_url empty rfl (by decide) repointed (by decide)⟩

/-- A detached row that is attached to another URL keeps every cursor; a repointed one keeps its
relation cursor. -/
theorem cursors_of_current_url_fails :
    ¬ (run Tracked.step (Tracked.start empty)
        [.subscribe "repo" "http://a" none, .setPullState 2 "blake3" 7 0, .detach 2,
          .subscribe "repo" "http://b" none]).CursorsAtUrl ∧
      ¬ (run Tracked.step (Tracked.start empty)
        [.subscribe "repo" "http://a" none, .setRelationCursor 2 9 100,
          .setUrl 2 "http://b"]).CursorsAtUrl := by
  refine ⟨?_, ?_⟩
  · intro h
    have hurl := (h ⟨2, "repo", "http://b"⟩ (by decide)).1 "blake3" 7 (by decide)
    exact absurd hurl (by decide)
  · intro h
    have hurl := (h ⟨2, "repo", "http://b"⟩ (by decide)).2 9 (by decide)
    exact absurd hurl (by decide)

end

end Db
end Naiad
