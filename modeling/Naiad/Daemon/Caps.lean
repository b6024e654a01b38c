import Naiad.Core.Tag
import Naiad.Db.Services

/-!
# Naiad.Daemon.Caps

The capabilities a repository advertises, cached for a daemon session by the id of its service. A
call resolves a service by name, looks its id up, and on a miss fetches from the URL it resolved,
off the lock, so other calls and changes to the services come in between.

* `step`: one event of a session.
* `assigns`: the URL an operation gives to a service.
* `caps_from_url`: **what a call gets was fetched from the URL it resolved, in every session that
  gives no service another URL than the one it was first resolved with**.
-/

namespace Naiad
namespace Daemon

open Lib Db

inductive PullMode
  | wholeRepo
  | bucketed (prefixBits : Nat)
deriving DecidableEq

structure Caps where
  mode : PullMode
  repoKey : Option String
  storeGeneration : Option String
deriving DecidableEq

def trimEndMatches (c : Char) (s : String) : String :=
  String.ofList ((s.toList.reverse.dropWhile (· = c)).reverse)

/-- `str::split_once` of a text. -/
def splitOnceAt (sep : List Char) : List Char → Option (List Char × List Char)
  | [] => none
  | c :: s =>
    if sep.isPrefixOf (c :: s) then some ([], (c :: s).drop sep.length)
    else (splitOnceAt sep s).map fun p => (c :: p.1, p.2)

/-- Lowercase the scheme and the host, and strip trailing slashes. -/
def normalizeRepoUrl (u : Unicode) (url : String) : String :=
  let trimmed := trimEndMatches '/' url
  match splitOnceAt "://".toList trimmed.toList with
  | none => u.toLowercase trimmed
  | some (scheme, rest) =>
    match splitOnce '/' rest with
    | none => u.toLowercase (String.ofList scheme) ++ "://" ++ u.toLowercase (String.ofList rest)
    | some (host, path) =>
      u.toLowercase (String.ofList scheme) ++ "://" ++ u.toLowercase (String.ofList host) ++ "/" ++
        String.ofList path

/-- The address a `RepoClient` sends its requests to. -/
def baseUrl (url : String) : String := trimEndMatches '/' url

/-- A stored generation that differs resets the cursors; the advertised one is stored. -/
def reconcileStoreGeneration (db : Naiad.Db) (service : Nat) (caps : Caps) : Naiad.Db :=
  match caps.storeGeneration with
  | none => db
  | some new =>
    match (db.services.lookup service).bind ServiceRow.storeGeneration with
    | none => db.committed (db.setServiceStoreGeneration service new)
    | some old =>
      if old = new then db
      else
        (db.resetServiceCursors service).committed
          ((db.resetServiceCursors service).setServiceStoreGeneration service new)

/-- The contributor anchor of a service that has none: the advertised key, or else the URL. -/
def resolvedAnchor (u : Unicode) (url : String) (caps : Option Caps) : String :=
  match caps.bind Caps.repoKey with
  | some key => key
  | none => normalizeRepoUrl u url

/-! ## Sessions -/

inductive Stage
  | resolved
  | missed
  | returned (caps : Caps)
deriving DecidableEq

/-- A pull or a submission. -/
structure Call where
  service : Nat
  url : String
  stage : Stage
deriving DecidableEq

def Call.caps (call : Call) : Option Caps :=
  match call.stage with
  | .returned caps => some caps
  | _ => none

/-- The cache and the calls of a daemon, with what each server answered and the address each service
was first resolved with. -/
structure Session where
  db : Naiad.Db
  cache : Table Nat Caps
  calls : List Call
  fetched : List (String × Caps)
  usedUrl : Nat → Option String

inductive Session.Event
  | serve (op : ServiceOp)
  | resolve (name : String)
  /-- `get_or_fetch` consults the cache. -/
  | consult (call : Nat)
  /-- The server of a call that missed answers. -/
  | answer (call : Nat) (caps : Caps)
  | reconcile (call : Nat)
  | freeze (call : Nat)
deriving DecidableEq

namespace Session

def start (db : Naiad.Db) : Session := ⟨db, ∅, [], [], fun _ => none⟩

def setStage (s : Session) (i : Nat) (stage : Stage) : Session :=
  { s with calls := s.calls.modify i fun call => { call with stage } }

def step (u : Unicode) (s : Session) : Event → Session
  | .serve op => { s with db := s.db.serve op }
  | .resolve name =>
    match s.db.sharedServiceByName name with
    | none => s
    | some svc =>
      { s with
        calls := s.calls ++ [⟨svc.id, svc.url, .resolved⟩]
        usedUrl := fun id =>
          if id = svc.id then (s.usedUrl id).or (some (baseUrl svc.url)) else s.usedUrl id }
  | .consult i =>
    match s.calls[i]? with
    | none => s
    | some call =>
      match s.cache.lookup call.service with
      | some caps => s.setStage i (.returned caps)
      | none => s.setStage i .missed
  | .answer i caps =>
    match s.calls[i]? with
    | none => s
    | some call =>
      if call.stage = .missed then
        { s.setStage i (.returned caps) with
          cache := s.cache.insert call.service caps
          fetched := (baseUrl call.url, caps) :: s.fetched }
      else s
  | .reconcile i =>
    match s.calls[i]? with
    | none => s
    | some call =>
      match call.caps with
      | none => s
      | some caps => { s with db := reconcileStoreGeneration s.db call.service caps }
  | .freeze i =>
    match s.calls[i]? with
    | none => s
    | some call =>
      { s with db := s.db.freezeRepoAnchor call.service (resolvedAnchor u call.url call.caps) }

/-- What a call got was fetched from the server at its URL. -/
def CapsFromUrl (s : Session) : Prop :=
  ∀ call ∈ s.calls, ∀ caps, call.caps = some caps → (baseUrl call.url, caps) ∈ s.fetched

end Session

/-- The service an operation gives a URL to, with the URL. -/
def assigns (db : Naiad.Db) : ServiceOp → Option (Nat × String)
  | .subscribe name url _ =>
    match db.sharedNamed name with
    | some e => if e.2.url.isSome then none else some (e.1, url)
    | none =>
      if ∃ e ∈ db.services.entries, e.2.name = name then none else some (db.nextServiceId, url)
  | .setUrl service url =>
    ((db.services.lookup service).filter (·.scope = .shared)).map fun _ => (service, url)
  | _ => none

namespace Session

/-- A service that was resolved in this session keeps the address it was first resolved with. -/
def Clean (s : Session) : Event → Prop
  | .serve op =>
    (assigns s.db op).all (fun a => (s.usedUrl a.1).all fun base => baseUrl a.2 = base) = true
  | _ => True

instance (s : Session) : (event : Event) → Decidable (s.Clean event)
  | .serve _ => inferInstanceAs (Decidable (_ = true))
  | .resolve _ | .consult _ | .answer _ _ | .reconcile _ | .freeze _ =>
    inferInstanceAs (Decidable True)

end Session

section

variable {db : Naiad.Db} {s : Session} {u : Unicode}

/-! ## The URLs of the services -/

theorem sharedUrl_insertService {row : ServiceRow} {k : Nat} {url : String}
    (h : (db.committed ((db.insertService row).map Prod.fst)).sharedUrl k = some url) :
    db.sharedUrl k = some url ∨
      (¬ ∃ e ∈ db.services.entries, e.2.name = row.name) ∧ k = db.nextServiceId ∧
        row.scope = .shared ∧ row.url = some url := by
  by_cases htaken : ∃ e ∈ db.services.entries, e.2.name = row.name
  · rw [insertService, if_pos htaken] at h
    exact .inl h
  · rw [insertService, if_neg htaken] at h
    obtain ⟨row', hl, hscope, hurl⟩ := sharedUrl_eq_some h
    by_cases hk : k = db.nextServiceId
    · subst hk
      have hrow : row = row' := Option.some.inj ((AList.lookup_insert _).symm.trans hl)
      rw [← hrow] at hscope hurl
      exact .inr ⟨htaken, rfl, hscope, hurl⟩
    · exact .inl (sharedUrl_of_lookup ((AList.lookup_insert_ne hk).symm.trans hl) hscope hurl)

/-- An operation leaves a shared service with the URL it had, or with the one it gives it. -/
theorem sharedUrl_serve {op : ServiceOp} {k : Nat} {url : String}
    (h : (db.serve op).sharedUrl k = some url) :
    db.sharedUrl k = some url ∨ assigns db op = some (k, url) := by
  cases op with
  | subscribe name url' origin =>
    cases hnamed : db.sharedNamed name with
    | none =>
      rw [serve_subscribe_new hnamed] at h
      rcases sharedUrl_insertService h with hold | ⟨htaken, rfl, _, hurl⟩
      · exact .inl hold
      · right
        cases hurl
        rw [assigns, hnamed]
        exact if_neg htaken
    | some e =>
      obtain ⟨s, row⟩ := e
      cases hattached : row.url with
      | some previous =>
        rw [serve_subscribe_attached hnamed hattached] at h
        exact .inl h
      | none =>
        rw [serve_subscribe_detached hnamed hattached] at h
        obtain ⟨row', hl', hscope, hurl⟩ := sharedUrl_eq_some h
        rw [lookup_updateService] at hl'
        obtain ⟨old, hl, rfl⟩ := Option.map_eq_some_iff.1 hl'
        by_cases hk : k = s
        · right
          simp only [hk, if_true] at hurl
          cases hurl
          simp [assigns, hnamed, hattached, hk]
        · rw [if_neg hk] at hscope hurl
          exact .inl (sharedUrl_of_lookup hl hscope hurl)
  | addLocal name origin =>
    rcases sharedUrl_insertService h with hold | ⟨_, _, hscope, _⟩
    · exact .inl hold
    · cases hscope
  | detach service =>
    obtain ⟨row', hl', hscope, hurl⟩ := sharedUrl_eq_some h
    rw [serve, detachService, updateShared, lookup_updateService] at hl'
    obtain ⟨row, hl, rfl⟩ := Option.map_eq_some_iff.1 hl'
    by_cases hk : k = service
    · by_cases hshared : row.scope = .shared
      · simp [hk, hshared] at hurl
      · simp [hk, hshared] at hscope
    · rw [if_neg hk] at hscope hurl
      exact .inl (sharedUrl_of_lookup hl hscope hurl)
  | setUrl service url' =>
    obtain ⟨row', hl', hscope, hurl⟩ := sharedUrl_eq_some h
    rw [serve, services_setServiceUrl, updateShared, lookup_updateService] at hl'
    obtain ⟨row, hl, rfl⟩ := Option.map_eq_some_iff.1 hl'
    by_cases hk : k = service
    · by_cases hshared : row.scope = .shared
      · right
        simp only [hk, hshared, if_true] at hurl
        cases hurl
        rw [hk] at hl
        simp [assigns, hl, Option.filter_some, hshared, hk]
      · simp [hk, hshared] at hscope
    · rw [if_neg hk] at hscope hurl
      exact .inl (sharedUrl_of_lookup hl hscope hurl)
  | setPullState service domain cursor marker =>
    left
    simp only [serve, setMappingPullState] at h
    split at h
    · exact h
    · exact h
  | clearPullState service domain => exact .inl h
  | setRelationCursor service cursor now =>
    rw [serve, sharedUrl_setRelationCursor] at h
    exact .inl h
  | resetCursors service =>
    rw [serve, sharedUrl_resetServiceCursors] at h
    exact .inl h
  | drop service =>
    obtain ⟨row, hl, hscope, hurl⟩ := sharedUrl_eq_some h
    exact .inl (sharedUrl_of_lookup (lookup_of_dropService hl) hscope hurl)

@[simp] theorem sharedUrl_reconcile (db : Naiad.Db) (service : Nat) (caps : Caps) (k : Nat) :
    (reconcileStoreGeneration db service caps).sharedUrl k = db.sharedUrl k := by
  unfold reconcileStoreGeneration
  split
  · rfl
  · split
    · simp
    · split
      · rfl
      · simp

theorem sharedUrl_of_sharedServiceByName {name : String} {svc : SharedService}
    (h : db.sharedServiceByName name = some svc) : db.sharedUrl svc.id = some svc.url := by
  obtain ⟨e, he, hsome⟩ := List.mem_filterMap.1 (List.mem_of_find?_eq_some h)
  split at hsome
  case isFalse => cases hsome
  case isTrue hscope =>
    obtain ⟨url, hurl, rfl⟩ := Option.map_eq_some_iff.1 hsome
    exact sharedUrl_of_lookup (Table.mem_entries.1 (mem_orderBy.1 he)) hscope hurl

/-! ## Runs -/

namespace Session

/-- Attached services, calls and cached entries are at the address each service was first resolved
with. -/
structure Coherent (s : Session) : Prop where
  attached : ∀ id url base, s.db.sharedUrl id = some url → s.usedUrl id = some base →
    baseUrl url = base
  calls : ∀ call ∈ s.calls, s.usedUrl call.service = some (baseUrl call.url)
  cache : ∀ id caps, s.cache.lookup id = some caps →
    ∃ base, s.usedUrl id = some base ∧ (base, caps) ∈ s.fetched
  returned : s.CapsFromUrl

theorem Coherent.start (db : Naiad.Db) : (start db).Coherent := by
  refine ⟨?_, ?_, ?_, ?_⟩
  · intro id url base _ hused
    cases hused
  · intro call hcall
    cases hcall
  · intro id caps hl
    cases hl
  · intro call hcall
    cases hcall

/-- A new database in which the shared services have the same URLs. -/
theorem Coherent.withDb (h : s.Coherent) {db : Naiad.Db}
    (hurl : ∀ id, db.sharedUrl id = s.db.sharedUrl id) : ({ s with db } : Session).Coherent :=
  ⟨fun id url base hid => h.attached id url base ((hurl id).symm.trans hid), h.calls, h.cache,
    h.returned⟩

theorem Coherent.serve (h : s.Coherent) {op : ServiceOp} (hclean : s.Clean (.serve op)) :
    ({ s with db := s.db.serve op } : Session).Coherent := by
  refine ⟨?_, h.calls, h.cache, h.returned⟩
  intro id url base hid hused
  rcases sharedUrl_serve hid with hold | hassigned
  · exact h.attached id url base hold hused
  · have hused' : s.usedUrl id = some base := hused
    simpa [Clean, hassigned, hused'] using hclean

theorem Coherent.resolve (h : s.Coherent) (name : String) : (s.step u (.resolve name)).Coherent := by
  cases hname : s.db.sharedServiceByName name with
  | none =>
    simp only [step, hname]
    exact h
  | some svc =>
    simp only [step, hname]
    have hurl := sharedUrl_of_sharedServiceByName hname
    -- the address the service is at is the one it was first resolved with
    have hused : (s.usedUrl svc.id).or (some (baseUrl svc.url)) = some (baseUrl svc.url) := by
      cases hfirst : s.usedUrl svc.id with
      | none => rfl
      | some base => rw [h.attached svc.id svc.url base hurl hfirst, Option.some_or]
    have hkeep : ∀ id base, s.usedUrl id = some base →
        (if id = svc.id then (s.usedUrl id).or (some (baseUrl svc.url)) else s.usedUrl id) =
          some base := by
      intro id base hbase
      rw [hbase, Option.some_or, ite_self]
    refine ⟨?_, ?_, ?_, ?_⟩
    · intro id url base hid hbase
      by_cases hsvc : id = svc.id
      · subst hsvc
        simp only [if_true, hused] at hbase
        cases hbase
        rw [Option.some.inj (hid.symm.trans hurl)]
      · simp only [if_neg hsvc] at hbase
        exact h.attached id url base hid hbase
    · intro call hcall
      rcases List.mem_append.1 hcall with hcall | hcall
      · exact hkeep _ _ (h.calls call hcall)
      · rw [List.mem_singleton.1 hcall]
        simp only [if_true, hused]
    · intro id caps hl
      obtain ⟨base, hbase, hfetched⟩ := h.cache id caps hl
      exact ⟨base, hkeep id base hbase, hfetched⟩
    · intro call hcall caps hcaps
      rcases List.mem_append.1 hcall with hcall | hcall
      · exact h.returned call hcall caps hcaps
      · rw [List.mem_singleton.1 hcall] at hcaps
        cases hcaps

/-- A call moves to a stage whose capabilities, if it has any, came from its URL. -/
theorem Coherent.setStage (h : s.Coherent) (i : Nat) {stage : Stage}
    (hstage : ∀ call, s.calls[i]? = some call → ∀ caps, stage = .returned caps →
      (baseUrl call.url, caps) ∈ s.fetched) : (s.setStage i stage).Coherent := by
  have hmem : ∀ call ∈ (s.setStage i stage).calls, call ∈ s.calls ∨
      ∃ old, s.calls[i]? = some old ∧ call = { old with stage } := by
    intro call hcall
    obtain ⟨j, hj⟩ := List.mem_iff_getElem?.1 hcall
    rw [Session.setStage, List.getElem?_modify] at hj
    obtain ⟨old, hold, hnew⟩ := Option.map_eq_some_iff.1 hj
    by_cases hij : i = j
    · subst hij
      simp only [if_true] at hnew
      exact .inr ⟨old, hold, hnew.symm⟩
    · simp only [if_neg hij] at hnew
      rw [← hnew]
      exact .inl (List.mem_of_getElem? hold)
  refine ⟨h.attached, ?_, h.cache, ?_⟩
  · intro call hcall
    rcases hmem call hcall with hold | ⟨old, hold, rfl⟩
    · exact h.calls call hold
    · exact h.calls old (List.mem_of_getElem? hold)
  · intro call hcall caps hcaps
    rcases hmem call hcall with hold | ⟨old, hold, rfl⟩
    · exact h.returned call hold caps hcaps
    · cases stage with
      | resolved => cases hcaps
      | missed => cases hcaps
      | returned caps' =>
        cases hcaps
        exact hstage old hold caps rfl

theorem Coherent.consult (h : s.Coherent) (i : Nat) : (s.step u (.consult i)).Coherent := by
  cases hcall : s.calls[i]? with
  | none =>
    simp only [step, hcall]
    exact h
  | some call =>
    cases hl : s.cache.lookup call.service with
    | none =>
      simp only [step, hcall, hl]
      refine h.setStage i ?_
      intro _ _ caps hstage
      cases hstage
    | some caps =>
      simp only [step, hcall, hl]
      refine h.setStage i ?_
      intro call' hcall' caps' hstage
      cases hstage
      rw [hcall] at hcall'
      cases hcall'
      obtain ⟨base, hbase, hfetched⟩ := h.cache call.service caps hl
      rw [h.calls call (List.mem_of_getElem? hcall)] at hbase
      cases hbase
      exact hfetched

/-- An answer is logged and cached under the service of its call. -/
theorem Coherent.answered (h : s.Coherent) {call : Call} (hcall : call ∈ s.calls) (caps : Caps) :
    ({ s with
      cache := s.cache.insert call.service caps
      fetched := (baseUrl call.url, caps) :: s.fetched } : Session).Coherent := by
  refine ⟨h.attached, h.calls, ?_, ?_⟩
  · intro id caps' hl
    by_cases hid : id = call.service
    · subst hid
      simp only [AList.lookup_insert] at hl
      cases hl
      exact ⟨baseUrl call.url, h.calls call hcall, List.mem_cons_self⟩
    · obtain ⟨base, hbase, hfetched⟩ := h.cache id caps' ((AList.lookup_insert_ne hid).symm.trans hl)
      exact ⟨base, hbase, List.mem_cons_of_mem _ hfetched⟩
  · intro call' hcall' caps' hcaps
    exact List.mem_cons_of_mem _ (h.returned call' hcall' caps' hcaps)

theorem Coherent.answer (h : s.Coherent) (i : Nat) (caps : Caps) :
    (s.step u (.answer i caps)).Coherent := by
  cases hcall : s.calls[i]? with
  | none =>
    simp only [step, hcall]
    exact h
  | some call =>
    by_cases hmissed : call.stage = .missed
    · simp only [step, hcall, if_pos hmissed]
      refine (h.answered (List.mem_of_getElem? hcall) caps).setStage i ?_
      intro call' hcall' caps' hstage
      cases hstage
      have hcall'' : s.calls[i]? = some call' := hcall'
      rw [hcall] at hcall''
      cases hcall''
      exact List.mem_cons_self
    · simp only [step, hcall, if_neg hmissed]
      exact h

theorem Coherent.reconcile (h : s.Coherent) (i : Nat) : (s.step u (.reconcile i)).Coherent := by
  cases hcall : s.calls[i]? with
  | none =>
    simp only [step, hcall]
    exact h
  | some call =>
    cases hcaps : call.caps with
    | none =>
      simp only [step, hcall, hcaps]
      exact h
    | some caps =>
      simp only [step, hcall, hcaps]
      exact h.withDb fun id => sharedUrl_reconcile _ _ _ id

theorem Coherent.freeze (h : s.Coherent) (i : Nat) : (s.step u (.freeze i)).Coherent := by
  cases hcall : s.calls[i]? with
  | none =>
    simp only [step, hcall]
    exact h
  | some call =>
    simp only [step, hcall]
    exact h.withDb fun id => sharedUrl_freezeRepoAnchor _ _ _ id

theorem Coherent.step (h : s.Coherent) (event : Event) (hclean : s.Clean event) :
    (s.step u event).Coherent := by
  cases event with
  | serve op => exact h.serve hclean
  | resolve name => exact h.resolve name
  | consult i => exact h.consult i
  | answer i caps => exact h.answer i caps
  | reconcile i => exact h.reconcile i
  | freeze i => exact h.freeze i

end Session

/-- **In a session that never gives a resolved service another address, whatever database it starts
from and however its calls interleave, the capabilities a call gets were fetched from its URL.** -/
theorem caps_from_url (u : Unicode) (db : Naiad.Db) (events : List Session.Event)
    (hclean : AllSteps (Session.step u) Session.Clean (Session.start db) events) :
    (run (Session.step u) (Session.start db) events).CapsFromUrl :=
  (hclean.invariant (Session.Coherent.start db) fun _ event h hc => h.step event hc).returned

def wholeRepoCaps (key : String) : Caps := ⟨.wholeRepo, some key, some key⟩

/-- A repository is dropped before it is used, and the one beside it is pulled twice. -/
def readded : List Session.Event :=
  [.serve (.subscribe "a" "http://a" none), .serve (.subscribe "b" "http://b" none), .resolve "b",
    .consult 0, .answer 0 (wholeRepoCaps "b"), .reconcile 0, .freeze 0, .serve (.drop 2),
    .serve (.detach 3), .serve (.subscribe "b" "http://b/" none), .resolve "b", .consult 1]

theorem caps_from_url_readded :
    ((run (Session.step .plainText) (Session.start empty) readded).calls[1]?).bind Call.caps =
        some (wholeRepoCaps "b") ∧
      (run (Session.step .plainText) (Session.start empty) readded).CapsFromUrl :=
  ⟨by decide, caps_from_url .plainText empty readded (by decide)⟩

/-- The repository subscribed under the id of a dropped one gets the capabilities of the dropped one,
and so does a repointed service. -/
theorem caps_from_url_fails :
    ¬ (run (Session.step .plainText) (Session.start empty)
        [.serve (.subscribe "a" "http://a" none), .resolve "a", .consult 0,
          .answer 0 (wholeRepoCaps "a"), .serve (.drop 2), .serve (.subscribe "b" "http://b" none),
          .resolve "b", .consult 1]).CapsFromUrl ∧
      ¬ (run (Session.step .plainText) (Session.start empty)
        [.serve (.subscribe "a" "http://a" none), .resolve "a", .consult 0,
          .answer 0 (wholeRepoCaps "a"), .serve (.setUrl 2 "http://b"), .resolve "a",
          .consult 1]).CapsFromUrl := by
  refine ⟨?_, ?_⟩
  · intro h
    have hfetched := h ⟨2, "http://b", .returned (wholeRepoCaps "a")⟩ (by decide)
      (wholeRepoCaps "a") rfl
    exact absurd hfetched (by decide)
  · intro h
    have hfetched := h ⟨2, "http://b", .returned (wholeRepoCaps "a")⟩ (by decide)
      (wholeRepoCaps "a") rfl
    exact absurd hfetched (by decide)

end

end Daemon
end Naiad
