import Naiad.Netproto.Auth
import Naiad.Server.Accounts
import Naiad.Server.Charge

/-!
# Naiad.Server.Node

A repository node as its clients and its operator reach it: the authenticated write routes with
their gates and answers, the operator's commands, and the bridge's loads, as steps on one database.
Parsing a body or a query is the framework's, and a parameter.

* `NodeDb.handle`: one request, with the node's clock at the check and at the write.
* `gated_ok`: what a request has shown when its handler starts.
* `handle_effect`: what a request may do.
* `wellformed_step`: the tables stay sound.
* `Act.step`: anything that writes.
-/

namespace Naiad
namespace Netproto

/-- The domain a request asks for, as its signature covers it. -/
def requestedDomain (u : Unicode) (raw : Option String) : Option HashDomain :=
  raw.bind fun r =>
    if u.trim r.toList = [] then none else HashDomain.parse (u.trim r.toList)

structure Report where
  version : Nat
  hash : String
  tag : String
  note : Option String
deriving DecidableEq

inductive ModerateAction
  | deleteMapping (hash tag : String)
  | ban (pubkey : String)
  | dismiss (reportId : U64)
deriving DecidableEq

end Netproto

namespace Server

open Lib Netproto

def repoSubmit : String := "/repo/submit"
def repoReport : String := "/repo/report"
def repoReports : String := "/repo/reports"
def repoModerate : String := "/repo/moderate"
def repoRelationsSubmit : String := "/repo/relations/submit"

/-- The bytes a request body may take. -/
def bodyLimit : Nat := 64 * 1024

/-- A node's configuration, with the signature scheme, the body hash and the parsers; that of a
relation checks the limit too, and says the status it refuses with. -/
structure NodeEnv where
  unicode : Unicode
  scheme : Ed25519
  blake3 : List Byte → Hash
  native : HashDomain
  addedSha256 : Bool
  readOnly : Bool
  domainParam : String → Option (Option String)
  submissionOf : List Byte → Except String Submission
  reportOf : List Byte → Except String Report
  actionOf : List Byte → Except String ModerateAction
  relationOf : List Byte → Except Nat RelationSubmission

/-- An answer. What the framework refuses by itself has a status only. -/
inductive Reply
  | noContent
  | text (status : Nat) (body : String)
  | domain (e : DomainError)
  | reports (rows : List ReportEntry)
  | failed
  | rejected (status : Nat)
  | otherRoute
deriving DecidableEq

def StoreError.text : StoreError → String
  | .badSignature => "signature does not match author"
  | .banned author => "account " ++ author ++ " is banned"
  | .notHex hash => "submission hash is not valid hex: " ++ hash
  | .not32Bytes hash => "submission hash is not 32 bytes: " ++ hash
  | .notFound hash tag => "moderator_delete_mapping: (" ++ hash ++ ", " ++ tag ++ ") not found"
  | .indexMissing => "the unique index of repo_hashes is missing"
  | .duplicateHash hash => "UNIQUE constraint failed: repo_hashes.hash: " ++ hash.toHex

def NodeError.text : NodeError → String
  | .store e => e.text
  | .setRole pubkey => "set_role: account not found: " ++ pubkey
  | .setBanned pubkey => "set_banned: account not found: " ++ pubkey
  | .bannedReporter => "banned account cannot file reports"
  | .closeReport id => "close_report: report id " ++ toString id ++ " not found"

/-- `str::contains`. -/
def contains (text part : String) : Bool := decide (part.toList <:+: text.toList)

/-- A refusal of a banned account, told by the text of the error. -/
def isBannedErr (text : String) : Bool := contains text "is banned" || contains text "banned account"

/-- `u64` to `i64`, wrapping. -/
def asI64 (n : U64) : Int := if n.val < 2 ^ 63 then n.val else n.val - 2 ^ 64

namespace NodeEnv

def served (env : NodeEnv) : List HashDomain :=
  env.native :: if env.addedSha256 = true ∧ env.native ≠ .sha256 then [.sha256] else []

def verifies (env : NodeEnv) (sub : Submission) : Bool :=
  match verify env.unicode env.scheme sub with
  | .ok () => true
  | .error _ => false

/-- What the signature of a request covers when its timestamp is `ts`. -/
def authRequest (env : NodeEnv) (method : String) (param : Option String) (ts : Int)
    (req : Request) : AuthRequest :=
  ⟨method, req.path, requestedDomain env.unicode param, ts, req.body⟩

def authenticate (env : NodeEnv) (method : String) (param : Option String) (now : Int)
    (req : Request) : Except Reply String :=
  let key := req.headers.key.getD ""
  match parseI64 (req.headers.ts.getD "") with
  | none => .error (.text 401 "x-naiad-ts: not a valid integer")
  | some ts =>
    match verifyAuth env.scheme env.blake3 key (req.headers.sig.getD "")
        (env.authRequest method param ts req) now with
    | .error e => .error (.text 401 ("auth failed: " ++ e))
    | .ok () => .ok key

/-- The gates of a write route: a node that takes writes, a request for its native domain, and a
fresh signature. -/
def gated (env : NodeEnv) (refusal : HashDomain → String) (param : Option String) (now : Int)
    (req : Request) : Except Reply String :=
  if env.readOnly then
    .error (.text 403 "this repo is serving read-only; writes are disabled")
  else
    match resolveDomain env.unicode param env.served env.native with
    | .error e => .error (.domain e)
    | .ok domain =>
      if domain ≠ env.native then .error (.text 400 (refusal domain))
      else env.authenticate req.method param now req

def submitRefusal (domain : HashDomain) : String :=
  "push not available in snapshot mode: this repo cannot accept submissions for the " ++
    domain.asStr ++ " domain"

def reportRefusal (env : NodeEnv) (domain : HashDomain) : String :=
  "reports apply only to the repo's native domain (" ++ env.native.asStr ++ "); the " ++
    domain.asStr ++
    " domain is served by a read-only snapshot and reports against it cannot be remedied"

def moderateRefusal (env : NodeEnv) (domain : HashDomain) : String :=
  "moderation applies only to the repo's native domain (" ++ env.native.asStr ++ "); the " ++
    domain.asStr ++
    " domain is served by a read-only snapshot — moderation actions against it are silent no-ops"

end NodeEnv

/-! ## The handlers -/

namespace NodeDb

variable (env : NodeEnv) (db : NodeDb)

/-- `POST /repo/submit` -/
def submitHandler (param : Option String) (now ts : Int) (req : Request) : NodeDb × Reply :=
  match env.gated NodeEnv.submitRefusal param now req with
  | .error r => (db, r)
  | .ok _ =>
    match env.submissionOf req.body with
    | .error e => (db, .text 400 ("bad request body: " ++ e))
    | .ok sub =>
      match verify env.unicode env.scheme sub with
      | .error e => (db, .text 400 ("bad submission signature: " ++ e))
      | .ok () =>
        let out := db.toRepoStore.applySubmission env.verifies ts sub
        match out.2 with
        | .ok () => (db.setStore out.1, .noContent)
        | .error e =>
          (db.setStore out.1,
            if isBannedErr e.text then .text 403 "account is banned" else .text 500 e.text)

/-- `POST /repo/report` -/
def reportHandler (param : Option String) (now : Int) (req : Request) : NodeDb × Reply :=
  match env.gated env.reportRefusal param now req with
  | .error r => (db, r)
  | .ok pubkey =>
    match env.reportOf req.body with
    | .error e => (db, .text 400 ("bad report body: " ++ e))
    | .ok report =>
      match db.insertReport report.hash report.tag pubkey report.note now with
      | .ok db' => (db', .noContent)
      | .error e =>
        (db, if isBannedErr e.text then .text 403 "account is banned" else .text 500 e.text)

/-- `GET /repo/reports` -/
def reportsHandler (now : Int) (req : Request) : NodeDb × Reply :=
  match env.authenticate "GET" none now { req with body := [] } with
  | .error r => (db, r)
  | .ok pubkey =>
    if db.isModerator pubkey then (db, .reports db.openReports)
    else (db, .text 403 "not a moderator")

def moderate (action : ModerateAction) : Except NodeError NodeDb :=
  match action with
  | .deleteMapping hash tag => db.moderatorDeleteMapping hash tag
  | .ban target => db.setBanned target true
  | .dismiss reportId => db.closeReport (asI64 reportId)

/-- `POST /repo/moderate` -/
def moderateHandler (param : Option String) (now : Int) (req : Request) : NodeDb × Reply :=
  match env.gated env.moderateRefusal param now req with
  | .error r => (db, r)
  | .ok pubkey =>
    match env.actionOf req.body with
    | .error e => (db, .text 400 ("bad action body: " ++ e))
    | .ok action =>
      if db.isModerator pubkey then
        match db.moderate action with
        | .ok db' => (db', .noContent)
        | .error _ => (db, .failed)
      else (db, .text 403 "not a moderator")

/-- `POST /repo/relations/submit`; the only write route that takes no request signature. -/
def relationsSubmitHandler (ts : Int) (sub : RelationSubmission) : NodeDb × Reply :=
  if env.readOnly then
    (db, .text 403 "this repo is serving read-only; writes are disabled")
  else
    match verifyRelation env.unicode env.scheme sub with
    | .error e => (db, .text 400 ("invalid relation: " ++ e))
    | .ok () =>
      let out := db.toRepoDb.applyRelation ts sub
      ({ db with toRepoDb := out.1 },
        match out.2 with
        | .ok () => .noContent
        | .error e => .text 500 e.text)

/-- One request: the route, then what the framework takes apart before the handler. -/
def handle (now ts : Int) (req : Request) : NodeDb × Reply :=
  if req.method = "POST" ∧ req.path ∈ [repoSubmit, repoReport, repoModerate] then
    match env.domainParam req.query with
    | none => (db, .rejected 400)
    | some param =>
      if bodyLimit < req.body.length then (db, .rejected 413)
      else if req.path = repoSubmit then db.submitHandler env param now ts req
      else if req.path = repoReport then db.reportHandler env param now req
      else db.moderateHandler env param now req
  else if req.method = "POST" ∧ req.path = repoRelationsSubmit then
    match env.relationOf req.body with
    | .error status => (db, .rejected status)
    | .ok sub => db.relationsSubmitHandler env ts sub
  else if (req.method = "GET" ∨ req.method = "HEAD") ∧ req.path = repoReports then
    db.reportsHandler env now req
  else (db, .otherRoute)

end NodeDb

/-! ## Runs -/

/-- Anything that writes: a request, a command of the operator, or a load of the bridge. -/
inductive Act
  | request (now ts : Int) (req : Request)
  | promote (pubkey : String)
  | ban (pubkey : String)
  | delete (hash tag : String)
  | dismiss (id : Int)
  | seedOne (ts : Int) (sub : Submission)
  | seedFile (account : Account) (ts : Int) (items : List (Hash × Tag))
  | bulk (items : List (String × String × Bool))
  | bridgeRelations (ts : Int) (rows : List RelationSubmission)

/-- A command that fails leaves the database as it is. -/
def NodeDb.orKeep (db : NodeDb) : Except NodeError NodeDb → NodeDb
  | .ok db' => db'
  | .error _ => db

def NodeDb.step (env : NodeEnv) (db : NodeDb) : Act → NodeDb
  | .request now ts req => (db.handle env now ts req).1
  | .promote pubkey => db.orKeep (db.setRole pubkey .moderator)
  | .ban pubkey => db.orKeep (db.setBanned pubkey true)
  | .delete hash tag => db.orKeep (db.moderatorDeleteMapping hash tag)
  | .dismiss id => db.orKeep (db.closeReport id)
  | .seedOne ts sub => db.setStore (db.toRepoStore.applySubmission env.verifies ts sub).1
  | .seedFile account ts items => db.setStore (db.toRepoStore.seedMappings account ts items).1
  | .bulk items =>
    match db.toRepoStore.applyMappingsBulk items with
    | .ok st => db.setStore st.store
    | .error _ => db
  | .bridgeRelations ts rows =>
    match db.toRepoDb.applyBridgeRelations ts rows with
    | .ok (db', _) => { db with toRepoDb := db' }
    | .error _ => db

/-! ## What a request has shown -/

section

variable {env : NodeEnv} {db : NodeDb} {refusal : HashDomain → String} {param : Option String}
  {now ts : Int} {req : Request} {key : String}

theorem authenticate_ok {method : String} : env.authenticate method param now req = .ok key ↔
    key = req.headers.key.getD "" ∧ ∃ at_, parseI64 (req.headers.ts.getD "") = some at_ ∧
      verifyAuth env.scheme env.blake3 key (req.headers.sig.getD "")
        (env.authRequest method param at_ req) now = .ok () := by
  unfold NodeEnv.authenticate
  cases hts : parseI64 (req.headers.ts.getD "") with
  | none => simp
  | some at_ =>
    simp only [Option.some.injEq]
    constructor
    · intro h
      split at h
      · cases h
      · rename_i hv
        cases h
        exact ⟨rfl, at_, rfl, hv⟩
    · rintro ⟨rfl, _, rfl, hv⟩
      rw [hv]

theorem gated_ok : env.gated refusal param now req = .ok key ↔ env.readOnly = false ∧
    resolveDomain env.unicode param env.served env.native = .ok env.native ∧
      env.authenticate req.method param now req = .ok key := by
  unfold NodeEnv.gated
  cases env.readOnly with
  | true => simp
  | false =>
    cases hres : resolveDomain env.unicode param env.served env.native with
    | error e => simp
    | ok domain =>
      by_cases hd : domain = env.native
      · simp [hd]
      · simp [hd]

/-- A write request that got past the framework and the gates. -/
structure Passed (env : NodeEnv) (path : String) (refusal : HashDomain → String)
    (param : Option String) (now : Int) (req : Request) (key : String) : Prop where
  method : req.method = "POST"
  path : req.path = path
  query : env.domainParam req.query = some param
  size : req.body.length ≤ bodyLimit
  gated : env.gated refusal param now req = .ok key

/-- What a request does to the database: nothing, or what its route writes for a request that
passed every check. -/
inductive Effect (env : NodeEnv) (db : NodeDb) (now ts : Int) (req : Request) : NodeDb → Prop
  | keep : Effect env db now ts req db
  | submit {param : Option String} {key : String} {sub : Submission} :
      Passed env repoSubmit NodeEnv.submitRefusal param now req key →
      env.submissionOf req.body = .ok sub → verify env.unicode env.scheme sub = .ok () →
      Effect env db now ts req
        (db.setStore (db.toRepoStore.applySubmission env.verifies ts sub).1)
  | report {param : Option String} {key : String} {report : Report} {db' : NodeDb} :
      Passed env repoReport env.reportRefusal param now req key →
      env.reportOf req.body = .ok report →
      db.insertReport report.hash report.tag key report.note now = .ok db' →
      Effect env db now ts req db'
  | moderate {param : Option String} {key : String} {action : ModerateAction} {db' : NodeDb} :
      Passed env repoModerate env.moderateRefusal param now req key →
      env.actionOf req.body = .ok action → db.isModerator key = true →
      db.moderate action = .ok db' → Effect env db now ts req db'
  | relation {sub : RelationSubmission} :
      req.method = "POST" → req.path = repoRelationsSubmit →
      env.relationOf req.body = .ok sub → verifyRelation env.unicode env.scheme sub = .ok () →
      Effect env db now ts req { db with toRepoDb := (db.toRepoDb.applyRelation ts sub).1 }

theorem submitHandler_effect (hm : req.method = "POST") (hp : req.path = repoSubmit)
    (hq : env.domainParam req.query = some param) (hs : req.body.length ≤ bodyLimit) :
    Effect env db now ts req (db.submitHandler env param now ts req).1 := by
  unfold NodeDb.submitHandler
  split
  · exact .keep
  · rename_i key hgate
    split
    · exact .keep
    · rename_i sub hsub
      split
      · exact .keep
      · rename_i hv
        have heff : Effect env db now ts req _ := .submit ⟨hm, hp, hq, hs, hgate⟩ hsub hv
        simp only
        split <;> exact heff

theorem reportHandler_effect (hm : req.method = "POST") (hp : req.path = repoReport)
    (hq : env.domainParam req.query = some param) (hs : req.body.length ≤ bodyLimit) :
    Effect env db now ts req (db.reportHandler env param now req).1 := by
  unfold NodeDb.reportHandler
  split
  · exact .keep
  · rename_i key hgate
    split
    · exact .keep
    · rename_i report hreport
      split
      · rename_i db' hins
        exact .report ⟨hm, hp, hq, hs, hgate⟩ hreport hins
      · exact .keep

theorem moderateHandler_effect (hm : req.method = "POST") (hp : req.path = repoModerate)
    (hq : env.domainParam req.query = some param) (hs : req.body.length ≤ bodyLimit) :
    Effect env db now ts req (db.moderateHandler env param now req).1 := by
  unfold NodeDb.moderateHandler
  split
  · exact .keep
  · rename_i key hgate
    split
    · exact .keep
    · rename_i action haction
      split
      · rename_i hmod
        split
        · rename_i db' hact
          exact .moderate ⟨hm, hp, hq, hs, hgate⟩ haction hmod hact
        · exact .keep
      · exact .keep

theorem relationsSubmitHandler_effect {sub : RelationSubmission}
    (hm : req.method = "POST") (hp : req.path = repoRelationsSubmit)
    (hr : env.relationOf req.body = .ok sub) :
    Effect env db now ts req (db.relationsSubmitHandler env ts sub).1 := by
  unfold NodeDb.relationsSubmitHandler
  split
  · exact .keep
  · split
    · exact .keep
    · rename_i hv
      exact .relation hm hp hr hv

theorem reportsHandler_db : (db.reportsHandler env now req).1 = db := by
  unfold NodeDb.reportsHandler
  split
  · rfl
  · split <;> rfl

theorem handle_effect (env : NodeEnv) (db : NodeDb) (now ts : Int) (req : Request) :
    Effect env db now ts req (db.handle env now ts req).1 := by
  unfold NodeDb.handle
  split
  · rename_i hroute
    obtain ⟨hm, hpath⟩ := hroute
    split
    · exact .keep
    · rename_i param hq
      split
      · exact .keep
      · rename_i hsize
        have hs := not_lt.1 hsize
        split
        · exact submitHandler_effect hm (by assumption) hq hs
        · split
          · exact reportHandler_effect hm (by assumption) hq hs
          · have hp : req.path = repoModerate := by simp_all
            exact moderateHandler_effect hm hp hq hs
  · split
    · rename_i hroute
      split
      · exact .keep
      · exact relationsSubmitHandler_effect hroute.1 hroute.2 (by assumption)
    · split
      · rw [reportsHandler_db]
        exact .keep
      · exact .keep

/-! ## The tables -/

/-- What the schema and the transactions keep: sound tables with their index, and report columns
that stand in rows. -/
structure NodeDb.Wellformed (db : NodeDb) : Prop where
  sound : db.Sound
  index : db.hashUniqueIndex = true
  paired : db.Paired

theorem wellformed_empty : NodeDb.empty.Wellformed := ⟨RepoStore.sound_empty, rfl, rfl⟩

theorem NodeDb.Wellformed.setStore {db : NodeDb} (h : db.Wellformed) {s : RepoStore} (hs : s.Sound)
    (hi : s.hashUniqueIndex = db.hashUniqueIndex) (hr : s.reports.length = db.reports.length) :
    (db.setStore s).Wellformed := by
  refine ⟨hs, hi.trans h.index, ?_⟩
  have hp := h.paired
  simp only [NodeDb.Paired] at hp
  simp [NodeDb.Paired, hr, hp]

theorem wellformed_submission {db : NodeDb} (h : db.Wellformed) (v : Submission → Bool) (ts : Int)
    (sub : Submission) : (db.setStore (db.toRepoStore.applySubmission v ts sub).1).Wellformed := by
  have ho := opens_applySubmission v db.toRepoStore ts sub
  refine h.setStore (evolves_applySubmission v h.sound ts sub).sound ?_ (by rw [ho.reports])
  rcases applySubmission_cases v db.toRepoStore ts sub with ⟨_, _, heq | heq⟩ | ⟨hash, _, heq⟩
  · rw [heq]
  · rw [heq]
    exact RepoStore.ensureAccount_index _ _ _
  · have hs := (evolves_ensureAccount h.sound 0 sub.author ts).sound
    rw [heq]
    exact (wrote_applySubmissionTx hs ts sub hash).hashUniqueIndex.trans
      (RepoStore.ensureAccount_index _ _ _)

theorem wellformed_seedFile {db : NodeDb} (h : db.Wellformed) (account : Account) (ts : Int)
    (items : List (Hash × Tag)) :
    (db.setStore (db.toRepoStore.seedMappings account ts items).1).Wellformed := by
  have ho := opens_seedMappings db.toRepoStore account ts items
  refine h.setStore (evolves_seedMappings h.sound account ts items).sound ?_ (by rw [ho.reports])
  rcases wrote_seedMappings h.sound account ts items with ⟨_, heq⟩ | ⟨_, hw⟩
  · rw [heq]
    exact RepoStore.ensureAccount_index _ _ _
  · exact hw.hashUniqueIndex

theorem wellformed_bulk {db : NodeDb} (h : db.Wellformed) {items : List (String × String × Bool)}
    {st : BulkState} (hst : db.toRepoStore.applyMappingsBulk items = .ok st) :
    (db.setStore st.store).Wellformed := by
  obtain ⟨st', hst', hw, _⟩ := wrote_applyMappingsBulk h.sound h.index items
  rw [hst] at hst'
  cases hst'
  exact h.setStore (evolves_applyMappingsBulk h.sound hst).sound hw.hashUniqueIndex
    (by rw [(opens_applyMappingsBulk hst).reports])

theorem wellformed_setRelations {db : NodeDb} (h : db.Wellformed) {db' : RepoDb}
    (hstore : db'.toRepoStore = db.toRepoStore ∨
      ∃ author ts, db'.toRepoStore = db.toRepoStore.ensureAccount author ts) :
    ({ db with toRepoDb := db' } : NodeDb).Wellformed := by
  obtain ⟨s, rels⟩ := db'
  simp only at hstore
  have hbase : (db.setStore s).Wellformed := by
    rcases hstore with rfl | ⟨author, ts, rfl⟩
    · exact h
    · exact h.setStore (evolves_ensureAccount h.sound 0 _ _).sound
        (RepoStore.ensureAccount_index _ _ _) (by rw [(opens_ensureAccount _ _ _).reports])
  exact ⟨hbase.sound, hbase.index, hbase.paired⟩

theorem applyRelation_store (db : RepoDb) (ts : Int) (sub : RelationSubmission) :
    (db.applyRelation ts sub).1.toRepoStore = db.toRepoStore.ensureAccount sub.author ts := by
  unfold RepoDb.applyRelation
  simp only
  split
  · rfl
  · split <;> rfl

theorem sound_reports {s : RepoStore} (hs : s.Sound) (reports : List ReportRow) :
    ({ s with reports := reports } : RepoStore).Sound :=
  ⟨hs.hashes, hs.tags, hs.refs, hs.seqs⟩

theorem setBanned_reports (s : RepoStore) (pubkey : String) (banned : Bool) :
    (s.setBanned pubkey banned).reports = s.reports := by
  unfold RepoStore.setBanned
  split <;> rfl

theorem setBanned_index (s : RepoStore) (pubkey : String) (banned : Bool) :
    (s.setBanned pubkey banned).hashUniqueIndex = s.hashUniqueIndex := by
  unfold RepoStore.setBanned
  split <;> rfl

theorem wellformed_moderate (action : ModerateAction) {db db' : NodeDb} (h : db.Wellformed)
    (hok : db.moderate action = .ok db') : db'.Wellformed := by
  cases action with
  | deleteMapping hash tag =>
    obtain ⟨s, hs, rfl, _⟩ := NodeDb.moderatorDeleteMapping_ok hok
    obtain ⟨hh, hid, tid, old, hdec, _, _, _, hstore⟩ := moderatorDeleteMapping_eq_ok hs
    refine h.setStore (evolves_moderatorDeleteMapping h.sound hs).sound
      (wrote_moderatorDeleteMapping hdec hs).hashUniqueIndex ?_
    rw [hstore]
    simp [RepoStore.closeReports, RepoStore.setMapping]
  | ban target =>
    simp only [NodeDb.moderate, NodeDb.setBanned] at hok
    split at hok
    · cases hok
      exact h.setStore (evolves_setBanned h.sound 0 target true).sound (setBanned_index _ _ _)
        (by rw [setBanned_reports])
    · cases hok
  | dismiss reportId =>
    simp only [NodeDb.moderate, NodeDb.closeReport] at hok
    split at hok
    · cases hok
      exact h.setStore (sound_reports h.sound _) rfl (by simp)
    · cases hok

theorem wellformed_closeReport {db db' : NodeDb} (h : db.Wellformed) {id : Int}
    (hok : db.closeReport id = .ok db') : db'.Wellformed := by
  unfold NodeDb.closeReport at hok
  split at hok
  · cases hok
    exact h.setStore (sound_reports h.sound _) rfl (by simp)
  · cases hok

theorem wellformed_handle (env : NodeEnv) {db : NodeDb} (h : db.Wellformed) (now ts : Int)
    (req : Request) : (db.handle env now ts req).1.Wellformed := by
  have heff := handle_effect env db now ts req
  generalize (db.handle env now ts req).1 = db' at heff
  cases heff with
  | keep => exact h
  | submit _ _ _ => exact wellformed_submission h _ _ _
  | report _ _ hins =>
    have hpaired := (NodeDb.reportRows_insertReport h.paired hins).1
    unfold NodeDb.insertReport at hins
    split at hins
    · cases hins
    · cases hins
      exact ⟨sound_reports h.sound _, h.index, hpaired⟩
  | moderate _ _ _ hact => exact wellformed_moderate _ h hact
  | relation _ _ _ _ => exact wellformed_setRelations h (.inr ⟨_, _, applyRelation_store _ _ _⟩)

theorem NodeDb.Wellformed.orKeep {db : NodeDb} (h : db.Wellformed) {out : Except NodeError NodeDb}
    (hok : ∀ db', out = .ok db' → db'.Wellformed) : (db.orKeep out).Wellformed := by
  cases out with
  | ok db' => exact hok db' rfl
  | error e => exact h

theorem wellformed_step (env : NodeEnv) {db : NodeDb} (h : db.Wellformed) (a : Act) :
    (db.step env a).Wellformed := by
  cases a with
  | request now ts req => exact wellformed_handle env h now ts req
  | promote pubkey =>
    refine h.orKeep ?_
    intro db' hok
    unfold NodeDb.setRole at hok
    split at hok
    · cases hok
      exact ⟨h.sound, h.index, h.paired⟩
    · cases hok
  | ban pubkey => exact h.orKeep fun _ hok => wellformed_moderate (.ban pubkey) h hok
  | delete hash tag =>
    exact h.orKeep fun _ hok => wellformed_moderate (.deleteMapping hash tag) h hok
  | dismiss id => exact h.orKeep fun _ hok => wellformed_closeReport h hok
  | seedOne ts sub => exact wellformed_submission h _ _ _
  | seedFile account ts items => exact wellformed_seedFile h account ts items
  | bulk items =>
    simp only [NodeDb.step]
    split
    · exact wellformed_bulk h (by assumption)
    · exact h
  | bridgeRelations ts rows =>
    simp only [NodeDb.step]
    split
    · rename_i db' n hok
      refine wellformed_setRelations h ?_
      rcases (relationStatuses_applyBridgeRelations hok).1 with hsame | ⟨author, hauthor⟩
      · exact .inl hsame
      · exact .inr ⟨author, ts, hauthor⟩
    · exact h

end

end Server
end Naiad
