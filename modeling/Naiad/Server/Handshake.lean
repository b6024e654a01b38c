import Naiad.Server.Moderation

/-!
# Naiad.Server.Handshake

A client against a node. The client signs a request by its own clock and sends it; the node takes
the request apart, rebuilds the signed frame, and checks it by its own. What the node serves is then
a matter of what it holds and of the clocks, and a request it does not serve changes nothing.

* `KeyHolder`: the key of a client, and the requests it signs.
* `Call.Granted`: what a call needs of the node.
* `Call.Done`: what a call does there.
* `refused_keeps`: whatever is sent, an answer that is no success leaves the database as it was.
* `call_answered`: **after any run a call is served just when it is granted, and does what it
  says**.
-/

namespace Naiad
namespace Server

open Lib Netproto

/-! ## The client -/

/-- How a client writes the bodies of its requests. -/
structure Encoders where
  submission : Submission → List Byte
  report : Report → List Byte
  action : ModerateAction → List Byte
  relation : RelationSubmission → List Byte

/-- A key under a spelling of its public half, which names the account. -/
structure KeyHolder (scheme : Ed25519) where
  key : SigningKey scheme
  name : String
  spells : hexDecode name = some key.verifying

namespace KeyHolder

variable {scheme : Ed25519}

/-- The repository's own client spells its key in lowercase. -/
def ofKey (k : SigningKey scheme) : KeyHolder scheme := ⟨k, k.publicHex, k.hexDecode_publicHex⟩

def signWithOrigin (c : KeyHolder scheme) (op : Op) (hash : Hash) (tag : Tag)
    (origin : Option String) : Submission where
  version := protocolVersion
  op := op
  hash := hash.toHex
  tag := tag.display
  author := c.name
  signature := c.key.sign (canonicalBytes op hash.toHex tag.display origin)
  origin := origin

def signRelation (c : KeyHolder scheme) (op : Op) (kind : RelKind) (fromTag toTag : Tag) :
    RelationSubmission where
  version := protocolVersion
  op := op
  kind := kind
  fromTag := fromTag.display
  toTag := toTag.display
  author := c.name
  signature := c.key.sign (relationCanonicalBytes op kind fromTag.display toTag.display)
  origin := none

variable (c : KeyHolder scheme) (blake3 : List Byte → Hash) (enc : Encoders)

/-- A request with the three headers, for the native domain. -/
def signed (method path : String) (ts : Int) (body : List Byte) : Request where
  method := method
  path := path
  query := ""
  headers := ⟨some c.name, some (toString ts),
    some (c.key.signAuth blake3 ⟨method, path, none, ts, body⟩)⟩
  body := body

def submit (ts : Int) (sub : Submission) : Request :=
  c.signed blake3 "POST" repoSubmit ts (enc.submission sub)

def report (ts : Int) (r : Report) : Request :=
  c.signed blake3 "POST" repoReport ts (enc.report r)

def fetchReports (ts : Int) : Request := c.signed blake3 "GET" repoReports ts []

def moderate (ts : Int) (action : ModerateAction) : Request :=
  c.signed blake3 "POST" repoModerate ts (enc.action action)

end KeyHolder

def submitRelation (enc : Encoders) (sub : RelationSubmission) : Request where
  method := "POST"
  path := repoRelationsSubmit
  query := ""
  headers := ⟨none, none, none⟩
  body := enc.relation sub

/-! ## Calls -/

/-- What a client may ask of a node. -/
inductive Call
  | submit (op : Op) (hash : Hash) (tag : Tag) (origin : Option String)
  | report (r : Report)
  | fetchReports
  | moderate (action : ModerateAction)
  | submitRelation (op : Op) (kind : RelKind) (fromTag toTag : Tag)

/-- The action names something the node has. -/
def ModerateAction.Possible (db : NodeDb) : ModerateAction → Prop
  | .deleteMapping hash tag => ∃ h, decodeHash hash = .ok h ∧ db.statuses (h, tag) ≠ none
  | .ban target => target ∈ db.accounts
  | .dismiss id => 1 ≤ asI64 id ∧ asI64 id ≤ db.reportRows.length

def ModerateAction.Done (db db' : NodeDb) : ModerateAction → Prop
  | .deleteMapping hash tag =>
    (∃ h, decodeHash hash = .ok h ∧ db'.statuses = write db.statuses ((h, tag), .deleted)) ∧
      db'.reportRows = db.reportRows.map fun r =>
        if r.hash = hash ∧ r.tag = tag then NodeDb.closed r else r
  | .ban target =>
    db'.statuses = db.statuses ∧ db'.reportRows = db.reportRows ∧
      ∀ k, db'.isBanned k = true ↔ k = target ∨ db.isBanned k = true
  | .dismiss id =>
    db'.statuses = db.statuses ∧ db'.reportRows = db.reportRows.map fun r =>
      if (r.id : Int) = asI64 id then NodeDb.closed r else r

/-- The node takes writes, and its clock is within five minutes of the client's. -/
def Open (env : NodeEnv) (now at_ : Int) : Prop := env.readOnly = false ∧ (now - at_).natAbs ≤ 300

namespace Call

variable {scheme : Ed25519}

def request (c : KeyHolder scheme) (blake3 : List Byte → Hash) (enc : Encoders) (at_ : Int) :
    Call → Request
  | .submit op hash tag origin =>
    c.submit blake3 enc at_ (c.signWithOrigin op hash tag origin)
  | .report r => c.report blake3 enc at_ r
  | .fetchReports => c.fetchReports blake3 at_
  | .moderate action => c.moderate blake3 enc at_ action
  | .submitRelation op kind fromTag toTag =>
    Server.submitRelation enc (c.signRelation op kind fromTag toTag)

/-- The node reads back the body of the call, which is within its limit. -/
def Carried (env : NodeEnv) (enc : Encoders) (c : KeyHolder scheme) : Call → Prop
  | .submit op hash tag origin =>
    (enc.submission (c.signWithOrigin op hash tag origin)).length ≤ bodyLimit ∧
      env.submissionOf (enc.submission (c.signWithOrigin op hash tag origin)) =
        .ok (c.signWithOrigin op hash tag origin)
  | .report r => (enc.report r).length ≤ bodyLimit ∧ env.reportOf (enc.report r) = .ok r
  | .fetchReports => True
  | .moderate action =>
    (enc.action action).length ≤ bodyLimit ∧ env.actionOf (enc.action action) = .ok action
  | .submitRelation op kind fromTag toTag =>
    env.relationOf (enc.relation (c.signRelation op kind fromTag toTag)) =
      .ok (c.signRelation op kind fromTag toTag)

/-- What a call needs. A relation is not dated: it is taken at any time. -/
def Granted (env : NodeEnv) (db : NodeDb) (name : String) (now at_ : Int) : Call → Prop
  | .submit _ _ tag origin => Open env now at_ ∧ db.isBanned name = false ∧
      checkTag env.unicode "submission tag" tag.display = .ok () ∧
      checkOrigin env.unicode origin = .ok ()
  | .report _ => Open env now at_ ∧ db.isBanned name = false
  | .fetchReports => (now - at_).natAbs ≤ 300 ∧ db.isModerator name = true
  | .moderate action => Open env now at_ ∧ db.isModerator name = true ∧
      ModerateAction.Possible db action
  | .submitRelation _ _ fromTag toTag => env.readOnly = false ∧ db.isBanned name = false ∧
      checkTag env.unicode "relation from-tag" fromTag.display = .ok () ∧
      checkTag env.unicode "relation to-tag" toTag.display = .ok () ∧
      fromTag.display ≠ toTag.display

/-- What a call that is served does, with its answer. -/
def Done (c : KeyHolder scheme) (now ts : Int) (db db' : NodeDb) (reply : Reply) : Call → Prop
  | .submit op hash tag origin => reply = .noContent ∧
      db'.statuses = write db.statuses ((hash, tag.display), op.status) ∧
      db'.submissions = db.submissions ++
        [Submission.logged (c.signWithOrigin op hash tag origin) ts] ∧
      db'.reportRows = db.reportRows
  | .report r => reply = .noContent ∧ db'.statuses = db.statuses ∧
      db'.reportRows = db.reportRows ++
        [⟨db.reportRows.length + 1, r.hash, r.tag, c.name, r.note, now, true⟩]
  | .fetchReports => reply = .reports db.openReports ∧ db' = db
  | .moderate action => reply = .noContent ∧ ModerateAction.Done db db' action
  | .submitRelation op kind fromTag toTag => reply = .noContent ∧ db'.statuses = db.statuses ∧
      ∀ k, db'.relationStatuses k =
        if ⟨kind, fromTag.display, toTag.display, c.name⟩ = k then
          absorb (db.relationStatuses k) op.status
        else db.relationStatuses k

end Call

/-! ## The node's side of a write -/

section

variable {env : NodeEnv} {db : NodeDb} {param : Option String} {now ts : Int} {req : Request}

/-- A submission that verifies names a hash, so nothing but a ban stops it. -/
theorem applySubmission_admitted {s : RepoStore} {sub : Submission}
    (hv : verify env.unicode env.scheme sub = .ok ()) (hb : s.isBanned sub.author = false)
    (ts : Int) :
    ∃ hash, decodeHash sub.hash = .ok hash ∧ s.applySubmission env.verifies ts sub =
      ((s.ensureAccount sub.author ts).applySubmissionTx ts sub hash, .ok ()) := by
  have hver : env.verifies sub = true := by simp [NodeEnv.verifies, hv]
  obtain ⟨hash, hhash⟩ := (verify_ok hv).1
  have hdec : decodeHash sub.hash = .ok hash := by rw [← hhash, decodeHash_toHex]
  refine ⟨hash, hdec, ?_⟩
  rw [RepoStore.applySubmission, if_neg (by simp [hver]), RepoStore.isBanned_ensureAccount,
    if_neg (by simp [hb]), hdec]

theorem hexDecode_of_verifyRelation {u : Unicode} {scheme : Ed25519} {sub : RelationSubmission}
    (h : verifyRelation u scheme sub = .ok ()) : ∃ sig, hexDecode sub.signature = some sig := by
  have hne := (verifyRelation_ok h).2.2
  obtain ⟨_, _, h⟩ := bind_eq_ok.1 h
  obtain ⟨_, _, h⟩ := bind_eq_ok.1 h
  obtain ⟨_, _, h⟩ := bind_eq_ok.1 h
  simp only [if_neg hne] at h
  obtain ⟨_, _, h⟩ := bind_eq_ok.1 h
  obtain ⟨sig, hsig, _⟩ := bind_eq_ok.1 h
  unfold decodeSignature at hsig
  split at hsig
  · cases hsig
  · exact ⟨_, by assumption⟩

theorem applyRelation_admitted {r : RepoDb} {sub : RelationSubmission}
    (hv : verifyRelation env.unicode env.scheme sub = .ok ()) (hb : r.isBanned sub.author = false)
    (ts : Int) : (r.applyRelation ts sub).2 = .ok () := by
  obtain ⟨sig, hsig⟩ := hexDecode_of_verifyRelation hv
  unfold RepoDb.applyRelation
  simp only [RepoStore.isBanned_ensureAccount, hb, hsig]
  rfl

/-! ## Answers -/

theorem accepts_ite {p : Prop} [Decidable p] {s t : Nat} {a b : String} :
    (if p then Reply.text s a else .text t b).accepts = false := by
  split <;> rfl

/-- A handler served its request, or changed nothing. -/
def Settled (db : NodeDb) (out : NodeDb × Reply) (served : NodeDb × Reply → Prop) : Prop :=
  out.2.accepts = false ∧ out.1 = db ∨ served out

theorem submitHandler_settled (env : NodeEnv) (db : NodeDb) (param : Option String) (now ts : Int)
    (req : Request) :
    Settled db (db.submitHandler env param now ts req) fun out => ∃ key sub hash,
      env.gated NodeEnv.submitRefusal param now req = .ok key ∧
        env.submissionOf req.body = .ok sub ∧ verify env.unicode env.scheme sub = .ok () ∧
        db.isBanned sub.author = false ∧ decodeHash sub.hash = .ok hash ∧
        out = (db.setStore ((db.ensureAccount sub.author ts).applySubmissionTx ts sub hash),
          .noContent) := by
  unfold NodeDb.submitHandler
  cases hgate : env.gated NodeEnv.submitRefusal param now req with
  | error r => exact .inl ⟨gated_refused hgate, rfl⟩
  | ok key =>
    cases hbody : env.submissionOf req.body with
    | error e => exact .inl ⟨rfl, rfl⟩
    | ok sub =>
      cases hv : verify env.unicode env.scheme sub with
      | error e =>
        simp only [hv]
        exact .inl ⟨rfl, rfl⟩
      | ok _ =>
        cases hb : db.isBanned sub.author with
        | true =>
          obtain ⟨hkeep, e, he⟩ := applySubmission_banned env.verifies ts hb
          simp only [hv, he, hkeep]
          exact .inl ⟨accepts_ite, rfl⟩
        | false =>
          obtain ⟨hash, hdec, heq⟩ := applySubmission_admitted hv hb ts
          simp only [hv, heq]
          exact .inr ⟨key, sub, hash, rfl, rfl, hv, hb, hdec, rfl⟩

theorem reportHandler_settled (env : NodeEnv) (db : NodeDb) (param : Option String) (now : Int)
    (req : Request) :
    Settled db (db.reportHandler env param now req) fun out => ∃ key report db',
      env.gated env.reportRefusal param now req = .ok key ∧ env.reportOf req.body = .ok report ∧
        db.insertReport report.hash report.tag key report.note now = .ok db' ∧
        out = (db', .noContent) := by
  unfold NodeDb.reportHandler
  cases hgate : env.gated env.reportRefusal param now req with
  | error r => exact .inl ⟨gated_refused hgate, rfl⟩
  | ok key =>
    cases hbody : env.reportOf req.body with
    | error e => exact .inl ⟨rfl, rfl⟩
    | ok report =>
      cases hins : db.insertReport report.hash report.tag key report.note now with
      | error e =>
        simp only [hins]
        exact .inl ⟨accepts_ite, rfl⟩
      | ok db' =>
        simp only [hins]
        exact .inr ⟨key, report, db', rfl, rfl, hins, rfl⟩

theorem reportsHandler_settled (env : NodeEnv) (db : NodeDb) (now : Int) (req : Request) :
    Settled db (db.reportsHandler env now req) fun out => ∃ key,
      env.authenticate "GET" none now { req with body := [] } = .ok key ∧
        db.isModerator key = true ∧ out = (db, .reports db.openReports) := by
  unfold NodeDb.reportsHandler
  cases hauth : env.authenticate "GET" none now { req with body := [] } with
  | error r => exact .inl ⟨authenticate_refused hauth, rfl⟩
  | ok key =>
    cases hmod : db.isModerator key with
    | true =>
      simp only [hmod, if_true]
      exact .inr ⟨key, rfl, hmod, rfl⟩
    | false =>
      simp only [hmod]
      exact .inl ⟨rfl, rfl⟩

theorem moderateHandler_settled (env : NodeEnv) (db : NodeDb) (param : Option String) (now : Int)
    (req : Request) :
    Settled db (db.moderateHandler env param now req) fun out => ∃ key action db',
      env.gated env.moderateRefusal param now req = .ok key ∧
        env.actionOf req.body = .ok action ∧ db.isModerator key = true ∧
        db.moderate action = .ok db' ∧ out = (db', .noContent) := by
  unfold NodeDb.moderateHandler
  cases hgate : env.gated env.moderateRefusal param now req with
  | error r => exact .inl ⟨gated_refused hgate, rfl⟩
  | ok key =>
    cases hbody : env.actionOf req.body with
    | error e => exact .inl ⟨rfl, rfl⟩
    | ok action =>
      cases hmod : db.isModerator key with
      | false =>
        simp only [hmod]
        exact .inl ⟨rfl, rfl⟩
      | true =>
        cases hact : db.moderate action with
        | error e =>
          simp only [hmod, hact, if_true]
          exact .inl ⟨rfl, rfl⟩
        | ok db' =>
          simp only [hmod, hact, if_true]
          exact .inr ⟨key, action, db', rfl, rfl, hmod, hact, rfl⟩

theorem relationsSubmitHandler_settled (env : NodeEnv) (db : NodeDb) (ts : Int)
    (sub : RelationSubmission) :
    Settled db (db.relationsSubmitHandler env ts sub) fun out => env.readOnly = false ∧
      verifyRelation env.unicode env.scheme sub = .ok () ∧ db.isBanned sub.author = false ∧
        out = ({ db with toRepoDb := (db.toRepoDb.applyRelation ts sub).1 }, .noContent) := by
  rw [NodeDb.relationsSubmitHandler]
  by_cases hread : env.readOnly = true
  · rw [if_pos hread]
    exact .inl ⟨rfl, rfl⟩
  · rw [if_neg hread]
    cases hv : verifyRelation env.unicode env.scheme sub with
    | error e => exact .inl ⟨rfl, rfl⟩
    | ok _ =>
      by_cases hb : db.isBanned sub.author = true
      · obtain ⟨hkeep, e, he⟩ := applyRelation_banned ts hb
        simp only [he, hkeep]
        exact .inl ⟨rfl, rfl⟩
      · have hb' := Bool.eq_false_iff.2 hb
        refine .inr ⟨Bool.eq_false_iff.2 hread, rfl, hb', ?_⟩
        simp only [applyRelation_admitted hv hb' ts]

theorem Settled.keeps {out : NodeDb × Reply} {served : NodeDb × Reply → Prop}
    (h : Settled db out served) (hs : ∀ o, served o → o.2.accepts = true) :
    out.2.accepts = true ∨ out.1 = db := by
  rcases h with ⟨_, hdb⟩ | h
  · exact .inr hdb
  · exact .inl (hs _ h)

theorem handle_keeps (env : NodeEnv) (db : NodeDb) (now ts : Int) (req : Request) :
    (db.handle env now ts req).2.accepts = true ∨ (db.handle env now ts req).1 = db := by
  unfold NodeDb.handle
  split
  · split
    · exact .inr rfl
    · split
      · exact .inr rfl
      · split
        · exact (submitHandler_settled env db _ now ts req).keeps <| by
              rintro _ ⟨_, _, _, _, _, _, _, _, rfl⟩
              rfl
        · split
          · exact (reportHandler_settled env db _ now req).keeps <| by
                rintro _ ⟨_, _, _, _, _, _, rfl⟩
                rfl
          · exact (moderateHandler_settled env db _ now req).keeps <| by
                rintro _ ⟨_, _, _, _, _, _, _, rfl⟩
                rfl
  · split
    · split
      · exact .inr rfl
      · exact (relationsSubmitHandler_settled env db ts _).keeps <| by
            rintro _ ⟨_, _, _, rfl⟩
            rfl
    · split
      · exact .inr reportsHandler_db
      · exact .inr rfl

/-- Whatever is sent, an answer that is no success leaves the database as it was. -/
theorem refused_keeps (env : NodeEnv) (db : NodeDb) (now ts : Int) (req : Request)
    (h : (db.handle env now ts req).2.accepts = false) : (db.handle env now ts req).1 = db :=
  (handle_keeps env db now ts req).resolve_left (by simp [h])

/-! ## The client's signatures -/

section

variable {scheme : Ed25519} (c : KeyHolder scheme)

theorem KeyHolder.verifyAuth (blake3 : List Byte → Hash) (req : AuthRequest) (now : Int) :
    verifyAuth scheme blake3 c.name (c.key.signAuth blake3 req) req now = .ok () ↔
      (now - req.timestamp).natAbs ≤ 300 := by
  rw [verifyAuth_ok]
  constructor
  · exact fun h => h.1
  · intro hfresh
    exact ⟨hfresh, c.key.verifying, _, authKey_ok.2 ⟨c.spells, c.key.size, c.key.isKey⟩,
      authSig_ok.2 ⟨c.key.hexDecode_sign _, c.key.sigSize _⟩, c.key.verifies _⟩

theorem KeyHolder.checkSignature (frame : ByteArray) :
    checkSignature scheme c.name (c.key.sign frame) frame = .ok () := by
  have hkey : decodeVerifyingKey scheme c.name = .ok c.key.verifying := by
    simp [decodeVerifyingKey, c.spells, c.key.size, c.key.isKey]
  have hsig : decodeSignature (c.key.sign frame) = .ok (scheme.sign c.key.seed frame) := by
    simp [decodeSignature, c.key.sigSize]
  rw [Netproto.checkSignature, hkey, hsig]
  simp [bind, Except.bind, c.key.verifies]

theorem KeyHolder.verify_signWithOrigin {u : Unicode} {op : Op} {hash : Hash} {tag : Tag}
    {origin : Option String} :
    verify u scheme (c.signWithOrigin op hash tag origin) = .ok () ↔
      checkTag u "submission tag" tag.display = .ok () ∧ checkOrigin u origin = .ok () := by
  constructor
  · intro h
    obtain ⟨_, _, h⟩ := bind_eq_ok.1 h
    obtain ⟨_, _, h⟩ := bind_eq_ok.1 h
    obtain ⟨_, htag, h⟩ := bind_eq_ok.1 h
    obtain ⟨_, horigin, _⟩ := bind_eq_ok.1 h
    exact ⟨htag, horigin⟩
  · rintro ⟨htag, horigin⟩
    exact verify_of rfl (checkHash_toHex hash) htag horigin (c.checkSignature _)

theorem KeyHolder.verifyRelation_signRelation {u : Unicode} {op : Op} {kind : RelKind}
    {fromTag toTag : Tag} :
    verifyRelation u scheme (c.signRelation op kind fromTag toTag) = .ok () ↔
      checkTag u "relation from-tag" fromTag.display = .ok () ∧
        checkTag u "relation to-tag" toTag.display = .ok () ∧
        fromTag.display ≠ toTag.display := by
  constructor
  · intro h
    have hne := (verifyRelation_ok h).2.2
    obtain ⟨_, _, h⟩ := bind_eq_ok.1 h
    obtain ⟨_, hfrom, h⟩ := bind_eq_ok.1 h
    obtain ⟨_, hto, _⟩ := bind_eq_ok.1 h
    exact ⟨hfrom, hto, hne⟩
  · rintro ⟨hfrom, hto, hne⟩
    exact verifyRelation_of rfl hfrom hto hne (c.checkSignature _)

end

/-! ## One call -/

variable {c : KeyHolder env.scheme} {enc : Encoders} {at_ : Int} {path : String} {body : List Byte}

theorem KeyHolder.authenticate (hat : IsI64 at_) {method : String} {key : String} :
    env.authenticate method none now (c.signed env.blake3 method path at_ body) = .ok key ↔
      key = c.name ∧ (now - at_).natAbs ≤ 300 := by
  rw [authenticate_ok]
  simp only [KeyHolder.signed, Option.getD_some, parseI64_toString hat, Option.some.injEq]
  constructor
  · rintro ⟨rfl, _, rfl, hv⟩
    exact ⟨rfl, (c.verifyAuth _ _ _).1 hv⟩
  · rintro ⟨rfl, hfresh⟩
    exact ⟨rfl, at_, rfl, (c.verifyAuth _ _ _).2 hfresh⟩

theorem KeyHolder.gated (hat : IsI64 at_) {refusal : HashDomain → String} {method key : String} :
    env.gated refusal none now (c.signed env.blake3 method path at_ body) = .ok key ↔
      key = c.name ∧ Open env now at_ := by
  rw [gated_ok]
  constructor
  · rintro ⟨hread, _, hauth⟩
    obtain ⟨hkey, hfresh⟩ := (KeyHolder.authenticate hat).1 hauth
    exact ⟨hkey, hread, hfresh⟩
  · rintro ⟨hkey, hread, hfresh⟩
    exact ⟨hread, rfl, (KeyHolder.authenticate hat).2 ⟨hkey, hfresh⟩⟩

/-- A signed request reaches the handler of its path. -/
theorem handle_signed (hquery : env.domainParam "" = some none)
    (hpath : path ∈ [repoSubmit, repoReport, repoModerate]) (hsize : body.length ≤ bodyLimit) :
    db.handle env now ts (c.signed env.blake3 "POST" path at_ body) =
      (let req := c.signed env.blake3 "POST" path at_ body
      if path = repoSubmit then db.submitHandler env none now ts req
      else if path = repoReport then db.reportHandler env none now req
      else db.moderateHandler env none now req) := by
  have hq : env.domainParam (c.signed env.blake3 "POST" path at_ body).query = some none := hquery
  have hs : ¬ bodyLimit < (c.signed env.blake3 "POST" path at_ body).body.length := not_lt.2 hsize
  rw [NodeDb.handle, if_pos ⟨rfl, hpath⟩]
  simp only [hq, if_neg hs]
  rfl

/-- What the handler of a call did, and that its conditions are enough for it. -/
structure Answered (out : NodeDb × Reply) (granted : Prop) (done : NodeDb → Reply → Prop) :
    Prop where
  accepts : out.2.accepts = true ↔ granted
  done : out.2.accepts = true → done out.1 out.2

theorem Settled.answered {out : NodeDb × Reply} {served : NodeDb × Reply → Prop} {granted : Prop}
    {done : NodeDb → Reply → Prop} (h : Settled db out served)
    (hserved : ∀ o, served o → o.2.accepts = true ∧ granted ∧ done o.1 o.2)
    (hgranted : granted → out.2.accepts = true) : Answered out granted done := by
  rcases h with ⟨hnot, _⟩ | h
  · have hnot' : ¬ out.2.accepts = true := by simp [hnot]
    exact ⟨⟨fun hs => absurd hs hnot', hgranted⟩, fun hs => absurd hs hnot'⟩
  · obtain ⟨hs, hg, hd⟩ := hserved _ h
    exact ⟨⟨fun _ => hg, fun _ => hs⟩, fun _ => hd⟩

theorem submitHandler_served {key : String} {sub : Submission}
    (hgate : env.gated NodeEnv.submitRefusal param now req = .ok key)
    (hbody : env.submissionOf req.body = .ok sub)
    (hv : verify env.unicode env.scheme sub = .ok ()) (hb : db.isBanned sub.author = false) :
    (db.submitHandler env param now ts req).2 = .noContent := by
  obtain ⟨hash, _, heq⟩ := applySubmission_admitted hv hb ts
  simp only [NodeDb.submitHandler, hgate, hbody, hv, heq]

theorem reportHandler_served {key : String} {report : Report}
    (hgate : env.gated env.reportRefusal param now req = .ok key)
    (hbody : env.reportOf req.body = .ok report) (hb : db.isBanned key = false) :
    (db.reportHandler env param now req).2 = .noContent := by
  have hnot : ¬ db.isBanned key = true := by simp [hb]
  simp only [NodeDb.reportHandler, hgate, hbody, NodeDb.insertReport, if_neg hnot]

theorem moderateHandler_served {key : String} {action : ModerateAction} {db' : NodeDb}
    (hgate : env.gated env.moderateRefusal param now req = .ok key)
    (hbody : env.actionOf req.body = .ok action) (hmod : db.isModerator key = true)
    (hact : db.moderate action = .ok db') :
    (db.moderateHandler env param now req).2 = .noContent := by
  simp only [NodeDb.moderateHandler, hgate, hbody, hmod, hact, if_true]

theorem relationsSubmitHandler_served {sub : RelationSubmission} (hread : env.readOnly = false)
    (hv : verifyRelation env.unicode env.scheme sub = .ok ())
    (hb : db.isBanned sub.author = false) :
    (db.relationsSubmitHandler env ts sub).2 = .noContent := by
  have hnot : ¬ env.readOnly = true := by simp [hread]
  simp only [NodeDb.relationsSubmitHandler, if_neg hnot, hv, applyRelation_admitted hv hb ts]

theorem not_banned_of_insertReport {db' : NodeDb} {hash tag reporter : String}
    {note : Option String} {at_ : Int}
    (h : db.insertReport hash tag reporter note at_ = .ok db') : db.isBanned reporter = false := by
  unfold NodeDb.insertReport at h
  split at h
  · cases h
  · rename_i hb
    exact Bool.eq_false_iff.2 hb

theorem statuses_insertReport {db' : NodeDb} {hash tag reporter : String}
    {note : Option String} {at_ : Int}
    (h : db.insertReport hash tag reporter note at_ = .ok db') : db'.statuses = db.statuses := by
  unfold NodeDb.insertReport at h
  split at h
  · cases h
  · cases h
    rfl


theorem answered_submit (hat : IsI64 at_) (hquery : env.domainParam "" = some none)
    (hwf : db.Wellformed) {op : Op} {hash : Hash} {tag : Tag} {origin : Option String}
    (hc : (Call.submit op hash tag origin).Carried env enc c) :
    Answered (db.handle env now ts ((Call.submit op hash tag origin).request c env.blake3 enc at_))
      ((Call.submit op hash tag origin).Granted env db c.name now at_)
      ((Call.submit op hash tag origin).Done c now ts db) := by
  obtain ⟨hsize, hbody⟩ := hc
  have hroute : db.handle env now ts
      ((Call.submit op hash tag origin).request c env.blake3 enc at_) =
      db.submitHandler env none now ts
        ((Call.submit op hash tag origin).request c env.blake3 enc at_) :=
    handle_signed hquery (by decide) hsize
  rw [hroute]
  refine (submitHandler_settled env db none now ts _).answered ?_ ?_
  · rintro _ ⟨key, sub, hash', hgate, hsub, hv, hb, hdec, rfl⟩
    obtain ⟨_, hopen⟩ := (KeyHolder.gated hat).1 hgate
    obtain rfl : c.signWithOrigin op hash tag origin = sub := Except.ok.inj (hbody.symm.trans hsub)
    obtain rfl : hash = hash' := Except.ok.inj ((decodeHash_toHex hash).symm.trans hdec)
    obtain ⟨htag, horigin⟩ := c.verify_signWithOrigin.1 hv
    have hs := (evolves_ensureAccount hwf.sound 0 c.name ts).sound
    have hw := (wrote_ensureAccount db.toRepoStore c.name ts).trans
      (wrote_applySubmissionTx hs ts (c.signWithOrigin op hash tag origin) hash)
    have hopens := (opens_ensureAccount db.toRepoStore c.name ts).trans
      (opens_applySubmissionTx _ ts (c.signWithOrigin op hash tag origin) hash)
    exact ⟨rfl, ⟨hopen, hb, htag, horigin⟩, rfl, hw.statuses, hw.submissions,
      reportRows_opens hopens⟩
  · rintro ⟨hopen, hb, htag, horigin⟩
    have hgate : env.gated NodeEnv.submitRefusal none now
        ((Call.submit op hash tag origin).request c env.blake3 enc at_) = .ok c.name :=
      (KeyHolder.gated hat).2 ⟨rfl, hopen⟩
    have hv : verify env.unicode env.scheme (c.signWithOrigin op hash tag origin) = .ok () :=
      c.verify_signWithOrigin.2 ⟨htag, horigin⟩
    rw [submitHandler_served hgate hbody hv hb]
    rfl

theorem answered_report (hat : IsI64 at_) (hquery : env.domainParam "" = some none)
    (hwf : db.Wellformed) {r : Report}
    (hc : (Call.report r).Carried env enc c) :
    Answered (db.handle env now ts ((Call.report r).request c env.blake3 enc at_))
      ((Call.report r).Granted env db c.name now at_) ((Call.report r).Done c now ts db) := by
  obtain ⟨hsize, hbody⟩ := hc
  have hroute : db.handle env now ts ((Call.report r).request c env.blake3 enc at_) =
      db.reportHandler env none now ((Call.report r).request c env.blake3 enc at_) :=
    handle_signed hquery (by decide) hsize
  rw [hroute]
  refine (reportHandler_settled env db none now _).answered ?_ ?_
  · rintro _ ⟨key, report, db', hgate, hreport, hins, rfl⟩
    obtain ⟨rfl, hopen⟩ := (KeyHolder.gated hat).1 hgate
    obtain rfl : r = report := Except.ok.inj (hbody.symm.trans hreport)
    refine ⟨rfl, ⟨hopen, not_banned_of_insertReport hins⟩, rfl, statuses_insertReport hins, ?_⟩
    rw [NodeDb.length_reportRows hwf.paired]
    exact (NodeDb.reportRows_insertReport hwf.paired hins).2
  · rintro ⟨hopen, hb⟩
    have hgate : env.gated env.reportRefusal none now
        ((Call.report r).request c env.blake3 enc at_) = .ok c.name :=
      (KeyHolder.gated hat).2 ⟨rfl, hopen⟩
    rw [reportHandler_served hgate hbody hb]
    rfl

theorem answered_fetchReports (hat : IsI64 at_) :
    Answered (db.handle env now ts (Call.fetchReports.request c env.blake3 enc at_))
      (Call.fetchReports.Granted env db c.name now at_) (Call.fetchReports.Done c now ts db) := by
  have hroute : db.handle env now ts (Call.fetchReports.request c env.blake3 enc at_) =
      db.reportsHandler env now (Call.fetchReports.request c env.blake3 enc at_) := by
    have hget : (Call.fetchReports.request c env.blake3 enc at_).method ≠ "POST" := by
      rw [show (Call.fetchReports.request c env.blake3 enc at_).method = "GET" from rfl]
      decide
    rw [NodeDb.handle, if_neg fun h => hget h.1, if_neg fun h => hget h.1, if_pos ⟨.inl rfl, rfl⟩]
  rw [hroute]
  refine (reportsHandler_settled env db now _).answered ?_ ?_
  · rintro _ ⟨key, hauth, hmod, rfl⟩
    obtain ⟨rfl, hfresh⟩ := (KeyHolder.authenticate hat).1 hauth
    exact ⟨rfl, ⟨hfresh, hmod⟩, rfl, rfl⟩
  · rintro ⟨hfresh, hmod⟩
    have hauth : env.authenticate "GET" none now
        { Call.fetchReports.request c env.blake3 enc at_ with body := [] } = .ok c.name :=
      (KeyHolder.authenticate hat).2 ⟨rfl, hfresh⟩
    simp only [NodeDb.reportsHandler, hauth, hmod, if_true]
    rfl

/-- A moderator's action succeeds just when it names something the node has. -/
theorem moderate_ok_iff (hwf : db.Wellformed) (action : ModerateAction) :
    (∃ db', db.moderate action = .ok db') ↔ ModerateAction.Possible db action := by
  cases action with
  | deleteMapping hash tag =>
    constructor
    · rintro ⟨db', hok⟩
      obtain ⟨s, hs, _⟩ := NodeDb.moderatorDeleteMapping_ok hok
      obtain ⟨h, hid, tid, old, hdec, hh, ht, hl, _⟩ := moderatorDeleteMapping_eq_ok hs
      refine ⟨h, hdec, ?_⟩
      have hrow : db.row h tag = some old := RepoStore.row_eq_some.2 ⟨hid, tid, hh, ht, hl⟩
      simp [RepoStore.statuses, hrow]
    · rintro ⟨h, hdec, hst⟩
      obtain ⟨st, hst⟩ := Option.ne_none_iff_exists'.1 hst
      obtain ⟨s, hs⟩ := moderatorDeleteMapping_of_status hdec hst
      refine ⟨db.setStore s, ?_⟩
      simp only [NodeDb.moderate, NodeDb.moderatorDeleteMapping, hs]
  | ban target =>
    simp only [NodeDb.moderate, NodeDb.setBanned, ModerateAction.Possible]
    by_cases hmem : target ∈ db.accounts
    · simp [hmem]
    · simp [hmem]
  | dismiss id =>
    simp only [NodeDb.moderate, NodeDb.closeReport, ModerateAction.Possible,
      NodeDb.length_reportRows hwf.paired]
    by_cases hid : 1 ≤ asI64 id ∧ asI64 id ≤ db.reports.length
    · simp [hid]
    · simp [hid]

theorem isBanned_setBanned_iff {s : RepoStore} {target : String} (h : target ∈ s.accounts)
    (k : String) :
    (s.setBanned target true).isBanned k = true ↔ k = target ∨ s.isBanned k = true := by
  obtain ⟨a, ha⟩ := Option.isSome_iff_exists.1 (AList.lookup_isSome.2 h)
  rw [RepoStore.setBanned, ha]
  by_cases hk : k = target
  · subst hk
    simp [RepoStore.isBanned, AList.lookup_insert]
  · simp [RepoStore.isBanned, AList.lookup_insert_ne hk, hk]

theorem moderate_done {db' : NodeDb} {action : ModerateAction}
    (hok : db.moderate action = .ok db') : ModerateAction.Done db db' action := by
  cases action with
  | deleteMapping hash tag =>
    obtain ⟨s, hs, rfl, _, hrows⟩ := NodeDb.moderatorDeleteMapping_ok hok
    obtain ⟨h, _, _, _, hdec, _⟩ := moderatorDeleteMapping_eq_ok hs
    exact ⟨⟨h, hdec, (wrote_moderatorDeleteMapping hdec hs).statuses⟩, hrows⟩
  | ban target =>
    simp only [NodeDb.moderate, NodeDb.setBanned] at hok
    split at hok
    · rename_i hmem
      cases hok
      have hrow : (db.toRepoStore.setBanned target true).row = db.row := by
        unfold RepoStore.setBanned
        split <;> rfl
      refine ⟨?_, NodeDb.reportRows_of_eq db _ rfl (setBanned_reports _ _ _),
        isBanned_setBanned_iff hmem⟩
      funext k
      simp [RepoStore.statuses, hrow]
    · cases hok
  | dismiss id =>
    refine ⟨?_, (NodeDb.reportRows_closeReport hok).2.2⟩
    simp only [NodeDb.moderate, NodeDb.closeReport] at hok
    split at hok
    · cases hok
      rfl
    · cases hok

theorem answered_moderate (hat : IsI64 at_) (hquery : env.domainParam "" = some none)
    (hwf : db.Wellformed) {action : ModerateAction}
    (hc : (Call.moderate action).Carried env enc c) :
    Answered (db.handle env now ts ((Call.moderate action).request c env.blake3 enc at_))
      ((Call.moderate action).Granted env db c.name now at_)
      ((Call.moderate action).Done c now ts db) := by
  obtain ⟨hsize, hbody⟩ := hc
  have hroute : db.handle env now ts ((Call.moderate action).request c env.blake3 enc at_) =
      db.moderateHandler env none now ((Call.moderate action).request c env.blake3 enc at_) :=
    handle_signed hquery (by decide) hsize
  rw [hroute]
  refine (moderateHandler_settled env db none now _).answered ?_ ?_
  · rintro _ ⟨key, action', db', hgate, haction, hmod, hact, rfl⟩
    obtain ⟨rfl, hopen⟩ := (KeyHolder.gated hat).1 hgate
    obtain rfl : action = action' := Except.ok.inj (hbody.symm.trans haction)
    exact ⟨rfl, ⟨hopen, hmod, (moderate_ok_iff hwf action).1 ⟨db', hact⟩⟩, rfl,
      moderate_done hact⟩
  · rintro ⟨hopen, hmod, hpossible⟩
    have hgate : env.gated env.moderateRefusal none now
        ((Call.moderate action).request c env.blake3 enc at_) = .ok c.name :=
      (KeyHolder.gated hat).2 ⟨rfl, hopen⟩
    obtain ⟨db', hact⟩ := (moderate_ok_iff hwf action).2 hpossible
    rw [moderateHandler_served hgate hbody hmod hact]
    rfl

theorem answered_submitRelation {op : Op} {kind : RelKind} {fromTag toTag : Tag}
    (hc : (Call.submitRelation op kind fromTag toTag).Carried env enc c) :
    Answered (db.handle env now ts
        ((Call.submitRelation op kind fromTag toTag).request c env.blake3 enc at_))
      ((Call.submitRelation op kind fromTag toTag).Granted env db c.name now at_)
      ((Call.submitRelation op kind fromTag toTag).Done c now ts db) := by
  have hroute : db.handle env now ts
      ((Call.submitRelation op kind fromTag toTag).request c env.blake3 enc at_) =
      db.relationsSubmitHandler env ts (c.signRelation op kind fromTag toTag) := by
    have hbody : env.relationOf ((Call.submitRelation op kind fromTag toTag).request c env.blake3
        enc at_).body = .ok (c.signRelation op kind fromTag toTag) := hc
    have hpath : ((Call.submitRelation op kind fromTag toTag).request c env.blake3 enc at_).path =
        repoRelationsSubmit := rfl
    have hother : repoRelationsSubmit ∉ [repoSubmit, repoReport, repoModerate] := by decide
    rw [NodeDb.handle, if_neg fun h => hother (hpath ▸ h.2), if_pos ⟨rfl, hpath⟩, hbody]
  rw [hroute]
  refine (relationsSubmitHandler_settled env db ts _).answered ?_ ?_
  · rintro _ ⟨hread, hv, hb, rfl⟩
    obtain ⟨hfrom, hto, hne⟩ := c.verifyRelation_signRelation.1 hv
    have hok := applyRelation_admitted (r := db.toRepoDb) hv hb ts
    refine ⟨rfl, ⟨hread, hb, hfrom, hto, hne⟩, rfl, ?_, ?_⟩
    · have hrow := RepoStore.ensureAccount_row db.toRepoStore c.name ts
      funext k
      simp only [RepoStore.statuses, applyRelation_store]
      exact congrArg (fun row => (row k.1 k.2).map MappingRow.status) hrow
    · intro k
      have hact := db.relationStatuses_act (.submit ts (c.signRelation op kind fromTag toTag))
        (k := k) (fun hb => hb)
      simp only [RepoDb.act, RepoDb.acceptedBy, hok, verdict_cons] at hact
      exact hact
  · rintro ⟨hread, hb, hfrom, hto, hne⟩
    have hv : verifyRelation env.unicode env.scheme
        (c.signRelation op kind fromTag toTag) = .ok () :=
      c.verifyRelation_signRelation.2 ⟨hfrom, hto, hne⟩
    rw [relationsSubmitHandler_served hread hv hb]
    rfl

/-- **In any state a node gets into, whatever was sent before, a client's call is served just when
the node takes writes, the clocks are within five minutes, the account the client names is not
banned (or is a moderator, for what moderators do) and the tags and the origin are in canonical
form; a call that is served does what it says, and one that is not leaves the database as it was.
The account is the spelling of the key that was sent: a ban of one spelling is none of another.** -/
theorem call_answered (env : NodeEnv) (enc : Encoders) (c : KeyHolder env.scheme) (acts : List Act)
    (call : Call) (now ts at_ : Int) (hat : IsI64 at_) (hquery : env.domainParam "" = some none)
    (hc : call.Carried env enc c) :
    let db := run (NodeDb.step env) .empty acts
    let out := db.handle env now ts (call.request c env.blake3 enc at_)
    (out.2.accepts = true ↔ call.Granted env db c.name now at_) ∧
      (out.2.accepts = true → call.Done c now ts db out.1 out.2) ∧
        (out.2.accepts = false → out.1 = db) := by
  intro db out
  have hwf : db.Wellformed := wellformed_run env acts
  have hanswered : Answered out (call.Granted env db c.name now at_) (call.Done c now ts db) := by
    cases call with
    | submit op hash tag origin => exact answered_submit hat hquery hwf hc
    | report r => exact answered_report hat hquery hwf hc
    | fetchReports => exact answered_fetchReports hat
    | moderate action => exact answered_moderate hat hquery hwf hc
    | submitRelation op kind fromTag toTag => exact answered_submitRelation hc
  exact ⟨hanswered.accepts, hanswered.done, refused_keeps env db now ts _⟩

end

/-! ## Two spellings of one key -/

/-- A scheme that knows one signature. -/
def oneSignature : Ed25519 where
  isKey := fun _ => true
  verifyStrict := fun _ _ sig => decide (sig = sampleSignature)
  sign := fun _ _ => sampleSignature

def spelledKey : SigningKey oneSignature where
  seed := []
  verifying := (Hash.fill 0xAB).bytes
  size := (Hash.fill 0xAB).size
  isKey := rfl
  sigSize := fun _ => rfl
  verifies := fun _ => rfl

def upperCase : KeyHolder oneSignature where
  key := spelledKey
  name := String.ofList ((List.replicate 32 ['A', 'B']).flatten)
  spells := by decide +kernel

def spelledEnv : NodeEnv := { reportEnv with scheme := oneSignature }

def spelledReport : Report := ⟨8, (Hash.fill 0xAB).toHex, "character:samus", none⟩

def spelledEncoders : Encoders := ⟨fun _ => [], fun _ => [], fun _ => [], fun _ => []⟩

/-- The operator bans the account of the lowercase spelling; the key reports on under the other. -/
theorem call_answered_spellings :
    let name := (KeyHolder.ofKey spelledKey).name
    let db := run (NodeDb.step spelledEnv) .empty
      [.seedFile ⟨name, fun _ _ _ => ""⟩ 0 [], .ban name]
    (db.handle spelledEnv 1700000100 0 ((Call.report spelledReport).request
        (KeyHolder.ofKey spelledKey) spelledEnv.blake3 spelledEncoders 1700000000)).2.accepts =
          false ∧
      (db.handle spelledEnv 1700000100 0 ((Call.report spelledReport).request upperCase
        spelledEnv.blake3 spelledEncoders 1700000000)).2.accepts = true := by
  intro name db
  have hanswer := fun c : KeyHolder oneSignature => (call_answered spelledEnv spelledEncoders c
    [.seedFile ⟨name, fun _ _ _ => ""⟩ 0 [], .ban name] (.report spelledReport) 1700000100 0
    1700000000 ⟨by decide, by decide⟩ rfl ⟨by decide, rfl⟩).1
  constructor
  · refine Bool.eq_false_iff.2 fun h => ?_
    have hb := ((hanswer _).1 h).2
    have hbanned : db.isBanned name = true := rfl
    exact absurd (hbanned.symm.trans hb) (by decide)
  · exact (hanswer _).2 ⟨⟨rfl, by decide⟩, rfl⟩

end Server
end Naiad
