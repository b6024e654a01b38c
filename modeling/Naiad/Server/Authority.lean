import Naiad.Lib.Run
import Naiad.Server.Node

/-!
# Naiad.Server.Authority

Who stands behind what a node holds. Clients send anything at any time; keys sign what their
owners mean, and nobody else can make a signature of theirs. Then every report, ban, closed report,
log entry, mapping and relation goes back to the owner who signed for it, to a moderator the
operator promoted, or to the operator and the bridge themselves.

* `Owners`: what the owners of keys have signed.
* `Attributed`: the causes of everything in the database.
* `attributed_step`: one request, command or load.
* `node_attributed`: **every run of a node leaves only what somebody entitled to it asked for**.
-/

namespace Naiad
namespace Server

open Lib Netproto

/-- What the owners of keys have signed: a signature over the frame of an accepted message is one
that the owner of the key made over that frame. -/
structure Owners (env : NodeEnv) (bodies : Set (List Byte)) where
  said : List Byte → Message → Prop
  accepted : ∀ key (m : Message), said key m → m.Accepted env.unicode env.scheme bodies
  unforged : ∀ key (m : Message) sig, m.Accepted env.unicode env.scheme bodies →
    env.scheme.verifyStrict key (m.canonicalBytes env.blake3) sig = true →
    ∃ m', said key m' ∧ m'.canonicalBytes env.blake3 = m.canonicalBytes env.blake3

/-- An action of a moderator, as the operator would command it. -/
def ModerateAction.act : ModerateAction → Act
  | .deleteMapping hash tag => .delete hash tag
  | .ban pubkey => .ban pubkey
  | .dismiss reportId => .dismiss (asI64 reportId)

def Act.Within (bodies : Set (List Byte)) : Act → Prop
  | .request _ _ req => req.body ∈ bodies
  | _ => True

section

variable {env : NodeEnv} {bodies : Set (List Byte)}

namespace Owners

/-- The owner of a key signed for these fields. -/
def Meant (o : Owners env bodies) (author : String) (s : Signed) : Prop :=
  ∃ key m, hexDecode author = some key ∧ o.said key m ∧ m.signed = s

/-- A request came at `now` that the owner of the key had signed within five minutes of it, for the
native domain. -/
def Asked (o : Owners env bodies) (acts : List Act) (author path : String) (now : Int)
    (body : List Byte) : Prop :=
  ∃ ts req at_ domain, .request now ts req ∈ acts ∧ req.body = body ∧
    (now - at_).natAbs ≤ 300 ∧ (domain = none ∨ domain = some env.native) ∧
    o.Meant author (.request ⟨"POST", path, domain, at_, body⟩)

/-- The operator commanded an action, or a moderator the operator promoted asked for it. -/
def Commanded (o : Owners env bodies) (acts : List Act) (a : Act) : Prop :=
  a ∈ acts ∨ ∃ m action now body, .promote m ∈ acts ∧ o.Asked acts m repoModerate now body ∧
    env.actionOf body = .ok action ∧ ModerateAction.act action = a

end Owners

/-- Everything in the database goes back to whoever is entitled to it. -/
structure Attributed (o : Owners env bodies) (acts : List Act) (db : NodeDb) : Prop where
  reports : ∀ r ∈ db.reportRows, ∃ body version,
    o.Asked acts r.reporter repoReport r.createdAt body ∧
      env.reportOf body = .ok ⟨version, r.hash, r.tag, r.note⟩
  closed : ∀ r ∈ db.reportRows, r.isOpen = false →
    o.Commanded acts (.dismiss r.id) ∨ o.Commanded acts (.delete r.hash r.tag)
  moderators : ∀ k, db.roles.lookup k = some .moderator → .promote k ∈ acts
  bans : ∀ k, db.isBanned k = true → o.Commanded acts (.ban k)
  log : ∀ l ∈ db.submissions, o.Meant l.author (.mapping l.op l.hash l.tag l.origin) ∨
    ∃ account ts items, .seedFile account ts items ∈ acts ∧ l.author = account.publicHex
  mappings : ∀ h t st, db.statuses (h, t) = some st →
    (∃ l ∈ db.submissions, logWrite l = some ((h, t), st)) ∨
      (∃ items item, .bulk items ∈ acts ∧ item ∈ items ∧ bulkWrite item = some ((h, t), st)) ∨
      st = .deleted ∧ ∃ hash, decodeHash hash = .ok h ∧ o.Commanded acts (.delete hash t)
  relations : ∀ k st, db.relationStatuses k = some st →
    (∃ op, op.status = st ∧ o.Meant k.author (.relation op k.kind k.fromTag k.toTag)) ∨
      ∃ ts rows row, .bridgeRelations ts rows ∈ acts ∧ row ∈ rows ∧ RelationKey.of row = k ∧
        row.op.status = st

/-! ## Signatures -/

variable {o : Owners env bodies} {acts : List Act}

theorem Owners.meant (o : Owners env bodies) (hu : env.unicode.LineSafe)
    (hinj : Set.InjOn env.blake3 bodies) {author : String} {key sig : List Byte} {m : Message}
    (hm : m.Accepted env.unicode env.scheme bodies) (hkey : hexDecode author = some key)
    (hv : env.scheme.verifyStrict key (m.canonicalBytes env.blake3) sig = true) :
    o.Meant author m.signed := by
  obtain ⟨m', hsaid, hframe⟩ := o.unforged key m sig hm hv
  have hm' := o.accepted key m' hsaid
  exact ⟨key, m', hkey, hsaid,
    Message.signed_of_lines hinj hm' hm (Message.lines_of_canonicalBytes hu hm' hm hframe)⟩

theorem checkSignature_ok {scheme : Ed25519} {author signature : String} {frame : ByteArray}
    (h : checkSignature scheme author signature frame = .ok ()) :
    ∃ key sig, hexDecode author = some key ∧ scheme.verifyStrict key frame sig = true := by
  obtain ⟨key, hkey, h⟩ := bind_eq_ok.1 h
  obtain ⟨sig, _, h⟩ := bind_eq_ok.1 h
  unfold decodeVerifyingKey at hkey
  split at hkey
  · cases hkey
  · rename_i bytes hdec
    obtain ⟨_, hkey⟩ := of_ite_error hkey
    split at hkey
    · cases hkey
      split at h
      · exact ⟨key, sig, hdec, by assumption⟩
      · cases h
    · cases hkey

theorem Owners.meant_submission (o : Owners env bodies) (hu : env.unicode.LineSafe)
    (hinj : Set.InjOn env.blake3 bodies) {sub : Submission}
    (h : verify env.unicode env.scheme sub = .ok ()) :
    o.Meant sub.author (.mapping sub.op sub.hash sub.tag sub.origin) := by
  have hm : (Message.mapping sub).Accepted env.unicode env.scheme bodies := h
  obtain ⟨_, _, h⟩ := bind_eq_ok.1 h
  obtain ⟨_, _, h⟩ := bind_eq_ok.1 h
  obtain ⟨_, _, h⟩ := bind_eq_ok.1 h
  obtain ⟨_, _, h⟩ := bind_eq_ok.1 h
  obtain ⟨key, sig, hkey, hv⟩ := checkSignature_ok h
  exact o.meant hu hinj hm hkey hv

theorem Owners.meant_relation (o : Owners env bodies) (hu : env.unicode.LineSafe)
    (hinj : Set.InjOn env.blake3 bodies) {sub : RelationSubmission}
    (h : verifyRelation env.unicode env.scheme sub = .ok ()) :
    o.Meant sub.author (.relation sub.op sub.kind sub.fromTag sub.toTag) := by
  have hm : (Message.relation sub).Accepted env.unicode env.scheme bodies := h
  have hne := (verifyRelation_ok h).2.2
  obtain ⟨_, _, h⟩ := bind_eq_ok.1 h
  obtain ⟨_, _, h⟩ := bind_eq_ok.1 h
  obtain ⟨_, _, h⟩ := bind_eq_ok.1 h
  simp only [if_neg hne] at h
  obtain ⟨key, sig, hkey, hv⟩ := checkSignature_ok h
  exact o.meant hu hinj hm hkey hv

/-- A request that is served for the native domain was not signed for another one. -/
theorem requestedDomain_of_resolve {u : Unicode} {param : Option String}
    {served : List HashDomain} {native : HashDomain}
    (h : resolveDomain u param served native = .ok native) :
    requestedDomain u param = none ∨ requestedDomain u param = some native := by
  unfold resolveDomain at h
  cases param with
  | none => exact .inl rfl
  | some raw =>
    simp only at h
    split at h
    · rename_i hblank
      exact .inl (by simp [requestedDomain, hblank])
    · rename_i htext
      cases hparse : HashDomain.parse (u.trim raw.toList) with
      | none => exact .inl (by simp [requestedDomain, htext, hparse])
      | some domain =>
        rw [hparse] at h
        simp only at h
        split at h
        · cases h
          exact .inr (by simp [requestedDomain, htext, hparse])
        · cases h

theorem Owners.asked (o : Owners env bodies) (hu : env.unicode.LineSafe)
    (hinj : Set.InjOn env.blake3 bodies) {path : String} {refusal : HashDomain → String}
    {param : Option String} {now ts : Int} {req : Request} {key : String}
    (hpath : '\n' ∉ path.toList) (h : Passed env path refusal param now req key)
    (hmem : .request now ts req ∈ acts) (hbody : req.body ∈ bodies) :
    o.Asked acts key path now req.body := by
  obtain ⟨_, hres, hauth⟩ := gated_ok.1 h.gated
  obtain ⟨rfl, at_, _, hv⟩ := authenticate_ok.1 hauth
  obtain ⟨hfresh, bytes, sig, hkey, _, hstrict⟩ := verifyAuth_ok.1 hv
  have hm : (Message.request (env.authRequest req.method param at_ req)).Accepted env.unicode
      env.scheme bodies := by
    refine ⟨?_, ?_, hbody⟩
    · simp only [NodeEnv.authRequest, h.method]
      decide
    · simp only [NodeEnv.authRequest, h.path]
      exact hpath
  have hmeant := o.meant hu hinj hm (authKey_ok.1 hkey).1 hstrict
  refine ⟨ts, req, at_, _, hmem, rfl, hfresh, requestedDomain_of_resolve hres, ?_⟩
  simpa [Message.signed, NodeEnv.authRequest, h.method, h.path] using hmeant

/-! ## One step -/

theorem reportRows_opens {db : NodeDb} {s : RepoStore} (ho : Opens db.toRepoStore s) :
    (db.setStore s).reportRows = db.reportRows :=
  NodeDb.reportRows_of_eq db _ rfl ho.reports

/-- A mapping write: the log grows by entries with a cause, and so do the rows. -/
theorem Attributed.setStore {db : NodeDb} (h : Attributed o acts db) {s : RepoStore}
    (ho : Opens db.toRepoStore s) {ws : List StatusWrite}
    {logged : List LoggedSubmission} (hw : Wrote db.toRepoStore s ws logged)
    (hlog : ∀ l ∈ logged, o.Meant l.author (.mapping l.op l.hash l.tag l.origin) ∨
      ∃ account ts items, .seedFile account ts items ∈ acts ∧ l.author = account.publicHex)
    (hmap : ∀ w ∈ ws, (∃ l ∈ logged, logWrite l = some w) ∨
      ∃ items item, .bulk items ∈ acts ∧ item ∈ items ∧ bulkWrite item = some w) :
    Attributed o acts (db.setStore s) where
  reports := by
    rw [reportRows_opens ho]
    exact h.reports
  closed := by
    rw [reportRows_opens ho]
    exact h.closed
  moderators := h.moderators
  bans := by
    intro k hk
    exact h.bans k ((ho.isBanned k).symm.trans hk)
  log := by
    intro l hl
    rw [NodeDb.setStore_toRepoStore, hw.submissions, List.mem_append] at hl
    rcases hl with hl | hl
    · exact h.log l hl
    · exact hlog l hl
  mappings := by
    intro hash tag st hst
    rw [NodeDb.setStore_toRepoStore, hw.submissions]
    rw [NodeDb.setStore_toRepoStore, hw.statuses, writeAll_apply] at hst
    cases hlast : lastWrite ws (hash, tag) with
    | none =>
      rw [hlast, Option.none_or] at hst
      rcases h.mappings hash tag st hst with ⟨l, hl, hw'⟩ | hcause
      · exact .inl ⟨l, List.mem_append_left _ hl, hw'⟩
      · exact .inr hcause
    | some st' =>
      rw [hlast, Option.some_or] at hst
      cases hst
      rcases hmap _ (mem_of_lastWrite hlast) with ⟨l, hl, hlw⟩ | hbulk
      · exact .inl ⟨l, List.mem_append_right _ hl, hlw⟩
      · exact .inr (.inl hbulk)
  relations := h.relations

theorem Attributed.ensureAccount {db : NodeDb} (h : Attributed o acts db) (pubkey : String)
    (ts : Int) : Attributed o acts (db.setStore (db.toRepoStore.ensureAccount pubkey ts)) :=
  h.setStore (opens_ensureAccount _ _ _) (wrote_ensureAccount _ _ _) (by simp) (by simp)

theorem verify_of_applied {v : Submission → Bool} {s s' : RepoStore} {ts : Int} {sub : Submission}
    (h : s.applySubmission v ts sub = (s', .ok ())) : v sub = true := by
  unfold RepoStore.applySubmission at h
  split at h
  · cases h
  · simpa using ‹¬ v sub = false›

theorem verifies_ok {sub : Submission} (h : env.verifies sub = true) :
    verify env.unicode env.scheme sub = .ok () := by
  unfold NodeEnv.verifies at h
  split at h
  · assumption
  · cases h

theorem attributed_submission (hu : env.unicode.LineSafe) (hinj : Set.InjOn env.blake3 bodies)
    {db : NodeDb} (hwf : db.Wellformed) (h : Attributed o acts db) (ts : Int) (sub : Submission) :
    Attributed o acts (db.setStore (db.toRepoStore.applySubmission env.verifies ts sub).1) := by
  rcases applySubmission_cases env.verifies db.toRepoStore ts sub with
    ⟨_, _, heq | heq⟩ | ⟨hash, hdec, heq⟩
  · rw [heq]
    exact h
  · rw [heq]
    exact h.ensureAccount sub.author ts
  · have hmeant := o.meant_submission hu hinj (verifies_ok (verify_of_applied heq))
    have hs := (evolves_ensureAccount hwf.sound 0 sub.author ts).sound
    have hw := (wrote_ensureAccount db.toRepoStore sub.author ts).trans
      (wrote_applySubmissionTx hs ts sub hash)
    rw [heq]
    refine h.setStore ((opens_ensureAccount _ _ _).trans (opens_applySubmissionTx _ _ _ _)) hw
      ?_ ?_
    · intro l hl
      rw [List.nil_append, List.mem_singleton] at hl
      subst hl
      exact .inl hmeant
    · intro w hwmem
      rw [List.nil_append, List.mem_singleton] at hwmem
      subst hwmem
      exact .inl ⟨_, List.mem_append_right _ (List.mem_singleton_self _), logWrite_logged hdec⟩

theorem seedLog_author {account : Account} {ts : Int} {items : List (Hash × Tag)}
    {f : Hash × String → Option MappingStatus} {l : LoggedSubmission}
    (h : l ∈ seedLog account ts f items) : l.author = account.publicHex := by
  induction items generalizing f with
  | nil => cases h
  | cons item items ih =>
    rw [seedLog, List.mem_append] at h
    rcases h with h | h
    · split at h
      · cases h
      · rw [List.mem_singleton] at h
        subst h
        rfl
    · exact ih h

theorem attributed_seedFile {db : NodeDb} (hwf : db.Wellformed) (h : Attributed o acts db)
    {account : Account} {ts : Int} {items : List (Hash × Tag)} (hmem : .seedFile account ts items ∈ acts) :
    Attributed o acts (db.setStore (db.toRepoStore.seedMappings account ts items).1) := by
  have hopens := opens_seedMappings db.toRepoStore account ts items
  rcases wrote_seedMappings hwf.sound account ts items with ⟨_, heq⟩ | ⟨_, hw⟩
  · rw [heq]
    exact h.ensureAccount _ ts
  · refine h.setStore hopens hw ?_ ?_
    · intro l hl
      exact .inr ⟨account, ts, items, hmem, seedLog_author hl⟩
    · intro w hwmem
      obtain ⟨l, hl, hlw⟩ := List.mem_filterMap.1 hwmem
      exact .inl ⟨l, hl, hlw⟩

theorem attributed_bulk {db : NodeDb} (hwf : db.Wellformed) (h : Attributed o acts db)
    {items : List (String × String × Bool)} (hmem : .bulk items ∈ acts) {st : BulkState}
    (hst : db.toRepoStore.applyMappingsBulk items = .ok st) :
    Attributed o acts (db.setStore st.store) := by
  obtain ⟨st', hst', hw, _⟩ := wrote_applyMappingsBulk hwf.sound hwf.index items
  rw [hst] at hst'
  cases hst'
  refine h.setStore (opens_applyMappingsBulk hst) hw (by simp) ?_
  intro w hwmem
  obtain ⟨item, hitem, hwitem⟩ := List.mem_filterMap.1 hwmem
  exact .inr ⟨items, item, hmem, hitem, hwitem⟩

/-! ### Relations -/

/-- A write to the relations, with the account it may create. -/
theorem Attributed.setRelations {db : NodeDb} (h : Attributed o acts db) {db' : RepoDb}
    (hstore : db'.toRepoStore = db.toRepoStore ∨
      ∃ author ts, db'.toRepoStore = db.toRepoStore.ensureAccount author ts)
    (hrel : ∀ k st, db'.relationStatuses k = some st →
      (∃ op, op.status = st ∧ o.Meant k.author (.relation op k.kind k.fromTag k.toTag)) ∨
        ∃ ts rows row, .bridgeRelations ts rows ∈ acts ∧ row ∈ rows ∧ RelationKey.of row = k ∧
          row.op.status = st) :
    Attributed o acts { db with toRepoDb := db' } := by
  obtain ⟨s, rels⟩ := db'
  simp only at hstore
  have hbase : Attributed o acts (db.setStore s) := by
    rcases hstore with rfl | ⟨author, ts, rfl⟩
    · exact h
    · exact h.ensureAccount author ts
  exact ⟨hbase.reports, hbase.closed, hbase.moderators, hbase.bans, hbase.log, hbase.mappings, hrel⟩

/-- A signed relation leaves every row as it was or as its author signed it. -/
theorem relationStatuses_applyRelation {db : RepoDb} {ts : Int} {sub : RelationSubmission}
    {k : RelationKey} {st : MappingStatus}
    (h : (db.applyRelation ts sub).1.relationStatuses k = some st) :
    db.relationStatuses k = some st ∨ RelationKey.of sub = k ∧ sub.op.status = st := by
  have hact := db.relationStatuses_act (.submit ts sub) (k := k) (fun hb => hb)
  rw [RepoDb.act, h] at hact
  rcases db.applyRelation_cases ts sub with ⟨⟨e, he⟩, _⟩ | ⟨hok, _⟩
  · simp only [RepoDb.acceptedBy, he] at hact
    exact .inl hact.symm
  · simp only [RepoDb.acceptedBy, hok, verdict_cons] at hact
    by_cases hk : RelationKey.of sub = k
    · rw [if_pos hk] at hact
      simp only [verdict, List.filter_nil, List.foldl_nil, absorb] at hact
      split at hact
      · rename_i hdel
        cases hact
        rcases hdel with hold | hnew
        · exact .inl hold
        · exact .inr ⟨hk, hnew⟩
      · rename_i hdel
        cases hact
        refine .inr ⟨hk, ?_⟩
        cases hop : sub.op with
        | add => rfl
        | remove => exact absurd (.inr (by rw [hop]; rfl)) hdel
    · rw [if_neg hk] at hact
      exact .inl hact.symm

theorem attributed_relation (hu : env.unicode.LineSafe) (hinj : Set.InjOn env.blake3 bodies)
    {db : NodeDb} (h : Attributed o acts db) {ts : Int} {sub : RelationSubmission}
    (hv : verifyRelation env.unicode env.scheme sub = .ok ()) :
    Attributed o acts { db with toRepoDb := (db.toRepoDb.applyRelation ts sub).1 } := by
  refine h.setRelations (.inr ⟨_, _, applyRelation_store _ _ _⟩) ?_
  intro k st hst
  rcases relationStatuses_applyRelation hst with hold | ⟨rfl, rfl⟩
  · exact h.relations k st hold
  · exact .inl ⟨sub.op, rfl, o.meant_relation hu hinj hv⟩

theorem attributed_bridge {db : NodeDb} (h : Attributed o acts db) {ts : Int}
    {rows : List RelationSubmission} (hmem : .bridgeRelations ts rows ∈ acts) {db' : RepoDb}
    {n : Nat} (hok : db.toRepoDb.applyBridgeRelations ts rows = .ok (db', n)) :
    Attributed o acts { db with toRepoDb := db' } := by
  obtain ⟨hstore, hst⟩ := relationStatuses_applyBridgeRelations hok
  refine h.setRelations ?_ ?_
  · rcases hstore with hsame | ⟨author, hauthor⟩
    · exact .inl hsame
    · exact .inr ⟨author, ts, hauthor⟩
  · intro k st hk
    rw [hst, writeAll_apply] at hk
    cases hlast : lastWrite (rows.map relationWrite) k with
    | none =>
      rw [hlast, Option.none_or] at hk
      exact h.relations k st hk
    | some st' =>
      rw [hlast, Option.some_or] at hk
      cases hk
      obtain ⟨row, hrow, hw⟩ := List.mem_map.1 (mem_of_lastWrite hlast)
      cases hw
      exact .inr ⟨ts, rows, row, hmem, hrow, rfl, rfl⟩

/-! ### Commands -/

theorem attributed_promote {db db' : NodeDb} (h : Attributed o acts db) {pubkey : String}
    (hmem : .promote pubkey ∈ acts) (hok : db.setRole pubkey .moderator = .ok db') :
    Attributed o acts db' := by
  unfold NodeDb.setRole at hok
  split at hok
  · cases hok
    refine ⟨h.reports, h.closed, ?_, h.bans, h.log, h.mappings, h.relations⟩
    intro k hk
    by_cases hkey : k = pubkey
    · subst hkey
      exact hmem
    · rw [AList.lookup_insert_ne hkey] at hk
      exact h.moderators k hk
  · cases hok

theorem isBanned_setBanned {s : RepoStore} {pubkey k : String}
    (h : (s.setBanned pubkey true).isBanned k = true) : s.isBanned k = true ∨ k = pubkey := by
  unfold RepoStore.setBanned at h
  split at h
  · by_cases hk : k = pubkey
    · exact .inr hk
    · rw [RepoStore.isBanned, AList.lookup_insert_ne hk] at h
      exact .inl h
  · exact .inl h

theorem attributed_ban {db db' : NodeDb} (h : Attributed o acts db) {pubkey : String}
    (hcmd : o.Commanded acts (.ban pubkey)) (hok : db.setBanned pubkey true = .ok db') :
    Attributed o acts db' := by
  unfold NodeDb.setBanned at hok
  split at hok
  · cases hok
    have hw : Wrote db.toRepoStore (db.toRepoStore.setBanned pubkey true) [] [] := by
      unfold RepoStore.setBanned
      split <;> exact .of_row rfl rfl rfl
    have hrows : (db.setStore (db.toRepoStore.setBanned pubkey true)).reportRows = db.reportRows :=
      NodeDb.reportRows_of_eq db _ rfl (setBanned_reports _ _ _)
    refine ⟨?_, ?_, h.moderators, ?_, ?_, ?_, h.relations⟩
    · rw [hrows]
      exact h.reports
    · rw [hrows]
      exact h.closed
    · intro k hk
      rcases isBanned_setBanned hk with hold | rfl
      · exact h.bans k hold
      · exact hcmd
    · intro l hl
      rw [NodeDb.setStore_toRepoStore, hw.submissions, List.append_nil] at hl
      exact h.log l hl
    · intro hash tag st hst
      rw [NodeDb.setStore_toRepoStore, hw.statuses, writeAll_nil] at hst
      rw [NodeDb.setStore_toRepoStore, hw.submissions, List.append_nil]
      exact h.mappings hash tag st hst
  · cases hok

theorem attributed_dismiss {db db' : NodeDb} (h : Attributed o acts db) {id : Int}
    (hcmd : o.Commanded acts (.dismiss id)) (hok : db.closeReport id = .ok db') :
    Attributed o acts db' := by
  obtain ⟨_, _, hrows⟩ := NodeDb.reportRows_closeReport hok
  have hmem : ∀ r ∈ db'.reportRows, ∃ r₀ ∈ db.reportRows,
      r = (if (r₀.id : Int) = id then NodeDb.closed r₀ else r₀) := by
    intro r hr
    rw [hrows] at hr
    obtain ⟨r₀, hr₀, rfl⟩ := List.mem_map.1 hr
    exact ⟨r₀, hr₀, rfl⟩
  unfold NodeDb.closeReport at hok
  split at hok
  · cases hok
    refine ⟨?_, ?_, h.moderators, h.bans, h.log, h.mappings, h.relations⟩
    · intro r hr
      obtain ⟨r₀, hr₀, rfl⟩ := hmem r hr
      have hcause := h.reports r₀ hr₀
      split
      · exact hcause
      · exact hcause
    · intro r hr
      obtain ⟨r₀, hr₀, rfl⟩ := hmem r hr
      split
      · rename_i hid
        intro _
        simp only [NodeDb.closed, hid]
        exact .inl hcmd
      · exact h.closed r₀ hr₀
  · cases hok

theorem attributed_delete {db db' : NodeDb} (h : Attributed o acts db) {hash tag : String}
    (hcmd : o.Commanded acts (.delete hash tag))
    (hok : db.moderatorDeleteMapping hash tag = .ok db') : Attributed o acts db' := by
  obtain ⟨s, hs, rfl, haccounts, hrows⟩ := NodeDb.moderatorDeleteMapping_ok hok
  obtain ⟨hh, _, _, _, hdec, _⟩ := moderatorDeleteMapping_eq_ok hs
  have hw := wrote_moderatorDeleteMapping hdec hs
  have hmem : ∀ r ∈ (db.setStore s).reportRows, ∃ r₀ ∈ db.reportRows,
      r = (if r₀.hash = hash ∧ r₀.tag = tag then NodeDb.closed r₀ else r₀) := by
    intro r hr
    rw [hrows] at hr
    obtain ⟨r₀, hr₀, rfl⟩ := List.mem_map.1 hr
    exact ⟨r₀, hr₀, rfl⟩
  refine ⟨?_, ?_, h.moderators, ?_, ?_, ?_, h.relations⟩
  · intro r hr
    obtain ⟨r₀, hr₀, rfl⟩ := hmem r hr
    have hcause := h.reports r₀ hr₀
    split
    · exact hcause
    · exact hcause
  · intro r hr
    obtain ⟨r₀, hr₀, rfl⟩ := hmem r hr
    split
    · rename_i hpair
      intro _
      simp only [NodeDb.closed, hpair.1, hpair.2]
      exact .inr hcmd
    · exact h.closed r₀ hr₀
  · intro k hk
    simp only [NodeDb.setStore_toRepoStore, RepoStore.isBanned, haccounts] at hk
    exact h.bans k hk
  · intro l hl
    rw [NodeDb.setStore_toRepoStore, hw.submissions, List.append_nil] at hl
    exact h.log l hl
  · intro hash' tag' st hst
    rw [NodeDb.setStore_toRepoStore, hw.statuses, writeAll_singleton] at hst
    rw [NodeDb.setStore_toRepoStore, hw.submissions, List.append_nil]
    by_cases hk : (hash', tag') = (hh, tag)
    · cases hk
      rw [write_same] at hst
      cases hst
      exact .inr (.inr ⟨rfl, hash, hdec, hcmd⟩)
    · rw [write_ne hk] at hst
      exact h.mappings hash' tag' st hst

theorem attributed_report {db db' : NodeDb} (hwf : db.Wellformed) (h : Attributed o acts db) {hash tag reporter : String}
    {note : Option String} {createdAt : Int} {body : List Byte} {version : Nat}
    (hask : o.Asked acts reporter repoReport createdAt body)
    (hbody : env.reportOf body = .ok ⟨version, hash, tag, note⟩)
    (hok : db.insertReport hash tag reporter note createdAt = .ok db') :
    Attributed o acts db' := by
  have hrows := (NodeDb.reportRows_insertReport hwf.paired hok).2
  unfold NodeDb.insertReport at hok
  split at hok
  · cases hok
  · cases hok
    refine ⟨?_, ?_, h.moderators, h.bans, h.log, h.mappings, h.relations⟩
    · intro r hr
      rw [hrows, List.mem_append, List.mem_singleton] at hr
      rcases hr with hr | rfl
      · exact h.reports r hr
      · exact ⟨body, version, hask, hbody⟩
    · intro r hr hopen
      rw [hrows, List.mem_append, List.mem_singleton] at hr
      rcases hr with hr | rfl
      · exact h.closed r hr hopen
      · cases hopen

theorem attributed_moderate {db db' : NodeDb} (h : Attributed o acts db) {action : ModerateAction}
    (hcmd : o.Commanded acts (ModerateAction.act action)) (hok : db.moderate action = .ok db') :
    Attributed o acts db' := by
  cases action with
  | deleteMapping hash tag => exact attributed_delete h hcmd hok
  | ban target => exact attributed_ban h hcmd hok
  | dismiss reportId => exact attributed_dismiss h hcmd hok

theorem isModerator_role {db : NodeDb} {k : String} (h : db.isModerator k = true) :
    db.roles.lookup k = some .moderator := by
  unfold NodeDb.isModerator at h
  split at h
  · simpa using (Bool.and_eq_true_iff.1 h).2
  · cases h

/-- A request leaves only what its key signed for. -/
theorem attributed_request (hu : env.unicode.LineSafe) (hinj : Set.InjOn env.blake3 bodies)
    {db : NodeDb} (hwf : db.Wellformed) (h : Attributed o acts db) {now ts : Int} {req : Request}
    (hmem : .request now ts req ∈ acts) (hbody : req.body ∈ bodies) :
    Attributed o acts (db.handle env now ts req).1 := by
  have heff := handle_effect env db now ts req
  generalize (db.handle env now ts req).1 = db' at heff
  cases heff with
  | keep => exact h
  | submit _ _ _ => exact attributed_submission hu hinj hwf h ts _
  | @report param key report _ hpassed hreport hins =>
    have hask := o.asked hu hinj (by decide) hpassed hmem hbody
    exact attributed_report hwf h hask hreport hins
  | @moderate param key action _ hpassed haction hmod hact =>
    have hask := o.asked hu hinj (by decide) hpassed hmem hbody
    have hpromoted := h.moderators key (isModerator_role hmod)
    exact attributed_moderate h (.inr ⟨key, action, now, _, hpromoted, hask, haction, rfl⟩) hact
  | relation _ _ _ hv => exact attributed_relation hu hinj h hv

theorem Attributed.orKeep {db : NodeDb} (h : Attributed o acts db) {out : Except NodeError NodeDb}
    (hok : ∀ db', out = .ok db' → Attributed o acts db') : Attributed o acts (db.orKeep out) := by
  cases out with
  | ok db' => exact hok db' rfl
  | error e => exact h

theorem attributed_step (hu : env.unicode.LineSafe) (hinj : Set.InjOn env.blake3 bodies)
    {db : NodeDb} (hwf : db.Wellformed) (h : Attributed o acts db) {a : Act} (hmem : a ∈ acts)
    (hbody : a.Within bodies) : Attributed o acts (db.step env a) := by
  cases a with
  | request now ts req => exact attributed_request hu hinj hwf h hmem hbody
  | promote pubkey => exact h.orKeep fun _ hok => attributed_promote h hmem hok
  | ban pubkey => exact h.orKeep fun _ hok => attributed_ban h (.inl hmem) hok
  | delete hash tag => exact h.orKeep fun _ hok => attributed_delete h (.inl hmem) hok
  | dismiss id => exact h.orKeep fun _ hok => attributed_dismiss h (.inl hmem) hok
  | seedOne ts sub => exact attributed_submission hu hinj hwf h ts sub
  | seedFile account ts items => exact attributed_seedFile hwf h hmem
  | bulk items =>
    simp only [NodeDb.step]
    split
    · rename_i st hst
      exact attributed_bulk hwf h hmem hst
    · exact h
  | bridgeRelations ts rows =>
    simp only [NodeDb.step]
    split
    · rename_i db' n hok
      exact attributed_bridge h hmem hok
    · exact h

theorem attributed_empty (o : Owners env bodies) (acts : List Act) :
    Attributed o acts NodeDb.empty where
  reports := by simp [NodeDb.reportRows, NodeDb.empty, RepoDb.empty, RepoStore.empty]
  closed := by simp [NodeDb.reportRows, NodeDb.empty, RepoDb.empty, RepoStore.empty]
  moderators := by simp [NodeDb.empty]
  bans := by simp [NodeDb.empty, RepoDb.empty, RepoStore.empty, RepoStore.isBanned]
  log := by simp [NodeDb.empty, RepoDb.empty, RepoStore.empty]
  mappings := by
    intro h t st hst
    obtain ⟨r, hr, _⟩ := Option.map_eq_some_iff.1 hst
    obtain ⟨hid, tid, _, _, hl⟩ := RepoStore.row_eq_some.1 hr
    simp [NodeDb.empty, RepoDb.empty, RepoStore.empty] at hl
  relations := by simp [NodeDb.empty, RepoDb.empty, RepoDb.relationStatuses]

/-- **After every run of a node, whoever sent what and when, each report was signed for by its
reporter within five minutes of its filing; each ban, each closed report and each deletion was
commanded by the operator or signed for by a moderator the operator promoted; each log entry was
signed by its author; and each mapping and relation has the status that its cause gave it.** -/
theorem node_attributed (env : NodeEnv) (hu : env.unicode.LineSafe) (bodies : Set (List Byte))
    (hinj : Set.InjOn env.blake3 bodies) (o : Owners env bodies) (acts : List Act)
    (hbodies : ∀ a ∈ acts, a.Within bodies) :
    Attributed o acts (run (NodeDb.step env) .empty acts) := by
  have hall : AllSteps (NodeDb.step env) (fun _ a => a ∈ acts) NodeDb.empty acts := by
    have hgen : ∀ (l : List Act) (db : NodeDb), (∀ a ∈ l, a ∈ acts) →
        AllSteps (NodeDb.step env) (fun _ a => a ∈ acts) db l := by
      intro l
      induction l with
      | nil => exact fun _ _ => trivial
      | cons a l ih =>
        exact fun db hl => ⟨hl a (by simp), ih _ fun b hb => hl b (List.mem_cons_of_mem _ hb)⟩
    exact hgen acts _ fun _ h => h
  have hinv : (run (NodeDb.step env) .empty acts).Wellformed ∧
      Attributed o acts (run (NodeDb.step env) .empty acts) := by
    refine @AllSteps.invariant _ _ _ _ (fun db => db.Wellformed ∧ Attributed o acts db) _ _ hall
      ⟨wellformed_empty, attributed_empty o acts⟩ ?_
    rintro db a ⟨hwf, h⟩ hmem
    exact ⟨wellformed_step env hwf a, attributed_step hu hinj hwf h hmem (hbodies a hmem)⟩
  exact hinv.2

end

/-! ## Samples -/

/-- A request to file a report, signed at 1700000000. -/
def reportRequest : AuthRequest := ⟨"POST", repoReport, none, 1700000000, []⟩

def reportFrame : ByteArray := (Message.request reportRequest).canonicalBytes fun _ => Hash.fill 0

def reportEnv : NodeEnv where
  unicode := .plainText
  scheme := oneMessage reportFrame sampleSignature
  blake3 := fun _ => Hash.fill 0
  native := .blake3
  addedSha256 := false
  readOnly := false
  domainParam := fun _ => some none
  submissionOf := fun _ => .error "no submission"
  reportOf := fun _ => .ok ⟨8, (Hash.fill 0xAB).toHex, "character:samus", none⟩
  actionOf := fun _ => .error "no action"
  relationOf := fun _ => .error 422

/-- The owner of the one key of the scheme, who signed the one request. -/
def reportOwners : Owners reportEnv {[]} where
  said := fun _ m => m = .request reportRequest
  accepted := by
    rintro _ m rfl
    exact ⟨by decide, by decide, rfl⟩
  unforged := by
    intro key m sig _ hv
    simp only [reportEnv, oneMessage, Bool.and_eq_true, decide_eq_true_eq] at hv
    exact ⟨_, rfl, ByteArray.ext hv.1.symm⟩

def sentReport : Request where
  method := "POST"
  path := repoReport
  query := ""
  headers := ⟨some (Hash.fill 1).toHex, some "1700000000",
    some (String.ofList (hexChars sampleSignature))⟩
  body := []

/-- The request arrives a hundred seconds after it was signed. -/
def reportAct : Act := .request 1700000100 1700000101 sentReport

theorem gated_sentReport :
    reportEnv.gated reportEnv.reportRefusal none 1700000100 sentReport =
      .ok (Hash.fill 1).toHex := by
  have hkey : authKey reportEnv.scheme (Hash.fill 1).toHex = .ok (Hash.fill 1).bytes :=
    authKey_ok.2 ⟨Hash.hexDecode_toHex _, (Hash.fill 1).size, rfl⟩
  have hsig : authSig (String.ofList (hexChars sampleSignature)) = .ok sampleSignature :=
    authSig_ok.2 ⟨by simp [hexDecode, hexBytes_hexChars], rfl⟩
  refine gated_ok.2 ⟨rfl, rfl, authenticate_ok.2 ⟨rfl, 1700000000, by decide, ?_⟩⟩
  refine verifyAuth_ok.2 ⟨by decide, _, _, hkey, hsig, ?_⟩
  simp [reportEnv, oneMessage, reportFrame, NodeEnv.authRequest, Message.canonicalBytes,
    reportRequest, requestedDomain, sentReport]

theorem handle_sentReport (db : NodeDb) :
    db.handle reportEnv 1700000100 1700000101 sentReport =
      db.reportHandler reportEnv none 1700000100 sentReport := by
  have hpath : sentReport.method = "POST" ∧
      sentReport.path ∈ [repoSubmit, repoReport, repoModerate] := by decide
  have hother : sentReport.path ≠ repoSubmit := by decide
  have hreport : sentReport.path = repoReport := rfl
  rw [NodeDb.handle, if_pos hpath]
  simp only [reportEnv]
  rw [if_neg (by decide), if_neg hother, if_pos hreport]

theorem node_attributed_report :
    (run (NodeDb.step reportEnv) .empty [reportAct]).reportRows =
        [⟨1, (Hash.fill 0xAB).toHex, "character:samus", (Hash.fill 1).toHex, none, 1700000100,
          true⟩] ∧
      Attributed reportOwners [reportAct] (run (NodeDb.step reportEnv) .empty [reportAct]) := by
  refine ⟨?_, node_attributed reportEnv Unicode.plainText_lineSafe {[]} (Set.injOn_singleton _ _)
    reportOwners [reportAct] ?_⟩
  · rw [run_cons, run_nil, reportAct, NodeDb.step, handle_sentReport, NodeDb.reportHandler,
      gated_sentReport]
    rfl
  · intro a ha
    rw [List.mem_singleton] at ha
    subst ha
    exact rfl

end Server
end Naiad
