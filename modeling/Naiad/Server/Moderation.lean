import Naiad.Server.Authority

/-!
# Naiad.Server.Moderation

Bans and the report queue over whole runs. A ban holds the text of a key: from the moment it is
set, what comes under that text changes nothing. A report stays what it was filed as until it is
closed, and then it stays closed.

* `step_principal`: an act under a banned text does nothing.
* `ban_is_final`: **after a ban, a run is the run without what comes under the banned text**.
* `report_queue`: **reports are kept in the order of their filing, only ever closed, and shown to
  moderators exactly while they are open**.
-/

namespace Naiad
namespace Server

open Lib Netproto

/-- The text under which a request acts: the author it carries, or else the key of its header. -/
def principalOf (env : NodeEnv) (req : Request) : Option String :=
  if req.method = "POST" ∧ req.path = repoSubmit then
    (env.submissionOf req.body).toOption.map Submission.author
  else if req.method = "POST" ∧ req.path = repoRelationsSubmit then
    (env.relationOf req.body).toOption.map RelationSubmission.author
  else if req.path ∈ [repoReport, repoModerate, repoReports] then
    some (req.headers.key.getD "")
  else none

def Act.principal (env : NodeEnv) : Act → Option String
  | .request _ _ req => principalOf env req
  | .seedOne _ sub => some sub.author
  | .seedFile account _ _ => some account.publicHex
  | _ => none

def Reply.accepts : Reply → Bool
  | .noContent => true
  | .reports _ => true
  | _ => false

section

variable {env : NodeEnv} {db : NodeDb} {k : String}

theorem mem_accounts_of_banned {s : RepoStore} (h : s.isBanned k = true) : k ∈ s.accounts := by
  unfold RepoStore.isBanned at h
  split at h
  · rename_i a ha
    rw [← AList.lookup_isSome, ha]
    rfl
  · cases h

theorem ensureAccount_banned {s : RepoStore} (h : s.isBanned k = true) (ts : Int) :
    s.ensureAccount k ts = s := by
  rw [RepoStore.ensureAccount, if_pos (mem_accounts_of_banned h)]

theorem not_moderator_of_banned (h : db.isBanned k = true) : db.isModerator k = false := by
  unfold NodeDb.isModerator
  unfold RepoStore.isBanned at h
  split
  · rename_i a ha
    rw [ha] at h
    simp [show a.banned = true from h]
  · rfl

/-- A submission under a banned text is refused and leaves no trace. -/
theorem applySubmission_banned {s : RepoStore} (v : Submission → Bool) (ts : Int)
    {sub : Submission} (h : s.isBanned sub.author = true) :
    (s.applySubmission v ts sub).1 = s ∧ ∃ e, (s.applySubmission v ts sub).2 = .error e := by
  unfold RepoStore.applySubmission
  split
  · exact ⟨rfl, _, rfl⟩
  · rw [ensureAccount_banned h, if_pos h]
    exact ⟨rfl, _, rfl⟩

theorem applyRelation_banned {r : RepoDb} (ts : Int) {sub : RelationSubmission}
    (h : r.isBanned sub.author = true) :
    (r.applyRelation ts sub).1 = r ∧ ∃ e, (r.applyRelation ts sub).2 = .error e := by
  unfold RepoDb.applyRelation
  simp only [ensureAccount_banned h]
  rw [if_pos h]
  exact ⟨rfl, _, rfl⟩

theorem seedMappings_banned {s : RepoStore} {account : Account} {ts : Int}
    {items : List (Hash × Tag)} (h : s.isBanned account.publicHex = true) :
    (s.seedMappings account ts items).1 = s := by
  simp only [RepoStore.seedMappings]
  rw [ensureAccount_banned h, if_pos h]

/-! ## Requests under a banned text -/

theorem gated_key {refusal : HashDomain → String} {param : Option String} {now : Int}
    {req : Request} {key : String} (h : env.gated refusal param now req = .ok key) :
    key = req.headers.key.getD "" :=
  (authenticate_ok.1 (gated_ok.1 h).2.2).1

/-- The texts that requests of each route act under. -/
structure Under (env : NodeEnv) (k : String) (req : Request) : Prop where
  submit : req.method = "POST" → req.path = repoSubmit → ∀ sub,
    env.submissionOf req.body = .ok sub → sub.author = k
  relation : req.method = "POST" → req.path = repoRelationsSubmit → ∀ sub,
    env.relationOf req.body = .ok sub → sub.author = k
  header : req.path ∈ [repoReport, repoModerate, repoReports] → req.headers.key.getD "" = k

theorem under_principal {req : Request} (hk : principalOf env req = some k) : Under env k req where
  submit := by
    intro hm hp sub hsub
    rw [principalOf, if_pos ⟨hm, hp⟩, hsub] at hk
    exact Option.some.inj hk
  relation := by
    intro hm hp sub hsub
    have hne : ¬ (req.method = "POST" ∧ req.path = repoSubmit) := by
      intro h
      rw [hp] at h
      exact absurd h.2 (by decide)
    rw [principalOf, if_neg hne, if_pos ⟨hm, hp⟩, hsub] at hk
    exact Option.some.inj hk
  header := by
    intro hp
    have hdiff : ∀ path ∈ [repoReport, repoModerate, repoReports],
        path ≠ repoSubmit ∧ path ≠ repoRelationsSubmit := by decide
    obtain ⟨hsubmit, hrelation⟩ := hdiff req.path hp
    rw [principalOf, if_neg fun h => hsubmit h.2, if_neg fun h => hrelation h.2, if_pos hp] at hk
    exact Option.some.inj hk

/-- A request under a banned text does nothing. -/
theorem handle_banned {now ts : Int} {req : Request} (hb : db.isBanned k = true)
    (hu : Under env k req) : (db.handle env now ts req).1 = db := by
  have heff := handle_effect env db now ts req
  generalize (db.handle env now ts req).1 = db' at heff
  cases heff with
  | keep => rfl
  | @submit _ _ sub hpassed hsub _ =>
    have hauthor := hu.submit hpassed.method hpassed.path sub hsub
    rw [(applySubmission_banned _ _ (by rw [hauthor]; exact hb)).1]
    rfl
  | @report _ key _ _ hpassed _ hins =>
    have hname := (gated_key hpassed.gated).trans (hu.header (by simp [hpassed.path]))
    rw [NodeDb.insertReport, hname, if_pos hb] at hins
    cases hins
  | @moderate _ key _ _ hpassed _ hmod _ =>
    have hname := (gated_key hpassed.gated).trans (hu.header (by simp [hpassed.path]))
    rw [hname, not_moderator_of_banned hb] at hmod
    cases hmod
  | @relation sub hm hp hsub _ =>
    have hauthor := hu.relation hm hp sub hsub
    have hbanned : db.toRepoDb.isBanned sub.author = true := by rw [hauthor]; exact hb
    rw [(applyRelation_banned ts hbanned).1]

theorem authenticate_refused {method : String} {param : Option String} {now : Int} {req : Request}
    {r : Reply} (h : env.authenticate method param now req = .error r) : r.accepts = false := by
  unfold NodeEnv.authenticate at h
  split at h
  · cases h
    rfl
  · simp only at h
    split at h
    · cases h
      rfl
    · cases h

theorem gated_refused {refusal : HashDomain → String} {param : Option String} {now : Int}
    {req : Request} {r : Reply} (h : env.gated refusal param now req = .error r) :
    r.accepts = false := by
  unfold NodeEnv.gated at h
  split at h
  · cases h
    rfl
  · split at h
    · cases h
      rfl
    · split at h
      · cases h
        rfl
      · exact authenticate_refused h

section Refused

variable {param : Option String} {now ts : Int} {req : Request}

theorem submitHandler_refused (hb : db.isBanned k = true)
    (hk : ∀ sub, env.submissionOf req.body = .ok sub → sub.author = k) :
    (db.submitHandler env param now ts req).2.accepts = false := by
  unfold NodeDb.submitHandler
  split
  · rename_i r hr
    exact gated_refused hr
  · split
    · rfl
    · rename_i sub hsub
      split
      · rfl
      · have hbanned : db.toRepoStore.isBanned sub.author = true := by rw [hk sub hsub]; exact hb
        obtain ⟨_, e, he⟩ := applySubmission_banned env.verifies ts hbanned
        simp only [he]
        split <;> rfl

theorem reportHandler_refused (hb : db.isBanned k = true) (hk : req.headers.key.getD "" = k) :
    (db.reportHandler env param now req).2.accepts = false := by
  unfold NodeDb.reportHandler
  split
  · rename_i r hr
    exact gated_refused hr
  · rename_i key hkey
    split
    · rfl
    · rw [(gated_key hkey).trans hk, NodeDb.insertReport, if_pos hb]
      simp only
      split <;> rfl

theorem moderateHandler_refused (hb : db.isBanned k = true) (hk : req.headers.key.getD "" = k) :
    (db.moderateHandler env param now req).2.accepts = false := by
  unfold NodeDb.moderateHandler
  split
  · rename_i r hr
    exact gated_refused hr
  · rename_i key hkey
    split
    · rfl
    · rw [(gated_key hkey).trans hk, not_moderator_of_banned hb]
      rfl

theorem reportsHandler_refused (hb : db.isBanned k = true) (hk : req.headers.key.getD "" = k) :
    (db.reportsHandler env now req).2.accepts = false := by
  unfold NodeDb.reportsHandler
  split
  · rename_i r hr
    exact authenticate_refused hr
  · rename_i key hkey
    have hname : key = k := (authenticate_ok.1 hkey).1.trans hk
    rw [hname, not_moderator_of_banned hb]
    rfl

theorem relationsSubmitHandler_refused {sub : RelationSubmission} (hb : db.isBanned k = true)
    (hk : sub.author = k) : (db.relationsSubmitHandler env ts sub).2.accepts = false := by
  unfold NodeDb.relationsSubmitHandler
  split
  · rfl
  · split
    · rfl
    · have hbanned : db.toRepoDb.isBanned sub.author = true := by rw [hk]; exact hb
      obtain ⟨_, e, he⟩ := applyRelation_banned ts hbanned
      simp only [he]
      rfl

/-- And it is refused. -/
theorem handle_banned_refused (hb : db.isBanned k = true) (hu : Under env k req) :
    (db.handle env now ts req).2.accepts = false := by
  unfold NodeDb.handle
  split
  · rename_i hroute
    obtain ⟨hm, hpath⟩ := hroute
    split
    · rfl
    · split
      · rfl
      · split
        · rename_i hp
          exact submitHandler_refused hb (hu.submit hm hp)
        · rename_i hnot
          have hkey : req.headers.key.getD "" = k := by
            apply hu.header
            simp only [List.mem_cons, List.not_mem_nil, or_false] at hpath ⊢
            rcases hpath with hp | hp | hp
            · exact absurd hp hnot
            · exact .inl hp
            · exact .inr (.inl hp)
          split
          · exact reportHandler_refused hb hkey
          · exact moderateHandler_refused hb hkey
  · split
    · rename_i hroute
      split
      · rfl
      · rename_i sub hsub
        exact relationsSubmitHandler_refused hb (hu.relation hroute.1 hroute.2 sub hsub)
    · split
      · rename_i hroute
        exact reportsHandler_refused hb (hu.header (by simp [hroute.2]))
      · rfl

end Refused

/-! ## The rows after a command -/

/-- The reports a command closes. -/
def Closes (action : ModerateAction) (r : ReportEntry) : Prop :=
  match action with
  | .deleteMapping hash tag => r.hash = hash ∧ r.tag = tag
  | .ban _ => False
  | .dismiss reportId => (r.id : Int) = asI64 reportId

instance decidableCloses (action : ModerateAction) (r : ReportEntry) :
    Decidable (Closes action r) :=
  match action with
  | .deleteMapping hash tag => inferInstanceAs (Decidable (r.hash = hash ∧ r.tag = tag))
  | .ban _ => inferInstanceAs (Decidable False)
  | .dismiss reportId => inferInstanceAs (Decidable ((r.id : Int) = asI64 reportId))

theorem reportRows_moderate {action : ModerateAction} {db' : NodeDb}
    (hok : db.moderate action = .ok db') :
    db'.reportRows = db.reportRows.map fun r =>
      if Closes action r then NodeDb.closed r else r := by
  cases action with
  | deleteMapping hash tag =>
    obtain ⟨_, _, _, _, hrows⟩ := NodeDb.moderatorDeleteMapping_ok hok
    exact hrows
  | ban target =>
    simp only [NodeDb.moderate, NodeDb.setBanned] at hok
    split at hok
    · cases hok
      have hsame : (db.setStore (db.toRepoStore.setBanned target true)).reportRows =
          db.reportRows := NodeDb.reportRows_of_eq db _ rfl (setBanned_reports _ _ _)
      rw [hsame]
      simp [Closes]
    · cases hok
  | dismiss reportId => exact (NodeDb.reportRows_closeReport hok).2.2

/-! ## Runs after a ban -/

theorem isBanned_orKeep {out : Except NodeError NodeDb} (h : db.isBanned k = true)
    (hok : ∀ db', out = .ok db' → db'.isBanned k = true) : (db.orKeep out).isBanned k = true := by
  cases out with
  | ok db' => exact hok db' rfl
  | error e => exact h

theorem isBanned_setBanned_true {s : RepoStore} {pubkey : String} (h : s.isBanned k = true) :
    (s.setBanned pubkey true).isBanned k = true := by
  unfold RepoStore.setBanned
  split
  · by_cases hk : k = pubkey
    · subst hk
      simp [RepoStore.isBanned, AList.lookup_insert]
    · rw [RepoStore.isBanned, AList.lookup_insert_ne hk]
      exact h
  · exact h

theorem banned_command (a : ModerateAction) (h : db.isBanned k = true) {db' : NodeDb}
    (hok : db.moderate a = .ok db') : db'.isBanned k = true := by
  cases a with
  | deleteMapping hash tag =>
    obtain ⟨s, _, rfl, hacc, _⟩ := NodeDb.moderatorDeleteMapping_ok hok
    simp only [NodeDb.setStore_toRepoStore, RepoStore.isBanned, hacc]
    exact h
  | ban target =>
    simp only [NodeDb.moderate, NodeDb.setBanned] at hok
    split at hok
    · cases hok
      exact isBanned_setBanned_true h
    · cases hok
  | dismiss id =>
    simp only [NodeDb.moderate, NodeDb.closeReport] at hok
    split at hok
    · cases hok
      exact h
    · cases hok

theorem banned_opens {s : RepoStore} (h : db.isBanned k = true) (ho : Opens db.toRepoStore s) :
    (db.setStore s).isBanned k = true := (ho.isBanned k).trans h

theorem banned_handle {now ts : Int} {req : Request} (h : db.isBanned k = true) :
    (db.handle env now ts req).1.isBanned k = true := by
  have heff := handle_effect env db now ts req
  generalize (db.handle env now ts req).1 = db' at heff
  cases heff with
  | keep => exact h
  | submit _ _ _ => exact banned_opens h (opens_applySubmission _ _ _ _)
  | report _ _ hins =>
    unfold NodeDb.insertReport at hins
    split at hins
    · cases hins
    · cases hins
      exact h
  | moderate _ _ _ hact => exact banned_command _ h hact
  | relation _ _ _ _ => exact ((opens_applyRelation _ _ _).isBanned k).trans h

/-- No act lifts a ban. -/
theorem banned_step (a : Act) (h : db.isBanned k = true) : (db.step env a).isBanned k = true := by
  cases a with
  | request now ts req => exact banned_handle h
  | promote pubkey =>
    refine isBanned_orKeep h ?_
    intro db' hok
    unfold NodeDb.setRole at hok
    split at hok
    · cases hok
      exact h
    · cases hok
  | ban pubkey => exact isBanned_orKeep h fun _ hok => banned_command (.ban pubkey) h hok
  | delete hash tag =>
    exact isBanned_orKeep h fun _ hok => banned_command (.deleteMapping hash tag) h hok
  | dismiss id =>
    refine isBanned_orKeep h ?_
    intro db' hok
    unfold NodeDb.closeReport at hok
    split at hok
    · cases hok
      exact h
    · cases hok
  | seedOne ts sub => exact banned_opens h (opens_applySubmission _ _ _ _)
  | seedFile account ts items => exact banned_opens h (opens_seedMappings _ _ _ _)
  | bulk items =>
    simp only [NodeDb.step]
    split
    · exact banned_opens h (opens_applyMappingsBulk (by assumption))
    · exact h
  | bridgeRelations ts rows =>
    simp only [NodeDb.step]
    split
    · exact ((opens_applyBridgeRelations (by assumption)).isBanned k).trans h
    · exact h

/-- An act under a banned text does nothing. -/
theorem step_principal {a : Act} (h : db.isBanned k = true) (hk : a.principal env = some k) :
    db.step env a = db := by
  cases a with
  | request now ts req => exact handle_banned h (under_principal hk)
  | seedOne ts sub =>
    have hauthor : sub.author = k := Option.some.inj hk
    rw [NodeDb.step, (applySubmission_banned _ _ (by rw [hauthor]; exact h)).1]
    rfl
  | seedFile account ts items =>
    have hauthor : account.publicHex = k := Option.some.inj hk
    rw [NodeDb.step, seedMappings_banned (by rw [hauthor]; exact h)]
    rfl
  | promote pubkey => cases hk
  | ban pubkey => cases hk
  | delete hash tag => cases hk
  | dismiss id => cases hk
  | bulk items => cases hk
  | bridgeRelations ts rows => cases hk

/-! ## What stands under a text -/

/-- Nothing came or went under a text: its log entries, its reports up to being closed, and its
relations are the same. -/
structure Standing (k : String) (db db' : NodeDb) : Prop where
  log : (db'.submissions.filter fun l => l.author = k) = db.submissions.filter fun l => l.author = k
  reports : (db'.reportRows.filter fun r => r.reporter = k).map NodeDb.closed =
    (db.reportRows.filter fun r => r.reporter = k).map NodeDb.closed
  relations : ∀ key : RelationKey, key.author = k →
    db'.relations.lookup key = db.relations.lookup key

theorem Standing.refl (k : String) (db : NodeDb) : Standing k db db := ⟨rfl, rfl, fun _ _ => rfl⟩

theorem Standing.trans {db db' db'' : NodeDb} (h : Standing k db db') (h' : Standing k db' db'') :
    Standing k db db'' :=
  ⟨h'.log.trans h.log, h'.reports.trans h.reports,
    fun key hk => (h'.relations key hk).trans (h.relations key hk)⟩

theorem standing_setStore {s : RepoStore} (ho : Opens db.toRepoStore s)
    (logged : List LoggedSubmission) (hlog : s.submissions = db.submissions ++ logged)
    (hne : ∀ l ∈ logged, l.author ≠ k) : Standing k db (db.setStore s) where
  log := by
    have hnone : (logged.filter fun l => l.author = k) = [] := by
      rw [List.filter_eq_nil_iff]
      intro l hl
      simpa using hne l hl
    rw [NodeDb.setStore_toRepoStore, hlog, List.filter_append, hnone, List.append_nil]
  reports := by rw [reportRows_opens ho]
  relations := fun _ _ => rfl

theorem standing_submission (hwf : db.Wellformed) {v : Submission → Bool} {ts : Int}
    {sub : Submission} (hne : sub.author ≠ k) :
    Standing k db (db.setStore (db.toRepoStore.applySubmission v ts sub).1) := by
  have ho := opens_applySubmission v db.toRepoStore ts sub
  rcases applySubmission_cases v db.toRepoStore ts sub with ⟨_, _, heq | heq⟩ | ⟨hash, _, heq⟩
  · rw [heq] at ho ⊢
    exact standing_setStore ho [] (List.append_nil _).symm (by simp)
  · rw [heq] at ho ⊢
    refine standing_setStore ho [] ?_ (by simp)
    rw [RepoStore.ensureAccount_submissions, List.append_nil]
  · have hs := (evolves_ensureAccount hwf.sound 0 sub.author ts).sound
    have hw := wrote_applySubmissionTx hs ts sub hash
    rw [heq] at ho ⊢
    refine standing_setStore ho [Submission.logged sub ts] ?_ ?_
    · rw [hw.submissions, RepoStore.ensureAccount_submissions]
    · intro l hl
      rw [List.mem_singleton] at hl
      subst hl
      exact hne

theorem standing_seedFile (hwf : db.Wellformed) {account : Account} {ts : Int}
    {items : List (Hash × Tag)} (hne : account.publicHex ≠ k) :
    Standing k db (db.setStore (db.toRepoStore.seedMappings account ts items).1) := by
  have ho := opens_seedMappings db.toRepoStore account ts items
  rcases wrote_seedMappings hwf.sound account ts items with ⟨_, heq⟩ | ⟨_, hw⟩
  · rw [heq] at ho ⊢
    refine standing_setStore ho [] ?_ (by simp)
    rw [RepoStore.ensureAccount_submissions, List.append_nil]
  · refine standing_setStore ho _ hw.submissions ?_
    intro l hl
    rw [seedLog_author hl]
    exact hne

theorem standing_closed {db' : NodeDb} {g : ReportEntry → ReportEntry}
    (hg : ∀ r, g r = r ∨ g r = NodeDb.closed r) (hrows : db'.reportRows = db.reportRows.map g)
    (hlog : db'.submissions = db.submissions) (hrel : db'.relations = db.relations) :
    Standing k db db' where
  log := by rw [hlog]
  reports := by
    rw [hrows]
    induction db.reportRows with
    | nil => rfl
    | cons r rows ih =>
      have hreporter : (g r).reporter = r.reporter := by
        rcases hg r with h | h
        · rw [h]
        · rw [h]
          rfl
      have hclosed : NodeDb.closed (g r) = NodeDb.closed r := by
        rcases hg r with h | h
        · rw [h]
        · rw [h]
          rfl
      rw [List.map_cons, List.filter_cons, List.filter_cons, hreporter]
      split
      · rw [List.map_cons, List.map_cons, hclosed, ih]
      · exact ih
  relations := by
    intro key _
    rw [hrel]

theorem standing_moderate (action : ModerateAction) {db' : NodeDb}
    (hok : db.moderate action = .ok db') : Standing k db db' := by
  have hrows := reportRows_moderate hok
  have hstay : db'.submissions = db.submissions ∧ db'.relations = db.relations := by
    cases action with
    | deleteMapping hash tag =>
      obtain ⟨s, hs, rfl, _, _⟩ := NodeDb.moderatorDeleteMapping_ok hok
      obtain ⟨hh, _, _, _, hdec, _⟩ := moderatorDeleteMapping_eq_ok hs
      have hw := wrote_moderatorDeleteMapping hdec hs
      exact ⟨hw.submissions.trans (List.append_nil _), rfl⟩
    | ban target =>
      simp only [NodeDb.moderate, NodeDb.setBanned] at hok
      split at hok
      · cases hok
        refine ⟨?_, rfl⟩
        rw [NodeDb.setStore_toRepoStore, RepoStore.setBanned]
        split <;> rfl
      · cases hok
    | dismiss reportId =>
      simp only [NodeDb.moderate, NodeDb.closeReport] at hok
      split at hok
      · cases hok
        exact ⟨rfl, rfl⟩
      · cases hok
  refine standing_closed ?_ hrows hstay.1 hstay.2
  intro r
  split
  · exact .inr rfl
  · exact .inl rfl

theorem standing_closeReport {id : Int} {db' : NodeDb} (hok : db.closeReport id = .ok db') :
    Standing k db db' := by
  have hrows := (NodeDb.reportRows_closeReport hok).2.2
  unfold NodeDb.closeReport at hok
  split at hok
  · cases hok
    refine standing_closed ?_ hrows rfl rfl
    intro r
    split
    · exact .inr rfl
    · exact .inl rfl
  · cases hok

/-- A write to the relations that leaves the rows of the text alone. -/
theorem standing_setRelations {r : RepoDb} (hreports : r.reports = db.reports)
    (hlog : r.submissions = db.submissions)
    (hrel : ∀ key : RelationKey, key.author = k → r.relations.lookup key = db.relations.lookup key) :
    Standing k db { db with toRepoDb := r } := by
  refine ⟨?_, ?_, hrel⟩
  · simp only [hlog]
  · rw [NodeDb.reportRows_of_eq db { db with toRepoDb := r } rfl hreports]

theorem standing_relation {ts : Int} {sub : RelationSubmission} (hne : sub.author ≠ k) :
    Standing k db { db with toRepoDb := (db.toRepoDb.applyRelation ts sub).1 } := by
  have hstore := applyRelation_store db.toRepoDb ts sub
  refine standing_setRelations ?_ ?_ ?_
  · rw [hstore, (opens_ensureAccount _ _ _).reports]
  · rw [hstore, RepoStore.ensureAccount_submissions]
  · intro key hk
    rcases db.toRepoDb.applyRelation_cases ts sub with ⟨_, hrel⟩ | ⟨_, signature, hrel⟩
    · rw [hrel]
    · rw [hrel]
      refine Table.lookup_upsert_ne ?_
      rintro rfl
      exact hne hk

theorem lookup_bridgeRelations {ts : Int} {rows : List RelationSubmission}
    {acc acc' : RepoDb × Nat} (hne : ∀ row ∈ rows, row.author ≠ k)
    (hok : RepoDb.bridgeRelations ts acc rows = .ok acc') {key : RelationKey}
    (hk : key.author = k) : acc'.1.relations.lookup key = acc.1.relations.lookup key := by
  induction rows generalizing acc with
  | nil =>
    cases hok
    rfl
  | cons row rows ih =>
    rw [RepoDb.bridgeRelations] at hok
    split at hok
    · cases hok
    · rename_i mid hmid
      rw [ih (fun r hr => hne r (List.mem_cons_of_mem _ hr)) hok]
      unfold RepoDb.bridgeRelation at hmid
      split at hmid
      · cases hmid
      · cases hmid
        refine Table.lookup_upsert_ne ?_
        rintro rfl
        exact hne row (by simp) hk

theorem standing_bridge {ts : Int} {rows : List RelationSubmission} {r : RepoDb} {n : Nat}
    (hne : ∀ row ∈ rows, row.author ≠ k)
    (hok : db.toRepoDb.applyBridgeRelations ts rows = .ok (r, n)) :
    Standing k db { db with toRepoDb := r } := by
  refine standing_setRelations (opens_applyBridgeRelations hok).reports ?_ ?_
  · rcases (relationStatuses_applyBridgeRelations hok).1 with hsame | ⟨author, hauthor⟩
    · rw [hsame]
    · rw [hauthor, RepoStore.ensureAccount_submissions]
  · intro key hk
    cases rows with
    | nil =>
      cases hok
      rfl
    | cons row rows => exact lookup_bridgeRelations hne hok hk

theorem standing_handle (hwf : db.Wellformed) {now ts : Int} {req : Request}
    (hk : principalOf env req ≠ some k) : Standing k db (db.handle env now ts req).1 := by
  have heff := handle_effect env db now ts req
  generalize (db.handle env now ts req).1 = db' at heff
  cases heff with
  | keep => exact .refl k db
  | @submit _ _ sub hpassed hsub _ =>
    refine standing_submission hwf ?_
    rintro rfl
    rw [principalOf, if_pos ⟨hpassed.method, hpassed.path⟩, hsub] at hk
    exact hk rfl
  | @report _ key report _ hpassed _ hins =>
    have hne : key ≠ k := by
      rintro rfl
      have hpath : req.path = repoReport := hpassed.path
      rw [principalOf, hpath, if_neg fun h => absurd h.2 (by decide),
        if_neg fun h => absurd h.2 (by decide), if_pos (by simp), gated_key hpassed.gated] at hk
      exact hk rfl
    have hrows := (NodeDb.reportRows_insertReport hwf.paired hins).2
    unfold NodeDb.insertReport at hins
    split at hins
    · cases hins
    · cases hins
      refine ⟨rfl, ?_, fun _ _ => rfl⟩
      rw [hrows, List.filter_append]
      simp [hne]
  | moderate _ _ _ hact => exact standing_moderate _ hact
  | @relation sub hm hp hsub _ =>
    refine standing_relation ?_
    rintro rfl
    rw [principalOf, hp, if_neg fun h => absurd h.2 (by decide), if_pos ⟨hm, rfl⟩, hsub] at hk
    exact hk rfl

theorem Standing.orKeep {out : Except NodeError NodeDb}
    (hok : ∀ db', out = .ok db' → Standing k db db') : Standing k db (db.orKeep out) := by
  cases out with
  | ok db' => exact hok db' rfl
  | error e => exact .refl k db

/-- The bridge writes no relation under a text. -/
def Act.Spares (k : String) : Act → Prop
  | .bridgeRelations _ rows => ∀ row ∈ rows, row.author ≠ k
  | _ => True

theorem standing_step (hwf : db.Wellformed) {a : Act} (hk : a.principal env ≠ some k)
    (hspare : a.Spares k) : Standing k db (db.step env a) := by
  cases a with
  | request now ts req => exact standing_handle hwf hk
  | promote pubkey =>
    refine .orKeep ?_
    intro db' hok
    unfold NodeDb.setRole at hok
    split at hok
    · cases hok
      exact ⟨rfl, rfl, fun _ _ => rfl⟩
    · cases hok
  | ban pubkey => exact .orKeep fun _ hok => standing_moderate (.ban pubkey) hok
  | delete hash tag =>
    exact .orKeep fun _ hok => standing_moderate (.deleteMapping hash tag) hok
  | dismiss id => exact .orKeep fun _ hok => standing_closeReport hok
  | seedOne ts sub => exact standing_submission hwf fun h => hk (congrArg some h)
  | seedFile account ts items => exact standing_seedFile hwf fun h => hk (congrArg some h)
  | bulk items =>
    simp only [NodeDb.step]
    split
    · rename_i st hst
      obtain ⟨st', hst', hw, _⟩ := wrote_applyMappingsBulk hwf.sound hwf.index items
      rw [hst] at hst'
      cases hst'
      exact standing_setStore (opens_applyMappingsBulk hst) _ hw.submissions (by simp)
    · exact .refl k db
  | bridgeRelations ts rows =>
    simp only [NodeDb.step]
    split
    · exact standing_bridge hspare (by assumption)
    · exact .refl k db

theorem wellformed_run (env : NodeEnv) (acts : List Act) :
    (run (NodeDb.step env) .empty acts).Wellformed :=
  run_invariant acts wellformed_empty fun _ a h => wellformed_step env h a

theorem standing_run {acts : List Act} (hspare : ∀ a ∈ acts, a.Spares k) (hwf : db.Wellformed)
    (hban : db.isBanned k = true) : Standing k db (run (NodeDb.step env) db acts) := by
  induction acts generalizing db with
  | nil => exact .refl k db
  | cons a acts ih =>
    have hrest := @ih (db.step env a) (fun b hb => hspare b (List.mem_cons_of_mem _ hb))
      (wellformed_step env hwf a) (banned_step a hban)
    rw [run_cons]
    by_cases hk : a.principal env = some k
    · rw [step_principal hban hk] at hrest ⊢
      exact hrest
    · exact (standing_step hwf hk (hspare a (by simp))).trans hrest

/-- **Once a text is banned it stays banned and is no moderator, whatever follows goes as if nothing
had come under it, nothing under it comes or goes unless the bridge writes it, and every request
under it is refused.** -/
theorem ban_is_final (env : NodeEnv) (k : String) (earlier later : List Act)
    (hban : (run (NodeDb.step env) .empty earlier).isBanned k = true)
    (hspare : ∀ a ∈ later, a.Spares k) :
    (run (NodeDb.step env) .empty (earlier ++ later)).isBanned k = true ∧
      (run (NodeDb.step env) .empty (earlier ++ later)).isModerator k = false ∧
      run (NodeDb.step env) .empty (earlier ++ later) =
        run (NodeDb.step env) .empty
          (earlier ++ later.filter fun a => !(decide (a.principal env = some k))) ∧
      Standing k (run (NodeDb.step env) .empty earlier)
        (run (NodeDb.step env) .empty (earlier ++ later)) ∧
      ∀ now ts req, principalOf env req = some k →
        ((run (NodeDb.step env) .empty (earlier ++ later)).handle env now ts req).2.accepts =
          false := by
  simp only [run_append]
  have hlater : (run (NodeDb.step env) (run (NodeDb.step env) .empty earlier) later).isBanned k =
      true :=
    @run_invariant _ _ _ (fun db : NodeDb => db.isBanned k = true) _ later hban
      fun _ a h => banned_step a h
  refine ⟨hlater, not_moderator_of_banned hlater, ?_,
    standing_run hspare (wellformed_run env earlier) hban, ?_⟩
  · exact (@run_filter _ _ _ (fun db : NodeDb => db.isBanned k = true) _ _ later hban
      (fun _ a h => banned_step a h)
      (fun _ a h hskip => step_principal h (by simpa using hskip))).symm
  · exact fun now ts req hk => handle_banned_refused hlater (under_principal hk)

/-- The sender of the sample report, who once seeded an empty file. -/
def seededSender : Account := ⟨(Hash.fill 1).toHex, fun _ _ _ => ""⟩

theorem ban_is_final_report :
    let earlier := [.seedFile seededSender 0 [], .ban (Hash.fill 1).toHex]
    run (NodeDb.step reportEnv) .empty (earlier ++ [reportAct]) =
        run (NodeDb.step reportEnv) .empty earlier ∧
      ((run (NodeDb.step reportEnv) .empty earlier).handle reportEnv 1700000200 0
        sentReport).2.accepts = false := by
  intro earlier
  have hban : (run (NodeDb.step reportEnv) .empty earlier).isBanned (Hash.fill 1).toHex = true :=
    rfl
  have hsender : reportAct.principal reportEnv = some (Hash.fill 1).toHex := by
    simp [Act.principal, principalOf, reportAct, sentReport, repoReport, repoSubmit,
      repoRelationsSubmit]
  constructor
  · have hfinal := ban_is_final reportEnv _ earlier [reportAct] hban (by simp [reportAct, Act.Spares])
    simpa [hsender] using hfinal.2.2.1
  · exact (ban_is_final reportEnv _ earlier [] hban (fun _ h => by cases h)).2.2.2.2 _ _ _ hsender

/-! ## The report queue over runs -/

/-- What was filed is still in its place, as it was or closed. -/
def Grown (rows rows' : List ReportEntry) : Prop :=
  ∀ (n : Nat) r, rows[n]? = some r → ∃ r', rows'[n]? = some r' ∧ (r' = r ∨ r' = NodeDb.closed r)

theorem Grown.refl (rows : List ReportEntry) : Grown rows rows := fun _ r h => ⟨r, h, .inl rfl⟩

theorem Grown.trans {rows rows' rows'' : List ReportEntry} (h : Grown rows rows')
    (h' : Grown rows' rows'') : Grown rows rows'' := by
  intro n r hr
  obtain ⟨r', hr', hsame⟩ := h n r hr
  obtain ⟨r'', hr'', hsame'⟩ := h' n r' hr'
  refine ⟨r'', hr'', ?_⟩
  rcases hsame with rfl | rfl
  · exact hsame'
  · rcases hsame' with rfl | rfl
    · exact .inr rfl
    · exact .inr rfl

theorem grown_map {rows : List ReportEntry} {p : ReportEntry → Prop} [DecidablePred p] :
    Grown rows (rows.map fun r => if p r then NodeDb.closed r else r) := by
  intro n r hr
  refine ⟨if p r then NodeDb.closed r else r, by rw [List.getElem?_map, hr]; rfl, ?_⟩
  split
  · exact .inr rfl
  · exact .inl rfl

theorem grown_append (rows more : List ReportEntry) : Grown rows (rows ++ more) := by
  intro n r hr
  exact ⟨r, List.getElem?_append_left (List.getElem?_eq_some_iff.1 hr).1 ▸ hr, .inl rfl⟩

theorem grown_opens {s : RepoStore} (ho : Opens db.toRepoStore s) :
    Grown db.reportRows (db.setStore s).reportRows := by
  rw [reportRows_opens ho]
  exact .refl _

theorem grown_setRelations {r : RepoDb} (hreports : r.reports = db.reports) :
    Grown db.reportRows ({ db with toRepoDb := r } : NodeDb).reportRows := by
  rw [NodeDb.reportRows_of_eq db { db with toRepoDb := r } rfl hreports]
  exact .refl _

theorem grown_moderate {action : ModerateAction} {db' : NodeDb}
    (hok : db.moderate action = .ok db') : Grown db.reportRows db'.reportRows := by
  rw [reportRows_moderate hok]
  exact grown_map

theorem grown_handle (hwf : db.Wellformed) (now ts : Int) (req : Request) :
    Grown db.reportRows (db.handle env now ts req).1.reportRows := by
  have heff := handle_effect env db now ts req
  generalize (db.handle env now ts req).1 = db' at heff
  cases heff with
  | keep => exact .refl _
  | submit _ _ _ => exact grown_opens (opens_applySubmission _ _ _ _)
  | report _ _ hins =>
    rw [(NodeDb.reportRows_insertReport hwf.paired hins).2]
    exact grown_append _ _
  | moderate _ _ _ hact => exact grown_moderate hact
  | relation _ _ _ _ => exact grown_setRelations (opens_applyRelation _ _ _).reports

theorem grown_orKeep {out : Except NodeError NodeDb}
    (hok : ∀ db', out = .ok db' → Grown db.reportRows db'.reportRows) :
    Grown db.reportRows (db.orKeep out).reportRows := by
  cases out with
  | ok db' => exact hok db' rfl
  | error e => exact .refl _

theorem grown_step (hwf : db.Wellformed) (a : Act) :
    Grown db.reportRows (db.step env a).reportRows := by
  cases a with
  | request now ts req => exact grown_handle hwf now ts req
  | promote pubkey =>
    refine grown_orKeep ?_
    intro db' hok
    unfold NodeDb.setRole at hok
    split at hok
    · cases hok
      exact .refl _
    · cases hok
  | ban pubkey =>
    refine grown_orKeep ?_
    intro db' hok
    have hok' : db.moderate (.ban pubkey) = .ok db' := hok
    exact grown_moderate hok'
  | delete hash tag =>
    refine grown_orKeep ?_
    intro db' hok
    have hok' : db.moderate (.deleteMapping hash tag) = .ok db' := hok
    exact grown_moderate hok'
  | dismiss id =>
    refine grown_orKeep ?_
    intro db' hok
    rw [(NodeDb.reportRows_closeReport hok).2.2]
    exact grown_map
  | seedOne ts sub => exact grown_opens (opens_applySubmission _ _ _ _)
  | seedFile account ts items => exact grown_opens (opens_seedMappings _ _ _ _)
  | bulk items =>
    simp only [NodeDb.step]
    split
    · exact grown_opens (opens_applyMappingsBulk (by assumption))
    · exact .refl _
  | bridgeRelations ts rows =>
    simp only [NodeDb.step]
    split
    · exact grown_setRelations (opens_applyBridgeRelations (by assumption)).reports
    · exact .refl _

theorem grown_run (hwf : db.Wellformed) (acts : List Act) :
    Grown db.reportRows (run (NodeDb.step env) db acts).reportRows := by
  induction acts generalizing db with
  | nil => exact .refl _
  | cons a acts ih => exact (grown_step hwf a).trans (ih (wellformed_step env hwf a))

/-! ## What the answers say of the queue -/

section

variable {param : Option String} {now ts : Int} {req : Request}

theorem reportHandler_accepts (h : (db.reportHandler env param now req).2 = .noContent) :
    ∃ report, env.reportOf req.body = .ok report ∧
      db.insertReport report.hash report.tag (req.headers.key.getD "") report.note now =
        .ok (db.reportHandler env param now req).1 := by
  unfold NodeDb.reportHandler at h ⊢
  split at h
  · rename_i r hr
    have hrefused := gated_refused hr
    simp only at h
    subst h
    cases hrefused
  · rename_i key hkey
    split at h
    · cases h
    · rename_i report hreport
      split at h
      · rename_i db' hins
        simp only [hreport]
        exact ⟨report, rfl, gated_key hkey ▸ hins⟩
      · simp only at h
        split at h <;> cases h

theorem moderateHandler_accepts (h : (db.moderateHandler env param now req).2 = .noContent) :
    ∃ action, env.actionOf req.body = .ok action ∧
      db.moderate action = .ok (db.moderateHandler env param now req).1 := by
  unfold NodeDb.moderateHandler at h ⊢
  split at h
  · rename_i r hr
    have hrefused := gated_refused hr
    simp only at h
    subst h
    cases hrefused
  · rename_i key hkey
    split at h
    · cases h
    · rename_i action haction
      split at h
      · rename_i hmod
        split at h
        · rename_i db' hact
          simp only [haction, hmod, if_true]
          exact ⟨action, rfl, hact⟩
        · cases h
      · cases h

/-- Which handler runs, for a path that one of the gated write routes has. -/
theorem handle_write (hp : req.path ∈ [repoSubmit, repoReport, repoModerate])
    (h : (db.handle env now ts req).2 = .noContent) : ∃ param,
      db.handle env now ts req =
        if req.path = repoSubmit then db.submitHandler env param now ts req
        else if req.path = repoReport then db.reportHandler env param now req
        else db.moderateHandler env param now req := by
  have hdiff : ∀ path ∈ [repoSubmit, repoReport, repoModerate],
      path ≠ repoRelationsSubmit ∧ path ≠ repoReports := by decide
  obtain ⟨hrelation, hreports⟩ := hdiff req.path hp
  unfold NodeDb.handle at h ⊢
  by_cases hm : req.method = "POST"
  · rw [if_pos ⟨hm, hp⟩] at h ⊢
    cases hq : env.domainParam req.query with
    | none =>
      simp only [hq] at h
      cases h
    | some param =>
      simp only [hq] at h ⊢
      split at h
      · cases h
      · exact ⟨param, by rw [if_neg (by assumption)]⟩
  · rw [if_neg fun hc => hm hc.1, if_neg fun hc => hrelation hc.2, if_neg fun hc => hreports hc.2]
      at h
    cases h

/-- A report answered for is filed as the newest. -/
theorem handle_filed (hwf : db.Wellformed) (hp : req.path = repoReport)
    (h : (db.handle env now ts req).2 = .noContent) :
    ∃ report, env.reportOf req.body = .ok report ∧
      (db.handle env now ts req).1.reportRows = db.reportRows ++
        [⟨db.reportRows.length + 1, report.hash, report.tag, req.headers.key.getD "", report.note,
          now, true⟩] := by
  obtain ⟨param, hroute⟩ := handle_write (by simp [hp]) h
  rw [hp, if_neg (by decide), if_pos rfl] at hroute
  rw [hroute] at h ⊢
  obtain ⟨report, hreport, hins⟩ := reportHandler_accepts h
  refine ⟨report, hreport, ?_⟩
  rw [(NodeDb.reportRows_insertReport hwf.paired hins).2, NodeDb.length_reportRows hwf.paired]

theorem handle_closes (hp : req.path = repoModerate)
    (h : (db.handle env now ts req).2 = .noContent) :
    ∃ action, env.actionOf req.body = .ok action ∧
      (db.handle env now ts req).1.reportRows = db.reportRows.map fun r =>
        if Closes action r then NodeDb.closed r else r := by
  obtain ⟨param, hroute⟩ := handle_write (by simp [hp]) h
  rw [hp, if_neg (by decide), if_neg (by decide)] at hroute
  rw [hroute] at h ⊢
  obtain ⟨action, haction, hact⟩ := moderateHandler_accepts h
  exact ⟨action, haction, reportRows_moderate hact⟩

theorem gated_no_rows {refusal : HashDomain → String} {r : Reply}
    (h : env.gated refusal param now req = .error r) (rows : List ReportEntry) :
    r ≠ .reports rows := by
  rintro rfl
  cases gated_refused h

theorem submitHandler_no_rows (rows : List ReportEntry) :
    (db.submitHandler env param now ts req).2 ≠ .reports rows := by
  unfold NodeDb.submitHandler
  split
  · exact gated_no_rows (by assumption) rows
  · split
    · nofun
    · split
      · nofun
      · simp only
        split
        · nofun
        · split <;> nofun

theorem reportHandler_no_rows (rows : List ReportEntry) :
    (db.reportHandler env param now req).2 ≠ .reports rows := by
  unfold NodeDb.reportHandler
  split
  · exact gated_no_rows (by assumption) rows
  · split
    · nofun
    · split
      · nofun
      · simp only
        split <;> nofun

theorem moderateHandler_no_rows (rows : List ReportEntry) :
    (db.moderateHandler env param now req).2 ≠ .reports rows := by
  unfold NodeDb.moderateHandler
  split
  · exact gated_no_rows (by assumption) rows
  · split
    · nofun
    · split
      · split <;> nofun
      · nofun

theorem relationsSubmitHandler_no_rows {sub : RelationSubmission} (rows : List ReportEntry) :
    (db.relationsSubmitHandler env ts sub).2 ≠ .reports rows := by
  unfold NodeDb.relationsSubmitHandler
  split
  · nofun
  · split
    · nofun
    · simp only
      split <;> nofun

theorem reportsHandler_answer {rows : List ReportEntry}
    (h : (db.reportsHandler env now req).2 = .reports rows) :
    db.isModerator (req.headers.key.getD "") = true ∧ rows = db.openReports := by
  unfold NodeDb.reportsHandler at h
  split at h
  · rename_i r hr
    have hrefused := authenticate_refused hr
    simp only at h
    subst h
    cases hrefused
  · rename_i key hkey
    rw [← (authenticate_ok.1 hkey).1]
    split at h
    · rename_i hmod
      cases h
      exact ⟨hmod, rfl⟩
    · cases h

end

theorem reportRows_id {n : Nat} {r : ReportEntry} (h : db.reportRows[n]? = some r) :
    r.id = n + 1 := by
  rw [NodeDb.getElem?_reportRows] at h
  obtain ⟨e, _, h⟩ := Option.bind_eq_some_iff.1 h
  obtain ⟨c, _, rfl⟩ := Option.map_eq_some_iff.1 h
  rfl

theorem mem_openReports (r : ReportEntry) :
    r ∈ db.openReports ↔ r ∈ db.reportRows ∧ r.isOpen = true := by
  rw [NodeDb.openReports, mem_orderBy, List.mem_filter]

theorem reportRows_nodup : (db.reportRows.map ReportEntry.id).Nodup := by
  rw [List.nodup_iff_injective_getElem]
  rintro ⟨i, hi⟩ ⟨j, hj⟩ heq
  rw [List.length_map] at hi hj
  simp only [List.getElem_map] at heq
  have hi' := reportRows_id (List.getElem?_eq_getElem hi)
  have hj' := reportRows_id (List.getElem?_eq_getElem hj)
  exact Fin.ext (by simp only; omega)

/-- The ids tell reports of one second apart. -/
theorem openReports_sorted : db.openReports.Pairwise fun a b =>
    toLex (a.createdAt, a.id) < toLex (b.createdAt, b.id) := by
  have hids : ((db.reportRows.filter ReportEntry.isOpen).map ReportEntry.id).Nodup :=
    reportRows_nodup.sublist (List.filter_sublist.map _)
  have hkeys : ((db.reportRows.filter ReportEntry.isOpen).map fun r =>
      toLex (r.createdAt, r.id)).Nodup := by
    refine List.Nodup.of_map (fun k => (ofLex k).2) ?_
    rwa [List.map_map]
  exact List.pairwise_map.1 (orderBy_strict hkeys)

/-- Only the reports route answers with reports. -/
theorem handle_reports {now ts : Int} {req : Request} {rows : List ReportEntry}
    (h : (db.handle env now ts req).2 = .reports rows) :
    db.isModerator (req.headers.key.getD "") = true ∧ rows = db.openReports := by
  unfold NodeDb.handle at h
  split at h
  · split at h
    · cases h
    · split at h
      · cases h
      · split at h
        · exact absurd h (submitHandler_no_rows rows)
        · split at h
          · exact absurd h (reportHandler_no_rows rows)
          · exact absurd h (moderateHandler_no_rows rows)
  · split at h
    · split at h
      · cases h
      · exact absurd h (relationsSubmitHandler_no_rows rows)
    · split at h
      · exact reportsHandler_answer h
      · cases h

/-- **Over every run reports stay in their places and are at most closed; one that is answered for is
filed as the newest and open; what a moderator closes stays closed; and a moderator reads exactly
the open ones, oldest first.** -/
theorem report_queue (env : NodeEnv) (earlier later : List Act) :
    let db := run (NodeDb.step env) .empty earlier
    (∀ (n : Nat) r, db.reportRows[n]? = some r → r.id = n + 1 ∧
      ∃ r', (run (NodeDb.step env) db later).reportRows[n]? = some r' ∧
        (r' = r ∨ r' = NodeDb.closed r)) ∧
    (∀ now ts req, req.path = repoReport → (db.handle env now ts req).2 = .noContent →
      ∃ report, env.reportOf req.body = .ok report ∧
        (db.step env (.request now ts req)).reportRows = db.reportRows ++
          [⟨db.reportRows.length + 1, report.hash, report.tag, req.headers.key.getD "",
            report.note, now, true⟩]) ∧
    (∀ now ts req, req.path = repoModerate → (db.handle env now ts req).2 = .noContent →
      ∃ action, env.actionOf req.body = .ok action ∧
        ∀ (n : Nat) r, db.reportRows[n]? = some r → Closes action r →
          (run (NodeDb.step env) db (.request now ts req :: later)).reportRows[n]? =
            some (NodeDb.closed r)) ∧
    ∀ now ts req rows, (db.handle env now ts req).2 = .reports rows →
      db.isModerator (req.headers.key.getD "") = true ∧
        (∀ r, r ∈ rows ↔ r ∈ db.reportRows ∧ r.isOpen = true) ∧
        rows.Pairwise fun a b => toLex (a.createdAt, a.id) < toLex (b.createdAt, b.id) := by
  intro db
  have hwf : db.Wellformed := wellformed_run env earlier
  refine ⟨?_, ?_, ?_, ?_⟩
  · intro n r hr
    exact ⟨reportRows_id hr, grown_run hwf later n r hr⟩
  · intro now ts req hp h
    exact handle_filed hwf hp h
  · intro now ts req hp h
    obtain ⟨action, haction, hrows⟩ := handle_closes hp h
    refine ⟨action, haction, ?_⟩
    intro n r hr hcloses
    have hnow : (db.step env (.request now ts req)).reportRows[n]? = some (NodeDb.closed r) := by
      rw [NodeDb.step, hrows, List.getElem?_map, hr, Option.map_some, if_pos hcloses]
    have hwf' := wellformed_step env hwf (.request now ts req)
    obtain ⟨r', hr', hsame⟩ := grown_run hwf' later n _ hnow
    rw [run_cons, hr']
    rcases hsame with rfl | rfl
    · rfl
    · rfl
  · intro now ts req rows h
    obtain ⟨hmod, rfl⟩ := handle_reports h
    exact ⟨hmod, mem_openReports, openReports_sorted⟩

theorem report_queue_filed :
    (run (NodeDb.step reportEnv) .empty [reportAct]).reportRows =
      [⟨1, (Hash.fill 0xAB).toHex, "character:samus", (Hash.fill 1).toHex, none, 1700000100,
        true⟩] := by
  have haccepted : (NodeDb.empty.handle reportEnv 1700000100 1700000101 sentReport).2 =
      .noContent := by
    rw [handle_sentReport, NodeDb.reportHandler, gated_sentReport]
    rfl
  obtain ⟨report, hreport, hrows⟩ :=
    (report_queue reportEnv [] []).2.1 1700000100 1700000101 sentReport rfl haccepted
  cases hreport
  exact hrows

end

end Server
end Naiad
