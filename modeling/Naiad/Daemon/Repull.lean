import Naiad.Daemon.Caps
import Naiad.Daemon.DomainPull
import Naiad.Server.Sync

/-!
# Naiad.Daemon.Repull

A repository that is rebuilt, and a daemon that pulls it. A rebuild makes a new store under a new
generation; the daemon sees the generation in the capabilities, which it fetches once a session, and
resets the cursors of the service when the one it has stored differs.

* `World`: the repository, the database of the client, its session, and its pulls in progress; a
  restart of the daemon ends the session and its pulls.
* `pullState_reset`: a call that sees another generation leaves no cursor of the service.
* `repulled_in_full`: **the first pull of a domain that starts and ends after the last rebuild leaves
  the tags of the repository, in every run in which each such pull finds no cursor, or one that is
  past the repository's**.
-/

namespace Naiad
namespace Daemon
namespace Repull

open Lib Netproto Db Server

inductive Stage
  | resolved
  | missed
  | returned (caps : Caps)
  | reconciled (caps : Caps)
  | pulling (caps : Caps) (leg : Leg)

/-- A call of `pull_repo` or `pull_repo_for_hashes`, with whether the repository has been rebuilt
since it started and the stores it has had since the leg was read. -/
structure Pull where
  stage : Stage
  rebuilt : Bool
  held : List RepoStore

/-- A repository, with a store for each domain. -/
structure Repository where
  generation : Option String
  stores : HashDomain → RepoStore

/-- The repository and a subscriber; a domain is settled once a pull that started after the last
rebuild has merged it. -/
structure World where
  repository : Repository
  db : Naiad.Db
  cache : Option Caps
  pulls : List Pull
  settled : HashDomain → Bool

/-- A step of one call. -/
inductive Move
  /-- `get_or_fetch` consults the cache. -/
  | consult
  | answer (mode : PullMode) (repoKey : Option String)
  | reconcile
  | read (domain : HashDomain) (mode : FetchMode)
  | ask (budget n : Nat)
  | merge (now : Int)

inductive Event
  | write (domain : HashDomain) (a : Action)
  | rebuild (generation : Option String) (content : HashDomain → List Action)
  | restart
  /-- Whatever else changes the database. -/
  | library (db : Naiad.Db) (masked : db.Masked) (files : db.FilesUnique)
  | start
  | call (i : Nat) (move : Move)

def Pull.leg (pull : Pull) : Option Leg :=
  match pull.stage with
  | .pulling _ leg => some leg
  | _ => none

/-- What a move of the call reads, and the leg it asks for. -/
def Pull.reads (pull : Pull) (move : Move) : Option (HashDomain × FetchMode) :=
  match pull.stage, move with
  | .reconciled _, .read domain mode => some (domain, mode)
  | _, _ => none

def Pull.asks (pull : Pull) (move : Move) : Option Leg :=
  match pull.stage, move with
  | .pulling _ leg, .ask _ _ => some leg
  | _, _ => none

/-- A write to the domain of the leg gives it another store to see. -/
def Pull.sees (domain : HashDomain) (st : RepoStore) (pull : Pull) : Pull :=
  if pull.leg.any (·.domain = domain) then { pull with held := pull.held ++ [st] } else pull

/-- The arms the capabilities allow. -/
def allowed (caps : Caps) : FetchMode → Bool
  | .whole => caps.mode = .wholeRepo
  | .buckets bits | .delta bits =>
    match caps.mode with
    | .wholeRepo => false
    | .bucketed advertised => bits ≤ advertised

/-- A store made from nothing. -/
def filled (verify : Submission → Bool) (content : List Action) : RepoStore :=
  run (stepStore verify) .empty content

namespace World

def start (verify : Submission → Bool) (db : Naiad.Db) (generation : Option String)
    (content : HashDomain → List Action) : World where
  repository := ⟨generation, fun domain => filled verify (content domain)⟩
  db := db
  cache := none
  pulls := []
  settled := fun _ => false

def setStage (w : World) (i : Nat) (pull : Pull) (stage : Stage) : World :=
  { w with pulls := w.pulls.set i { pull with stage } }

section

variable (u : Unicode) (verify : Submission → Bool) (service : Nat)

def stepCall (w : World) (i : Nat) (pull : Pull) (move : Move) : World :=
  match pull.stage, move with
  | .resolved, .consult =>
    w.setStage i pull (w.cache.elim .missed .returned)
  | .missed, .answer mode repoKey =>
    let caps : Caps := ⟨mode, repoKey, w.repository.generation⟩
    { w.setStage i pull (.returned caps) with cache := some caps }
  | .returned caps, .reconcile =>
    { w.setStage i pull (.reconciled caps) with db := reconcileStoreGeneration w.db service caps }
  | .reconciled caps, .read domain mode =>
    if allowed caps mode then
      w.setStage i { pull with held := [w.repository.stores domain] }
        (.pulling caps (Leg.read w.db service domain mode))
    else w
  | .pulling caps leg, .ask budget n =>
    w.setStage i pull (.pulling caps (leg.ask (w.repository.stores leg.domain) budget n))
  | .pulling caps leg, .merge now =>
    if leg.complete then
      { w.setStage i pull (.reconciled caps) with
        db := leg.merge u service now w.db
        settled := fun domain =>
          w.settled domain || (!pull.rebuilt && decide (leg.domain = domain)) }
    else w
  | _, _ => w

def step (w : World) : Event → World
  | .write domain a =>
    let st := stepStore verify (w.repository.stores domain) a
    { w with
      repository := ⟨w.repository.generation, Function.update w.repository.stores domain st⟩
      pulls := w.pulls.map (Pull.sees domain st) }
  | .rebuild generation content =>
    { w with
      repository := ⟨generation, fun domain => filled verify (content domain)⟩
      pulls := w.pulls.map fun pull => { pull with rebuilt := true }
      settled := fun _ => false }
  | .restart => { w with cache := none, pulls := [] }
  | .library db _ _ => { w with db }
  | .start => { w with pulls := w.pulls ++ [⟨.resolved, false, []⟩] }
  | .call i move =>
    match w.pulls[i]? with
    | some pull => w.stepCall u service i pull move
    | none => w

/-- The first pull of its domain since the last rebuild, as far as it has come. -/
def First (w : World) (pull : Pull) (domain : HashDomain) : Prop :=
  pull.rebuilt = false ∧ w.settled domain = false

instance (w : World) (pull : Pull) (domain : HashDomain) : Decidable (w.First pull domain) :=
  inferInstanceAs (Decidable (_ ∧ _))

/-- The delta round a reply starts finds no cursor on the client, or one past the store's. -/
def FromStart (st : RepoStore) (leg : Leg) : Prop :=
  leg.cursor = none → leg.retried = false →
    leg.storedMarker = none ∨ leg.storedCursor.getD 0 = 0 ∨
      st.mappingCursor < leg.storedCursor.getD 0

instance (st : RepoStore) (leg : Leg) : Decidable (FromStart st leg) :=
  inferInstanceAs (Decidable (_ → _ → _))

/-- In the first pull of a domain since the last rebuild: no two files share a hash of the domain, the
first reply to a delta finds no cursor on the client, or one past the repository's, and no two rows of
a hash share a tag. -/
def Clean (w : World) : Event → Prop
  | .call i move =>
    ∀ pull ∈ w.pulls[i]?,
      (∀ read ∈ pull.reads move, w.First pull read.1 →
        (Leg.read w.db service read.1 read.2).Unshared) ∧
      ∀ leg ∈ pull.asks move, w.First pull leg.domain → leg.mode.isDelta = true →
        Legible u (w.repository.stores leg.domain) ∧
          FromStart (w.repository.stores leg.domain) leg
  | _ => True

instance (w : World) : (e : Event) → Decidable (w.Clean u service e)
  | .call i _ => inferInstanceAs (Decidable (∀ pull ∈ w.pulls[i]?, _ ∧ _))
  | .write _ _ | .rebuild _ _ | .restart | .library _ _ _ | .start => inferInstanceAs (Decidable True)

/-- The first pull of a domain since the last rebuild leaves the tags of the repository. -/
def Repulled (w : World) : Event → Prop
  | .call i (.merge now) =>
    ∀ pull ∈ w.pulls[i]?, ∀ leg ∈ pull.leg, leg.complete = true → w.First pull leg.domain →
      leg.Exact u service pull.held (w.step u verify service (.call i (.merge now))).db
  | _ => True

end

end World

section

variable {u : Unicode} {verify : Submission → Bool} {service : Nat} {w : World}

/-! ## The repository -/

theorem grown_stepStore {st : RepoStore} (h : Grown st) (a : Action) :
    Grown (stepStore verify st a) := by
  have hev := evolves_store verify h.sound a
  exact ⟨hev.sound, h.started.trans (hev.advances.mono (Nat.zero_le _))⟩

theorem grown_filled (verify : Submission → Bool) (content : List Action) :
    Grown (filled verify content) := by
  have hempty : Grown RepoStore.empty := ⟨RepoStore.sound_empty, Advances.refl _ _⟩
  exact run_invariant content hempty fun _ a h => grown_stepStore h a

/-! ## The database -/

/-- Recording a generation changes no file, tag or mapping. -/
theorem reconcile_frame (db : Naiad.Db) (service : Nat) (caps : Caps) :
    (reconcileStoreGeneration db service caps).mappings = db.mappings ∧
      (reconcileStoreGeneration db service caps).tags = db.tags ∧
      (reconcileStoreGeneration db service caps).files = db.files := by
  have hset : ∀ (db' : Naiad.Db) (generation : String),
      let db'' := db'.committed (db'.setServiceStoreGeneration service generation)
      db''.mappings = db'.mappings ∧ db''.tags = db'.tags ∧ db''.files = db'.files := by
    intro db' generation
    unfold setServiceStoreGeneration
    split
    · exact ⟨rfl, rfl, rfl⟩
    · exact ⟨rfl, rfl, rfl⟩
  unfold reconcileStoreGeneration
  split
  · exact ⟨rfl, rfl, rfl⟩
  · split
    · exact hset _ _
    · split
      · exact ⟨rfl, rfl, rfl⟩
      · exact hset _ _

/-- **A call that sees another generation than the stored one leaves no cursor and no marker of the
service, in any domain.** -/
theorem pullState_reset {db : Naiad.Db} {caps : Caps} {old new : String}
    (hnew : caps.storeGeneration = some new)
    (hold : (db.services.lookup service).bind ServiceRow.storeGeneration = some old)
    (hne : old ≠ new) (domain : String) :
    (reconcileStoreGeneration db service caps).pullState.lookup (service, domain) = none := by
  have hreset : (db.resetServiceCursors service).pullState.lookup (service, domain) = none := by
    show (db.pullState.select fun k _ => k.1 ≠ service).lookup (service, domain) = none
    rw [Table.lookup_select]
    cases db.pullState.lookup (service, domain) with
    | none => rfl
    | some state => simp [Option.filter]
  simp only [reconcileStoreGeneration, hnew, hold, if_neg hne]
  unfold setServiceStoreGeneration
  split
  · exact hreset
  · exact hreset

/-! ## Runs -/

/-- A leg on its way to a full fetch. -/
structure OnTrack (u : Unicode) (held : List RepoStore) (leg : Leg) : Prop where
  planned : leg.Planned
  unshared : leg.Unshared
  fetch : leg.Full u held ∨ ∃ bits, leg.Behind bits ∨ leg.Unasked bits

namespace World

/-- A database and stores as their writers leave them, and each first pull of a domain on its way to
a full fetch that the current store answers. -/
structure Sound (u : Unicode) (w : World) : Prop where
  masked : w.db.Masked
  files : w.db.FilesUnique
  grown : ∀ domain, Grown (w.repository.stores domain)
  pulls : ∀ pull ∈ w.pulls, ∀ leg ∈ pull.leg, w.First pull leg.domain →
    w.repository.stores leg.domain ∈ pull.held ∧ OnTrack u pull.held leg

end World

theorem OnTrack.mono {leg : Leg} {held held' : List RepoStore} (h : OnTrack u held leg)
    (hsub : held ⊆ held') : OnTrack u held' leg := by
  refine ⟨h.planned, h.unshared, ?_⟩
  rcases h.fetch with hfull | hwait
  · left
    cases hfull with
    | fresh bits h => exact .fresh bits (h.mono hsub)
    | gathered bits h => exact .gathered bits (h.mono hsub)
    | whole h => exact .whole (h.mono hsub)
  · exact .inr hwait

theorem OnTrack.read {db : Naiad.Db} {domain : HashDomain} {mode : FetchMode}
    {held : List RepoStore} (hc : db.FilesUnique)
    (hu : (Leg.read db service domain mode).Unshared) :
    OnTrack u held (Leg.read db service domain mode) := by
  refine ⟨planned_read hc service domain mode, hu, ?_⟩
  cases mode with
  | whole => exact .inl (.whole ⟨rfl, fun hcomplete => by cases hcomplete⟩)
  | buckets bits =>
    refine .inl (.gathered bits ⟨rfl, ?_⟩)
    refine Answers.nil ?_
    rintro ⟨hash, t⟩ hmem
    have hmem' : (hash, t) ∈ pairs ∅ := hmem
    simp [mem_pairs] at hmem'
  | delta bits =>
    refine .inr ⟨bits, .inr ⟨rfl, rfl, rfl, rfl, rfl, ?_⟩⟩
    intro hzero
    refine List.map_congr_left ?_
    intro key _
    rcases hzero with hmarker | hcursor
    · exact if_pos (Option.isNone_iff_eq_none.2 hmarker)
    · split
      · rfl
      · split
        · rfl
        · exact hcursor

theorem OnTrack.ask {leg : Leg} {held : List RepoStore} {st : RepoStore} {budget n : Nat}
    (h : OnTrack u held leg) (hst : st ∈ held) (hgrown : Grown st)
    (hclean : leg.mode.isDelta = true → Legible u st ∧ World.FromStart st leg) :
    OnTrack u held (leg.ask st budget n) := by
  refine ⟨h.planned.ask, h.unshared.ask, ?_⟩
  have hdelta : ∀ bits, leg.mode = .delta bits → leg.mode.isDelta = true := by
    intro bits hmode
    rw [hmode]
    rfl
  rcases h.fetch with hfull | ⟨bits, hbehind | hunasked⟩
  · left
    cases hfull with
    | fresh bits hf =>
      exact .fresh bits (hf.ask h.planned hst hgrown (hclean (hdelta bits hf.mode)).1)
    | gathered bits hg => exact .gathered bits (hg.ask h.planned hst hgrown.sound)
    | whole hw => exact .whole (hw.ask hst hgrown.sound)
  · rcases hbehind.ask with hb | hf
    · exact .inr ⟨bits, .inl hb⟩
    · exact .inl (.fresh bits hf)
  · obtain ⟨hlegible, hfirst⟩ := hclean (hdelta bits hunasked.mode)
    rcases hunasked.ask h.planned hst hgrown hlegible (hfirst hunasked.cursor hunasked.retried) with
      hua | hb | hf
    · exact .inr ⟨bits, .inr hua⟩
    · exact .inr ⟨bits, .inl hb⟩
    · exact .inl (.fresh bits hf)

/-- A finished leg on track has asked for everything from the beginning. -/
theorem OnTrack.full {leg : Leg} {held : List RepoStore} (h : OnTrack u held leg)
    (hcomplete : leg.complete = true) : leg.Full u held := by
  rcases h.fetch with hfull | ⟨bits, hbehind | hunasked⟩
  · exact hfull
  · rw [hbehind.complete] at hcomplete
    cases hcomplete
  · simp [Leg.complete, hunasked.cursor] at hcomplete

namespace World

/-- A call at another stage: of the calls in progress only this one is new. -/
theorem Sound.setStage {i : Nat} {pull : Pull} {stage : Stage} (h : w.Sound u)
    (hpull : ∀ leg ∈ Pull.leg { pull with stage }, w.First pull leg.domain →
      w.repository.stores leg.domain ∈ pull.held ∧ OnTrack u pull.held leg) :
    (w.setStage i pull stage).Sound u := by
  refine ⟨h.masked, h.files, h.grown, ?_⟩
  intro pull' hpull' leg hleg hfirst
  rcases List.mem_or_eq_of_mem_set hpull' with hmem | rfl
  · exact h.pulls pull' hmem leg hleg hfirst
  · exact hpull leg hleg hfirst

theorem Sound.withDb (h : w.Sound u) {db : Naiad.Db} (hm : db.Masked) (hc : db.FilesUnique) :
    ({ w with db } : World).Sound u := ⟨hm, hc, h.grown, h.pulls⟩

theorem Sound.stepCall {i : Nat} {pull : Pull} {move : Move} (h : w.Sound u)
    (hi : w.pulls[i]? = some pull) (hclean : w.Clean u service (.call i move)) :
    (w.stepCall u service i pull move).Sound u := by
  have hclean := hclean pull hi
  cases hstage : pull.stage with
  | resolved =>
    cases move with
    | consult =>
      simp only [World.stepCall, hstage]
      refine h.setStage ?_
      cases w.cache with
      | none => nofun
      | some caps => nofun
    | _ =>
      simp only [World.stepCall, hstage]
      exact h
  | missed =>
    cases move with
    | answer mode repoKey =>
      simp only [World.stepCall, hstage]
      have hset : (w.setStage i pull (.returned ⟨mode, repoKey, w.repository.generation⟩)).Sound u :=
        h.setStage fun leg hleg => by cases hleg
      exact ⟨hset.masked, hset.files, hset.grown, hset.pulls⟩
    | _ =>
      simp only [World.stepCall, hstage]
      exact h
  | returned caps =>
    cases move with
    | reconcile =>
      simp only [World.stepCall, hstage]
      obtain ⟨hmappings, htags, hfiles⟩ := reconcile_frame w.db service caps
      exact (h.setStage fun leg hleg => by cases hleg).withDb (h.masked.of_frame hmappings htags)
        (h.files.of_files hfiles)
    | _ =>
      simp only [World.stepCall, hstage]
      exact h
  | reconciled caps =>
    cases move with
    | read domain mode =>
      simp only [World.stepCall, hstage]
      have hread : (domain, mode) ∈ pull.reads (.read domain mode) := by simp [Pull.reads, hstage]
      split
      · refine h.setStage ?_
        intro leg hleg hfirst
        cases hleg
        exact ⟨List.mem_singleton_self _, OnTrack.read h.files (hclean.1 _ hread hfirst)⟩
      · exact h
    | _ =>
      simp only [World.stepCall, hstage]
      exact h
  | pulling caps leg =>
    have hleg : leg ∈ pull.leg := by simp [Pull.leg, hstage]
    cases move with
    | ask budget n =>
      simp only [World.stepCall, hstage]
      have hask : leg ∈ pull.asks (.ask budget n) := by simp [Pull.asks, hstage]
      refine h.setStage ?_
      intro leg' hleg' hfirst
      cases hleg'
      have hdomain := (leg.ask_frame (w.repository.stores leg.domain) budget n).1
      rw [hdomain] at hfirst ⊢
      obtain ⟨hst, htrack⟩ := h.pulls pull (List.mem_of_getElem? hi) leg hleg hfirst
      exact ⟨hst, htrack.ask hst (h.grown _) (hclean.2 leg hask hfirst)⟩
    | merge now =>
      simp only [World.stepCall, hstage]
      split
      · have hset : (w.setStage i pull (.reconciled caps)).Sound u :=
          h.setStage fun leg hleg => by cases hleg
        refine ⟨Leg.masked_merge h.masked, ?_, hset.grown, ?_⟩
        · exact h.files.of_files (Leg.files_merge h.masked.toMappingTags)
        · intro pull' hpull' leg' hleg' hfirst
          refine hset.pulls pull' hpull' leg' hleg' ⟨hfirst.1, ?_⟩
          have hsettled := hfirst.2
          simp only [Bool.or_eq_false_iff] at hsettled
          exact hsettled.1
      · exact h
    | _ =>
      simp only [World.stepCall, hstage]
      exact h

/-- A write to a domain shows its legs another store. -/
theorem Sound.write (h : w.Sound u) (domain : HashDomain) (a : Action) :
    (w.step u verify service (.write domain a)).Sound u := by
  refine ⟨h.masked, h.files, ?_, ?_⟩
  · intro domain'
    by_cases hd : domain' = domain
    · subst hd
      simp only [step, Function.update_self]
      exact grown_stepStore (h.grown domain') a
    · simp only [step, Function.update_of_ne hd]
      exact h.grown domain'
  · intro pull' hpull' leg hleg hfirst
    obtain ⟨pull, hpull, rfl⟩ := List.mem_map.1 hpull'
    have hsame : (pull.sees domain (stepStore verify (w.repository.stores domain) a)).leg = pull.leg ∧
        (pull.sees domain (stepStore verify (w.repository.stores domain) a)).rebuilt = pull.rebuilt := by
      unfold Pull.sees
      split
      · exact ⟨rfl, rfl⟩
      · exact ⟨rfl, rfl⟩
    rw [hsame.1] at hleg
    have hfirst' : w.First pull leg.domain := ⟨hsame.2.symm.trans hfirst.1, hfirst.2⟩
    obtain ⟨hst, htrack⟩ := h.pulls pull hpull leg hleg hfirst'
    unfold Pull.sees
    by_cases hd : leg.domain = domain
    · have hany : pull.leg.any (·.domain = domain) = true := by
        rw [Option.mem_def.1 hleg, Option.any_some, hd, decide_eq_true rfl]
      rw [if_pos hany]
      subst hd
      simp only [step, Function.update_self]
      exact ⟨by simp, htrack.mono (List.subset_append_left _ _)⟩
    · have hany : ¬ pull.leg.any (·.domain = domain) = true := by
        rw [Option.mem_def.1 hleg, Option.any_some, decide_eq_true_eq]
        exact hd
      rw [if_neg hany]
      simp only [step, Function.update_of_ne hd]
      exact ⟨hst, htrack⟩

theorem Sound.step (h : w.Sound u) (e : Event) (hclean : w.Clean u service e) :
    (w.step u verify service e).Sound u := by
  cases e with
  | write domain a => exact h.write domain a
  | rebuild generation content =>
    refine ⟨h.masked, h.files, fun domain => grown_filled verify (content domain), ?_⟩
    intro pull' hpull' leg _ hfirst
    obtain ⟨pull, _, rfl⟩ := List.mem_map.1 hpull'
    cases hfirst.1
  | restart => exact ⟨h.masked, h.files, h.grown, fun _ hpull => by cases hpull⟩
  | library db masked files => exact h.withDb masked files
  | start =>
    refine ⟨h.masked, h.files, h.grown, ?_⟩
    intro pull hpull leg hleg hfirst
    rcases List.mem_append.1 hpull with hmem | hmem
    · exact h.pulls pull hmem leg hleg hfirst
    · rw [List.mem_singleton.1 hmem] at hleg
      cases hleg
  | call i move =>
    cases hi : w.pulls[i]? with
    | none =>
      simp only [World.step, hi]
      exact h
    | some pull =>
      simp only [World.step, hi]
      exact h.stepCall hi hclean

theorem sound_start {db : Naiad.Db} (hm : db.Masked) (hc : db.FilesUnique)
    (generation : Option String) (content : HashDomain → List Action) :
    (start verify db generation content).Sound u :=
  ⟨hm, hc, fun domain => grown_filled verify (content domain), fun _ hpull => by cases hpull⟩

theorem Sound.repulled (h : w.Sound u) (e : Event) : w.Repulled u verify service e := by
  cases e with
  | call i move =>
    cases move with
    | merge now =>
      intro pull hi leg hleg hcomplete hfirst
      obtain ⟨_, htrack⟩ := h.pulls pull (List.mem_of_getElem? hi) leg hleg hfirst
      obtain ⟨caps, hstage⟩ : ∃ caps, pull.stage = .pulling caps leg := by
        unfold Pull.leg at hleg
        split at hleg
        · cases hleg
          exact ⟨_, ‹_›⟩
        · cases hleg
      have hi' : w.pulls[i]? = some pull := hi
      simp only [World.step, hi', World.stepCall, hstage, hcomplete, if_true]
      exact Leg.exact_merge h.masked.toMappingTags h.files htrack.planned htrack.unshared
        (htrack.full hcomplete) hcomplete
    | _ => trivial
  | _ => trivial

end World

/-- **Whatever the repository and the client have been through, the first pull of a domain that starts
and ends after the last rebuild leaves every file it read with the tags its hash has in the
repository, as the repository was when it answered for the file, if each delta of such a pull finds
no cursor on the client, or one past the repository's.** -/
theorem repulled_in_full (u : Unicode) (verify : Submission → Bool) (service : Nat) (db : Naiad.Db)
    (masked : db.Masked) (files : db.FilesUnique) (generation : Option String)
    (content : HashDomain → List Action) (events : List Event)
    (hclean : AllSteps (World.step u verify service) (World.Clean u service)
      (World.start verify db generation content) events) :
    AllSteps (World.step u verify service) (World.Repulled u verify service)
      (World.start verify db generation content) events :=
  hclean.imp (World.sound_start masked files generation content)
    (fun _ e h hc => h.step e hc) fun _ e h _ => h.repulled e

/-! ## A rebuild under a running daemon -/

def oneFile : Naiad.Db :=
  (Db.empty.write (.insertFile ⟨Hash.fill 1, [47, 97], 10, none, none, none⟩ 1 0)).serve
    (.subscribe "a" "http://a" none)

theorem masked_oneFile : oneFile.Masked := by
  refine ((masked_empty.write (.insertFile ⟨Hash.fill 1, [47, 97], 10, none, none, none⟩ 1 0))).of_frame
    ?_ ?_
  · rfl
  · rfl

theorem filesUnique_oneFile : oneFile.FilesUnique := by
  have hentries : ∀ e ∈ oneFile.files.entries, ∀ e' ∈ oneFile.files.entries,
      e.2.blake3 = e'.2.blake3 → e.1 = e'.1 := by decide
  intro f g row row' hf hg heq
  exact hentries ⟨f, row⟩ (Table.mem_entries.2 hf) ⟨g, row'⟩ (Table.mem_entries.2 hg) heq

def taggedWith (tag : String) (domain : HashDomain) : List Action :=
  match domain with
  | .blake3 => [.bulk [((Hash.fill 1).toHex, tag, false)]]
  | .sha256 => []

/-- One pull of the BLAKE3 domain, by a call that fetches the capabilities or finds them cached. -/
def pullOnce (i : Nat) : List Event :=
  .start :: [Move.consult, .answer (.bucketed 8) none, .reconcile, .read .blake3 (.delta 8),
    .ask 10000 5, .merge 0].map (.call i)

def sampleRun (between : List Event) (i : Nat) : List Event :=
  pullOnce 0 ++ .rebuild (some "new") (taggedWith "new") :: between ++ pullOnce i

def sampleStart : World :=
  World.start (fun _ => true) oneFile (some "old") (taggedWith "old")

theorem repulled_in_full_restarted :
    AllSteps (World.step .plainText (fun _ => true) 2) (World.Repulled .plainText (fun _ => true) 2)
        sampleStart (sampleRun [.restart] 0) ∧
      (run (World.step .plainText (fun _ => true) 2) sampleStart
        (sampleRun [.restart] 0)).db.carries "blake3" 1 ⟨"", "new"⟩ 2 = true :=
  ⟨repulled_in_full .plainText _ 2 oneFile masked_oneFile filesUnique_oneFile _ _ _
    (by decide +kernel), by decide +kernel⟩

/-- The same without the restart: the cached capabilities hide the new generation, and the new store
has as many sequence numbers as the old one had. -/
theorem repulled_in_full_running :
    ¬ AllSteps (World.step .plainText (fun _ => true) 2)
      (World.Repulled .plainText (fun _ => true) 2) sampleStart (sampleRun [] 1) := by
  intro h
  have hsplit : sampleRun [] 1 = (sampleRun [] 1).take 14 ++ [.call 1 (.merge 0)] := rfl
  rw [hsplit, AllSteps.append] at h
  have hlast := h.2.1
  have hstate : ((run (World.step .plainText (fun _ => true) 2) sampleStart
      ((sampleRun [] 1).take 14)).pulls[1]?).any (fun pull => !pull.rebuilt &&
        pull.held.all (fun st => decide (((st.row (Hash.fill 1) "new").map Server.MappingRow.status) =
          some .current)) &&
        pull.leg.any fun leg => leg.complete && decide (leg.domain = .blake3) &&
          decide (leg.owned = [(Hash.fill 1, Hash.fill 1)])) = true := by decide +kernel
  obtain ⟨pull, hpull, hstate⟩ := (Option.any_eq_true _ _).1 hstate
  simp only [Bool.and_eq_true, Bool.not_eq_true', List.all_eq_true, decide_eq_true_eq] at hstate
  obtain ⟨⟨hrebuilt, hheld⟩, hleg⟩ := hstate
  obtain ⟨leg, hleg, hstate⟩ := (Option.any_eq_true _ _).1 hleg
  simp only [Bool.and_eq_true, decide_eq_true_eq] at hstate
  obtain ⟨⟨hcomplete, hdomain⟩, howned⟩ := hstate
  have hexact := hlast pull hpull leg hleg hcomplete
    ⟨hrebuilt, by rw [hdomain]; decide +kernel⟩ (Hash.fill 1, Hash.fill 1) (by simp [howned]) 1
    ⟨Hash.fill 1, 10, none, none, none, none, none, none, 0⟩ (by decide +kernel) rfl
    (by rw [hdomain]; rfl)
  obtain ⟨st, hst, htags⟩ := hexact
  obtain ⟨r, hrow, hcurrent⟩ := Option.map_eq_some_iff.1 (hheld st hst)
  have hcarries := (htags ⟨"", "new"⟩).2 ⟨"new", ⟨r, hrow, hcurrent⟩, by decide +kernel⟩
  rw [hdomain] at hcarries
  exact absurd hcarries (by decide +kernel)

end

end Repull
end Daemon
end Naiad
