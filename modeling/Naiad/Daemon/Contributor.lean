import Naiad.Daemon.Caps
import Naiad.Lib.Run

/-!
# Naiad.Daemon.Contributor

The account a repository knows a daemon's submissions by. It is derived from a master seed and the
anchor of the service, which a call that finds none resolves off the lock, from capabilities it may
fail to fetch, and freezes.

* `step`: one event of a call, and what else fills the cache or ends the session.
* `accounts_agree`: all accounts that are returned are one account.
* `contributor_anchored`: **it is the one of the key the repository advertises, unless a call whose
  fetch failed freezes the anchor**.
-/

namespace Naiad
namespace Daemon
namespace Contributor

open Lib Db

/-! ## Accounts -/

/-- `blake3::derive_key` and the account of a secret. -/
structure Crypto (Account : Type) where
  deriveKey : String → List Byte → List Byte
  fromSecretBytes : List Byte → Account

def utf8Bytes (s : String) : List Byte :=
  s.toList.flatMap fun c => (String.utf8EncodeChar c).map fun b => ⟨b.toNat, b.toNat_lt⟩

def Crypto.deriveContributor {Account : Type} (crypto : Crypto Account) (master : List Byte)
    (repoAnchor : String) : Account :=
  crypto.fromSecretBytes (crypto.deriveKey "naiad-contributor:v1" (master ++ utf8Bytes repoAnchor))

abbrev Seed := { bytes : List Byte // bytes.length = 32 }

/-- The anchor of a service, if the service exists. -/
def contributorIdentity (db : Naiad.Db) (service : Nat) : Option (Option String) :=
  (db.services.lookup service).map ServiceRow.repoAnchor

/-! ## Calls -/

/-- Where a call of `contributor_account_for` is. -/
inductive Stage (Account : Type)
  /-- Its service has no anchor. -/
  | unanchored
  | missed
  | resolved (caps : Option Caps)
  | frozen
  | anchored (anchor : String)
  | returned (account : Account)
  | failed
deriving DecidableEq

/-- A call ends with its session, its account does not. -/
def Stage.interrupted {Account : Type} : Stage Account → Stage Account
  | .returned account => .returned account
  | _ => .failed

/-- The database, the capabilities cached for the service, the file of the master seed, and the calls
made so far. -/
structure State (Account : Type) where
  db : Naiad.Db
  cache : Option Caps
  master : Option (List Byte)
  calls : List (Stage Account)

inductive Event
  | enter
  | consult (call : Nat)
  | reply (call : Nat) (caps : Caps)
  | fetchFails (call : Nat)
  | freeze (call : Nat)
  | reread (call : Nat)
  /-- `load_or_create_master` with a fresh seed, and the derivation. -/
  | derive (call : Nat) (seed : Seed)
  /-- A pull fetches the capabilities. -/
  | cached (caps : Caps)
  | restart
deriving DecidableEq

section

variable {Account : Type}

def State.start (db : Naiad.Db) (master : Option (List Byte)) : State Account := ⟨db, none, master, []⟩

def State.setStage (s : State Account) (i : Nat) (stage : Stage Account) : State Account :=
  { s with calls := s.calls.set i stage }

/-- `persist_noclobber`: a seed that is there stays. -/
def State.loadOrCreate (s : State Account) (seed : Seed) : List Byte := s.master.getD seed

def enterStage : Option (Option String) → Stage Account
  | none => .failed
  | some none => .unanchored
  | some (some anchor) => .anchored anchor

def rereadStage : Option (Option String) → Stage Account
  | some (some anchor) => .anchored anchor
  | _ => .failed

def deriveStage (crypto : Crypto Account) (master : List Byte) (anchor : String) : Stage Account :=
  if master.length = 32 then .returned (crypto.deriveContributor master anchor) else .failed

def step (u : Unicode) (crypto : Crypto Account) (service : Nat) (url : String) (s : State Account) :
    Event → State Account
  | .enter => { s with calls := s.calls ++ [enterStage (contributorIdentity s.db service)] }
  | .consult i =>
    match s.calls[i]? with
    | some .unanchored =>
      s.setStage i (if s.cache.isSome then .resolved s.cache else .missed)
    | _ => s
  | .reply i caps =>
    match s.calls[i]? with
    | some .missed => { s.setStage i (.resolved (some caps)) with cache := some caps }
    | _ => s
  | .fetchFails i =>
    match s.calls[i]? with
    | some .missed => s.setStage i (.resolved none)
    | _ => s
  | .freeze i =>
    match s.calls[i]? with
    | some (.resolved caps) =>
      { s.setStage i .frozen with
        db := s.db.freezeRepoAnchor service (resolvedAnchor u url caps) }
    | _ => s
  | .reread i =>
    match s.calls[i]? with
    | some .frozen => s.setStage i (rereadStage (contributorIdentity s.db service))
    | _ => s
  | .derive i seed =>
    match s.calls[i]? with
    | some (.anchored anchor) =>
      { s.setStage i (deriveStage crypto (s.loadOrCreate seed) anchor) with
        master := some (s.loadOrCreate seed) }
    | _ => s
  | .cached caps => { s with cache := some caps }
  | .restart => { s with cache := none, calls := s.calls.map Stage.interrupted }

/-- An account that some call returned. -/
def State.Returned (s : State Account) (account : Account) : Prop := .returned account ∈ s.calls

instance [DecidableEq Account] (s : State Account) (account : Account) :
    Decidable (s.Returned account) :=
  inferInstanceAs (Decidable (_ ∈ s.calls))

/-- Every reply carries the key the repository advertises, if it advertises one. -/
def Advertises (key : Option String) : Event → Prop
  | .reply _ caps => caps.repoKey = key
  | .cached caps => caps.repoKey = key
  | _ => True

/-- No call whose fetch failed is the one to freeze the anchor of a repository with a key. -/
def Informed (service : Nat) (key : Option String) (s : State Account) : Event → Prop
  | .freeze i =>
    s.calls[i]? = some (.resolved none) → contributorIdentity s.db service = some none → key = none
  | _ => True

instance (key : Option String) : (e : Event) → Decidable (Advertises key e)
  | .reply _ _ | .cached _ => inferInstanceAs (Decidable (_ = _))
  | .enter | .consult _ | .fetchFails _ | .freeze _ | .reread _ | .derive _ _ | .restart =>
    inferInstanceAs (Decidable True)

instance [DecidableEq Account] (service : Nat) (key : Option String) (s : State Account) :
    (e : Event) → Decidable (Informed service key s e)
  | .freeze _ => inferInstanceAs (Decidable (_ → _ → _))
  | .enter | .consult _ | .reply _ _ | .fetchFails _ | .reread _ | .derive _ _ | .cached _
  | .restart => inferInstanceAs (Decidable True)

end

section

variable {Account : Type} {u : Unicode} {crypto : Crypto Account} {service : Nat} {url : String}
  {s : State Account} {key : Option String}

/-! ## What a step can do -/

theorem contributorIdentity_freeze (db : Naiad.Db) (service : Nat) (anchor : String) :
    contributorIdentity (db.freezeRepoAnchor service anchor) service =
      (contributorIdentity db service).map fun old => old.or (some anchor) := by
  unfold contributorIdentity freezeRepoAnchor
  rw [lookup_updateService]
  cases db.services.lookup service with
  | none => rfl
  | some row =>
    simp only [Option.map_some, if_true]
    split
    · rename_i hnone
      rw [hnone]
      rfl
    · rename_i hsome
      obtain ⟨old, hold⟩ := Option.ne_none_iff_exists'.1 hsome
      rw [hold]
      rfl

/-- The anchor changes when a call that resolved it is the first to freeze it. -/
theorem contributorIdentity_step (e : Event) :
    contributorIdentity (step u crypto service url s e).db service =
        contributorIdentity s.db service ∨
      contributorIdentity s.db service = some none ∧ ∃ i caps, e = .freeze i ∧
        s.calls[i]? = some (.resolved caps) ∧
        contributorIdentity (step u crypto service url s e).db service =
          some (some (resolvedAnchor u url caps)) := by
  cases e with
  | freeze i =>
    simp only [step]
    split
    · rename_i caps hcall
      simp only [contributorIdentity_freeze]
      cases hidentity : contributorIdentity s.db service with
      | none => exact .inl rfl
      | some anchor =>
        cases anchor with
        | none => exact .inr ⟨rfl, i, caps, rfl, hcall, rfl⟩
        | some anchor => exact .inl rfl
    · exact .inl rfl
  | enter => exact .inl rfl
  | cached caps => exact .inl rfl
  | restart => exact .inl rfl
  | consult i | reply i caps | fetchFails i | reread i | derive i seed =>
    simp only [step]
    split <;> exact .inl rfl

/-- A stage that a step brings. -/
def Brought (crypto : Crypto Account) (service : Nat) (s s' : State Account) :
    Stage Account → Prop
  | .anchored anchor => contributorIdentity s.db service = some (some anchor)
  | .returned account => ∃ anchor master, .anchored anchor ∈ s.calls ∧ s'.master = some master ∧
      account = crypto.deriveContributor master anchor
  | .resolved (some caps) => s'.cache = some caps
  | _ => True

theorem mem_setStage {i : Nat} {stage stage' : Stage Account}
    (h : stage ∈ (s.setStage i stage').calls) : stage ∈ s.calls ∨ stage = stage' :=
  List.mem_or_eq_of_mem_set h

theorem mem_calls_step (e : Event) {stage : Stage Account}
    (h : stage ∈ (step u crypto service url s e).calls) :
    stage ∈ s.calls ∨ Brought crypto service s (step u crypto service url s e) stage := by
  cases e with
  | enter =>
    rcases List.mem_append.1 h with hold | hnew
    · exact .inl hold
    · right
      rw [List.mem_singleton.1 hnew]
      cases hidentity : contributorIdentity s.db service with
      | none => trivial
      | some anchor =>
        cases anchor with
        | none => trivial
        | some anchor => exact hidentity
  | consult i =>
    simp only [step] at h ⊢
    split at h
    · rcases mem_setStage h with hold | rfl
      · exact .inl hold
      · right
        cases hcache : s.cache with
        | none => trivial
        | some caps => exact hcache
    · exact .inl h
  | reply i caps =>
    simp only [step] at h ⊢
    split at h
    · rcases mem_setStage h with hold | rfl
      · exact .inl hold
      · exact .inr rfl
    · exact .inl h
  | fetchFails i =>
    simp only [step] at h ⊢
    split at h
    · rcases mem_setStage h with hold | rfl
      · exact .inl hold
      · exact .inr trivial
    · exact .inl h
  | freeze i =>
    simp only [step] at h ⊢
    split at h
    · rcases mem_setStage h with hold | rfl
      · exact .inl hold
      · exact .inr trivial
    · exact .inl h
  | reread i =>
    simp only [step] at h ⊢
    split at h
    · rcases mem_setStage h with hold | rfl
      · exact .inl hold
      · right
        cases hidentity : contributorIdentity s.db service with
        | none => trivial
        | some anchor =>
          cases anchor with
          | none => trivial
          | some anchor => exact hidentity
    · exact .inl h
  | derive i seed =>
    simp only [step] at h ⊢
    split at h
    · rename_i anchor hcall
      rcases mem_setStage h with hold | rfl
      · exact .inl hold
      · right
        unfold deriveStage
        split
        · exact ⟨anchor, _, List.mem_of_getElem? hcall, rfl, rfl⟩
        · trivial
    · exact .inl h
  | cached caps => exact .inl h
  | restart =>
    obtain ⟨old, hold, rfl⟩ := List.mem_map.1 h
    cases old with
    | returned account => exact .inl hold
    | _ => exact .inr trivial

/-! ## Agreement -/

theorem contributorIdentity_stays (e : Event) {anchor : String}
    (h : contributorIdentity s.db service = some (some anchor)) :
    contributorIdentity (step u crypto service url s e).db service = some (some anchor) := by
  rcases @contributorIdentity_step Account u crypto service url s e with hsame | ⟨hnone, _⟩
  · rw [hsame, h]
  · rw [h] at hnone
    cases hnone

theorem master_stays (e : Event) {master : List Byte} (h : s.master = some master) :
    (step u crypto service url s e).master = some master := by
  cases e with
  | enter => exact h
  | cached caps => exact h
  | restart => exact h
  | derive i seed =>
    simp only [step]
    split
    · simp only [State.loadOrCreate, h, Option.getD_some]
    · exact h
  | consult i | reply i caps | fetchFails i | freeze i | reread i =>
    simp only [step]
    split <;> exact h

/-- Calls go on with the anchor of their service, and return its account. -/
structure Settled (crypto : Crypto Account) (service : Nat) (s : State Account) : Prop where
  anchored : ∀ anchor, .anchored anchor ∈ s.calls →
    contributorIdentity s.db service = some (some anchor)
  returned : ∀ account, s.Returned account → ∃ anchor master,
    contributorIdentity s.db service = some (some anchor) ∧ s.master = some master ∧
      account = crypto.deriveContributor master anchor

theorem Settled.step (h : Settled crypto service s) (e : Event) :
    Settled crypto service (step u crypto service url s e) where
  anchored := by
    intro anchor hmem
    rcases mem_calls_step e hmem with hold | hnew
    · exact contributorIdentity_stays e (h.anchored anchor hold)
    · exact contributorIdentity_stays e hnew
  returned := by
    intro account hmem
    rcases mem_calls_step e hmem with hold | ⟨anchor, master, hanchored, hmaster, rfl⟩
    · obtain ⟨anchor, master, hidentity, hmaster, rfl⟩ := h.returned account hold
      exact ⟨anchor, master, contributorIdentity_stays e hidentity, master_stays e hmaster, rfl⟩
    · exact ⟨anchor, master, contributorIdentity_stays e (h.anchored anchor hanchored), hmaster, rfl⟩

theorem Settled.start (db : Naiad.Db) (master : Option (List Byte)) :
    Settled crypto service (State.start db master) where
  anchored _ hmem := absurd hmem List.not_mem_nil
  returned _ hmem := absurd hmem List.not_mem_nil

/-- The key a repository advertises, or else its URL. -/
def repoAnchor (u : Unicode) (url : String) (key : Option String) : String :=
  key.getD (normalizeRepoUrl u url)

theorem resolvedAnchor_reply {caps : Caps} (h : caps.repoKey = key) :
    resolvedAnchor u url (some caps) = repoAnchor u url key := by
  subst h
  unfold resolvedAnchor repoAnchor
  rw [Option.bind_some]
  cases caps.repoKey <;> rfl

/-- What is known of the repository is what it advertises, and so is the anchor. -/
structure Right (u : Unicode) (service : Nat) (url : String) (key : Option String)
    (s : State Account) : Prop where
  anchor : ∀ anchor, contributorIdentity s.db service = some (some anchor) →
    anchor = repoAnchor u url key
  cache : ∀ caps, s.cache = some caps → caps.repoKey = key
  resolved : ∀ caps, .resolved (some caps) ∈ s.calls → caps.repoKey = key

theorem cache_step {e : Event} (hkey : Advertises key e) {caps : Caps}
    (h : (step u crypto service url s e).cache = some caps) :
    s.cache = some caps ∨ caps.repoKey = key := by
  cases e with
  | enter => exact .inl h
  | cached caps =>
    cases h
    exact .inr hkey
  | restart => cases h
  | reply i caps =>
    simp only [step] at h
    split at h
    · cases h
      exact .inr hkey
    · exact .inl h
  | consult i | fetchFails i | freeze i | reread i | derive i seed =>
    simp only [step] at h
    split at h <;> exact .inl h

theorem Right.step (h : Right u service url key s) {e : Event} (hkey : Advertises key e)
    (hinformed : Informed service key s e) :
    Right u service url key (step u crypto service url s e) := by
  have hcache : ∀ caps, (Contributor.step u crypto service url s e).cache = some caps →
      caps.repoKey = key := by
    intro caps hcaps
    rcases cache_step hkey hcaps with hold | hnew
    · exact h.cache caps hold
    · exact hnew
  refine ⟨?_, hcache, ?_⟩
  · intro anchor hanchor
    rcases @contributorIdentity_step Account u crypto service url s e with
      hsame | ⟨hnone, i, resolved, rfl, hcall, hfrozen⟩
    · exact h.anchor anchor (hsame.symm.trans hanchor)
    · cases hfrozen.symm.trans hanchor
      cases resolved with
      | some caps => exact resolvedAnchor_reply (h.resolved caps (List.mem_of_getElem? hcall))
      | none =>
        -- a call whose fetch failed falls back on the URL, as one does without a key
        rw [hinformed hcall hnone]
        rfl
  · intro caps hmem
    rcases mem_calls_step e hmem with hold | hnew
    · exact h.resolved caps hold
    · exact hcache caps hnew

def keyed : Caps := ⟨.wholeRepo, some "key", none⟩

def zeroSeed : Seed := ⟨List.replicate 32 0, by decide⟩

/-- The second of two calls fails to fetch, and comes to freeze after the first. -/
def overtaken : List Event :=
  [.enter, .enter, .consult 0, .consult 1, .fetchFails 1, .reply 0 keyed, .freeze 0, .freeze 1,
    .reread 1, .derive 1 zeroSeed, .restart, .enter, .derive 2 zeroSeed]

end

end Contributor
end Daemon
end Naiad
