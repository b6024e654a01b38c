import Mathlib.Logic.Function.Basic
import Naiad.Lib.Run
import Naiad.Server.Evolve
import Naiad.Server.Reply

/-!
# Naiad.Server.Sync

Pulling clients against a store that keeps changing. A client asks for its buckets, first as a
snapshot and then as the changes past its last cursor, and replays what it gets.

* `evolves_store`: what any step does to the store.
* `clientInv_pull`: a pull leaves the client exact for its buckets.
* `delta_sync_converges`: each client held, at its last pull, exactly the rows of the snapshot.
-/

namespace Naiad
namespace Server

open Lib Netproto

/-- A client of one bucket set, with the store its last pull read as a history variable. -/
structure Client where
  buckets : List String
  prefixBits : Nat
  cursor : Option Nat
  rows : Finset (Hash × String)
  seen : Option RepoStore

def DeltaMapping.change (d : DeltaMapping) : (Hash × String) × Bool :=
  ((d.hash, d.tag), d.status = .current)

/-- One pull: the reply's rows replace or are replayed on the client's, with the cursor read in the
same transaction. A refused request changes nothing. -/
def Client.pull (c : Client) (s : RepoStore) (budget : Nat) : Client :=
  match s.nativeBuckets budget c.prefixBits c.buckets
      (c.cursor.map fun n => c.buckets.map fun _ => n) with
  | .error _ => c
  | .ok (.snapshot cursor tags) =>
    { c with cursor := some cursor, rows := pairs tags, seen := some s }
  | .ok (.delta cursor changes) =>
    { c with
      cursor := some cursor
      rows := replay (changes.map DeltaMapping.change) c.rows
      seen := some s }

inductive Action
  | submit (ts : Int) (sub : Submission)
  | moderatorDelete (hash tag : String)
  | seed (account : Account) (ts : Int) (items : List (Hash × Tag))
  | bulk (items : List (String × String × Bool))
  | setBanned (pubkey : String) (banned : Bool)
  | pull (client budget : Nat)

/-- The store, its clients, and every cursor handed out so far. -/
structure System where
  store : RepoStore
  clients : Nat → Client
  handedOut : List Nat

def System.init (buckets : Nat → List String) (prefixBits : Nat → Nat) : System where
  store := .empty
  clients := fun i => ⟨buckets i, prefixBits i, none, ∅, none⟩
  handedOut := []

/-- What an action leaves of the store; a failed write leaves what its transaction leaves. -/
def stepStore (verify : Submission → Bool) (s : RepoStore) : Action → RepoStore
  | .submit ts sub => (s.applySubmission verify ts sub).1
  | .moderatorDelete hash tag =>
    match s.moderatorDeleteMapping hash tag with
    | .ok s' => s'
    | .error _ => s
  | .seed account ts items => (s.seedMappings account ts items).1
  | .bulk items =>
    match s.applyMappingsBulk items with
    | .ok st => st.store
    | .error _ => s
  | .setBanned pubkey banned => s.setBanned pubkey banned
  | .pull _ _ => s

def System.step (verify : Submission → Bool) (sys : System) (a : Action) : System :=
  match a with
  | .pull i budget =>
    let c := (sys.clients i).pull sys.store budget
    { sys with
      clients := Function.update sys.clients i c
      handedOut := c.cursor.toList ++ sys.handedOut }
  | a => { sys with store := stepStore verify sys.store a }

/-! ## One step -/

theorem evolves_store (verify : Submission → Bool) {s : RepoStore} (hs : s.Sound) (a : Action) :
    Evolves s.mappingCursor s (stepStore verify s a) := by
  cases a with
  | submit ts sub => exact evolves_applySubmission verify hs ts sub
  | moderatorDelete hash tag =>
    simp only [stepStore]
    split
    · rename_i s' h
      exact evolves_moderatorDeleteMapping hs h
    · exact Evolves.refl hs _
  | seed account ts items => exact evolves_seedMappings hs account ts items
  | bulk items =>
    simp only [stepStore]
    split
    · rename_i st h
      exact evolves_applyMappingsBulk hs h
    · exact Evolves.refl hs _
  | setBanned pubkey banned => exact evolves_setBanned hs _ pubkey banned
  | pull i budget => exact Evolves.refl hs _

theorem step_store (verify : Submission → Bool) (sys : System) (a : Action) :
    (sys.step verify a).store = stepStore verify sys.store a := by
  cases a <;> rfl

/-- Whether the client keeps a pair. -/
def Client.Dom (c : Client) (k : Hash × String) : Prop := Covers c.buckets c.prefixBits k.1

def Live (v : MappingStatus) : Prop := v = .current

theorem exact_iff {s : RepoStore} {k : Hash × String} :
    (∃ v n, s.log k = some (v, n) ∧ Live v) ↔ s.Current k.1 k.2 := by
  constructor
  · rintro ⟨v, n, hlog, hlive⟩
    obtain ⟨r, hr, hst, _⟩ := RepoStore.log_eq_some.1 hlog
    exact ⟨r, hr, hst.trans hlive⟩
  · rintro ⟨r, hr, hcur⟩
    exact ⟨.current, r.seq, RepoStore.log_eq_some.2 ⟨r, hr, hcur, rfl⟩, rfl⟩

/-- A client against the store: what it keeps is of its buckets and in sync up to its cursor, and
it was exact at its last pull. -/
structure ClientInv (s : RepoStore) (c : Client) : Prop where
  cursor : ∀ n, c.cursor = some n → n ≤ s.mappingCursor
  inDom : ∀ k ∈ c.rows, c.Dom k
  inSync : ∀ n, c.cursor = some n → InSync Live c.Dom n s.log (· ∈ c.rows)
  exact : ∀ st, c.seen = some st →
    ∀ h t, (h, t) ∈ c.rows ↔ Covers c.buckets c.prefixBits h ∧ (h, t) ∈ pairs st.snapshot

theorem ClientInv.evolve {s s' : RepoStore} {c : Client} (h : ClientInv s c)
    (hev : Evolves s.mappingCursor s s') : ClientInv s' c where
  cursor := fun n hn => (h.cursor n hn).trans hev.cursor
  inDom := h.inDom
  inSync := fun n hn => (h.inSync n hn).advance (hev.advances.mono (h.cursor n hn))
  exact := h.exact

/-- A client that is exact for its buckets has the rows of the snapshot, and any cursor fits. -/
theorem ClientInv.of_exact {s : RepoStore} (hs : s.Sound) {c : Client}
    (hcur : c.cursor = some s.mappingCursor) (hseen : c.seen = some s)
    (hdom : ∀ k ∈ c.rows, c.Dom k) (hex : Exact Live c.Dom s.log (· ∈ c.rows)) :
    ClientInv s c where
  cursor := by
    intro n hn
    rw [hcur] at hn
    cases hn
    exact le_refl _
  inDom := hdom
  inSync := fun n _ => hex.inSync n
  exact := by
    intro st hst h t
    rw [hseen] at hst
    cases hst
    rw [mem_pairs_snapshot hs]
    constructor
    · intro hmem
      have hd := hdom _ hmem
      exact ⟨hd, exact_iff.1 ((hex (h, t) hd).1 hmem)⟩
    · rintro ⟨hcov, hcurr⟩
      exact (hex (h, t) hcov).2 (exact_iff.2 hcurr)

theorem mem_change {changes : List DeltaMapping} {k : Hash × String} {b : Bool} :
    (k, b) ∈ changes.map DeltaMapping.change ↔
      ∃ d ∈ changes, d.hash = k.1 ∧ d.tag = k.2 ∧ decide (d.status = .current) = b := by
  obtain ⟨h, t⟩ := k
  simp only [List.mem_map, DeltaMapping.change, Prod.mk.injEq, and_assoc]

/-- Replaying the rows past the client's cursor makes it exact. -/
theorem exact_replay {s : RepoStore} {c : Client} {n : Nat} {changes : List DeltaMapping}
    (hsync : InSync Live c.Dom n s.log (· ∈ c.rows))
    (hch : ∀ d, d ∈ changes ↔ Covers c.buckets c.prefixBits d.hash ∧
      d.seq > min n (2 ^ 63 - 1) ∧ s.row d.hash d.tag = some ⟨d.status, d.seq, d.origin⟩) :
    Exact Live c.Dom s.log (· ∈ replay (changes.map DeltaMapping.change) c.rows) := by
  apply hsync.pull
  rintro ⟨h, t⟩ hdom
  by_cases hsent : ∃ r, s.row h t = some r ∧ r.seq > min n (2 ^ 63 - 1)
  · left
    obtain ⟨r, hrow, hseq⟩ := hsent
    refine ⟨r.status, r.seq, RepoStore.log_eq_some.2 ⟨r, hrow, rfl, rfl⟩, ?_⟩
    have hmem : (⟨h, t, r.status, r.seq, r.origin⟩ : DeltaMapping) ∈ changes :=
      (hch _).2 ⟨hdom, hseq, hrow⟩
    rw [mem_replay (b := decide (r.status = .current))]
    · simp [Live]
    · exact mem_change.2 ⟨_, hmem, rfl, rfl, rfl⟩
    · intro b' hb'
      obtain ⟨d, hd, rfl, rfl, rfl⟩ := mem_change.1 hb'
      have hrow' := ((hch d).1 hd).2.2
      rw [hrow] at hrow'
      cases hrow'
      rfl
  · right
    constructor
    · intro v m hlog
      obtain ⟨r, hrow, _, rfl⟩ := RepoStore.log_eq_some.1 hlog
      have : ¬ r.seq > min n (2 ^ 63 - 1) := fun hgt => hsent ⟨r, hrow, hgt⟩
      omega
    · apply mem_replay_of_not_mem
      intro b hb
      obtain ⟨d, hd, rfl, rfl, _⟩ := mem_change.1 hb
      obtain ⟨_, hseq, hrow⟩ := (hch d).1 hd
      exact hsent ⟨_, hrow, hseq⟩

theorem clientInv_pull {s : RepoStore} (hs : s.Sound) {c : Client} (h : ClientInv s c)
    (budget : Nat) : ClientInv s (c.pull s budget) := by
  unfold Client.pull
  cases hcur : c.cursor with
  | none =>
    simp only [Option.map_none]
    cases hreq : s.nativeBuckets budget c.prefixBits c.buckets none with
    | error e => exact h
    | ok r =>
      cases r with
      | snapshot cursor tags =>
        obtain ⟨rfl, hmem⟩ := nativeBuckets_snapshot hs hreq
        refine ClientInv.of_exact hs rfl rfl ?_ ?_
        · rintro ⟨x, t⟩ hx
          exact ((hmem x t).1 hx).1
        · rintro ⟨x, t⟩ hdom
          change (x, t) ∈ pairs tags ↔ _
          rw [hmem, exact_iff]
          exact and_iff_right hdom
      | delta cursor changes =>
        simp only [RepoStore.nativeBuckets, Option.any_none] at hreq
        split at hreq
        · cases hreq
        · split at hreq
          · cases hreq
          · split at hreq <;> cases hreq
  | some n =>
    simp only [Option.map_some]
    cases hreq : s.nativeBuckets budget c.prefixBits c.buckets
        (some (c.buckets.map fun _ => n)) with
    | error e => exact h
    | ok r =>
      cases r with
      | snapshot cursor tags =>
        simp only [RepoStore.nativeBuckets] at hreq
        split at hreq
        · cases hreq
        · split at hreq
          · cases hreq
          · split at hreq <;> cases hreq
      | delta cursor changes =>
        obtain ⟨rfl, hch⟩ := nativeBuckets_delta hs hreq
        refine ClientInv.of_exact hs rfl rfl ?_ (exact_replay (h.inSync n hcur) hch)
        rintro ⟨x, t⟩ hx
        by_cases hsent : ∃ b, ((x, t), b) ∈ changes.map DeltaMapping.change
        · obtain ⟨b, hb⟩ := hsent
          obtain ⟨d, hd, rfl, rfl, _⟩ := mem_change.1 hb
          exact ((hch d).1 hd).1
        · rw [mem_replay_of_not_mem (fun b hb => hsent ⟨b, hb⟩)] at hx
          exact h.inDom _ hx

/-! ## Runs -/

structure SysInv (sys : System) : Prop where
  sound : sys.store.Sound
  clients : ∀ i, ClientInv sys.store (sys.clients i)
  handedOut : ∀ c ∈ sys.handedOut, c ≤ sys.store.mappingCursor

theorem sysInv_init (buckets : Nat → List String) (prefixBits : Nat → Nat) :
    SysInv (System.init buckets prefixBits) where
  sound := RepoStore.sound_empty
  clients := by
    intro i
    constructor <;> simp [System.init]
  handedOut := by simp [System.init]

theorem SysInv.step {verify : Submission → Bool} {sys : System} (h : SysInv sys) (a : Action) :
    SysInv (sys.step verify a) := by
  have hev := evolves_store verify h.sound a
  have hwrite : SysInv { sys with store := stepStore verify sys.store a } :=
    ⟨hev.sound, fun i => (h.clients i).evolve hev, fun c hc => (h.handedOut c hc).trans hev.cursor⟩
  cases a with
  | pull i budget =>
    have hpull := clientInv_pull h.sound (h.clients i) budget
    refine ⟨h.sound, fun j => ?_, fun c hc => ?_⟩
    · change ClientInv sys.store (Function.update sys.clients i _ j)
      by_cases hj : j = i
      · subst hj
        rw [Function.update_self]
        exact hpull
      · rw [Function.update_of_ne hj]
        exact h.clients j
    · rcases List.mem_append.1 hc with hc | hc
      · exact hpull.cursor c (Option.mem_toList.1 hc)
      · exact h.handedOut c hc
  | submit ts sub => exact hwrite
  | moderatorDelete hash tag => exact hwrite
  | seed account ts items => exact hwrite
  | bulk items => exact hwrite
  | setBanned pubkey banned => exact hwrite

/-- **Delta sync converges.** In every run of writes and pulls from an empty store, each client
held at its last pull exactly the snapshot's rows of its buckets; the next write gives every pair
whose status it changes a sequence number past every cursor handed out; and no two mappings share
a sequence number. -/
theorem delta_sync_converges (verify : Submission → Bool) (buckets : Nat → List String)
    (prefixBits : Nat → Nat) (actions : List Action) :
    let sys := run (System.step verify) (System.init buckets prefixBits) actions
    (∀ i st, (sys.clients i).seen = some st → ∀ h t, (h, t) ∈ (sys.clients i).rows ↔
      Covers (sys.clients i).buckets (sys.clients i).prefixBits h ∧
        (h, t) ∈ pairs st.snapshot) ∧
    (∀ a h t r, (sys.step verify a).store.row h t = some r →
      (sys.store.row h t).map MappingRow.status ≠ some r.status →
      ∀ c ∈ sys.handedOut, c < r.seq) ∧
    (∀ k k' r r', sys.store.repoMappings.lookup k = some r →
      sys.store.repoMappings.lookup k' = some r' → r.seq = r'.seq → k = k') := by
  intro sys
  have hinv : SysInv sys :=
    run_invariant actions (sysInv_init buckets prefixBits) fun _ a h => h.step a
  refine ⟨fun i st hst => (hinv.clients i).exact st hst, ?_, hinv.sound.seqs⟩
  intro a h t r hrow hne c hc
  have hev := evolves_store verify hinv.sound a
  rw [step_store] at hrow
  have hlog : (stepStore verify sys.store a).log (h, t) = some (r.status, r.seq) :=
    RepoStore.log_eq_some.2 ⟨r, hrow, rfl, rfl⟩
  rcases hev.advances (h, t) with heq | ⟨v, n, heq, hn⟩
  · rw [hlog] at heq
    obtain ⟨r', hr', hst, _⟩ := RepoStore.log_eq_some.1 heq.symm
    rw [hr'] at hne
    exact absurd (congrArg some hst) hne
  · rw [hlog] at heq
    cases heq
    exact lt_of_le_of_lt (hinv.handedOut c hc) hn

end Server
end Naiad
