import Naiad.Lib.Interleave
import Naiad.Lib.Table

/-!
# Naiad.Daemon.ThumbStream

One connection of the thumbnail stream: the jobs map that want and cancel messages write, the
producers that want messages start, and the completions they send. Every section under the jobs lock
is one step, and messages, producers and the writer of the socket interleave.

* `step`: the connection.
* `Jobs`: the map holds exactly the hashes with an undecided producer.
* `thumb_jobs`: **one undecided producer for each hash in the map, and one completion for each job
  that was last wanted**.
-/

namespace Naiad
namespace Daemon
namespace ThumbStream

open Lib

def maxJobs : Nat := 512

def outboundCapacity : Nat := 64

/-- Where a producer is; until it is sending or done it has not taken its final decision. -/
inductive Stage (β : Type)
  /-- Reads the thumbnail store. -/
  | lookup
  | acquiring
  /-- Has a generation permit. -/
  | admitted
  | locating
  | located
  | decoding
  /-- Before it takes the entry, with what it would send. -/
  | finishing (jpeg : Option β)
  | sending (jpeg : Option β)
  | done
deriving DecidableEq

def Stage.undecided {β : Type} : Stage β → Bool
  | .sending _ => false
  | .done => false
  | _ => true

structure Producer (α β : Type) where
  hash : α
  stage : Stage β
deriving DecidableEq

structure Completed (α β : Type) where
  hash : α
  jpeg : Option β
deriving DecidableEq

/-- Jobs map each hash to whether it is wanted; completions are kept with the producer that sent
them, first in the channel, then on the socket. -/
structure Connection (α β : Type) where
  jobs : Table α Bool
  producers : Table Nat (Producer α β)
  started : Nat
  outbound : List (Nat × Completed α β)
  frames : List (Nat × Completed α β)

/-- Messages of the client, steps of a producer with what it finds, and a write to the socket. -/
inductive Event (α β : Type)
  | want (hash : α)
  | cancel (hash : α)
  | lookup (p : Nat) (found : Option β)
  | acquire (p : Nat)
  | continueIfWanted (p : Nat)
  | locate (p : Nat) (found : Bool)
  | decode (p : Nat) (jpeg : Option β)
  | finishIfWanted (p : Nat)
  | send (p : Nat)
  | flush

namespace Connection

variable {α β : Type}

def start : Connection α β := ⟨∅, ∅, 0, [], []⟩

variable [DecidableEq α]

/-- Whether a producer is to be started. -/
def recordWant (jobs : Table α Bool) (hash : α) : Table α Bool × Bool :=
  if hash ∈ jobs then (jobs.insert hash true, false)
  else if maxJobs ≤ jobs.entries.length then (jobs, false)
  else (jobs.insert hash true, true)

def recordCancel (jobs : Table α Bool) (hash : α) : Table α Bool :=
  if hash ∈ jobs then jobs.insert hash false else jobs

/-- A job that is not wanted is removed. -/
def continueIfWanted (jobs : Table α Bool) (hash : α) : Table α Bool × Bool :=
  match jobs.lookup hash with
  | some true => (jobs, true)
  | some false => (jobs.erase hash, false)
  | none => (jobs, false)

/-- The job is removed; whether it was wanted. -/
def finishIfWanted (jobs : Table α Bool) (hash : α) : Table α Bool × Bool :=
  (jobs.erase hash, (jobs.lookup hash).getD false)

def moveTo (s : Connection α β) (p : Nat) (hash : α) (stage : Stage β) : Connection α β :=
  { s with producers := s.producers.insert p ⟨hash, stage⟩ }

/-- The step of a producer at a stage. -/
def produce (s : Connection α β) (p : Nat) (hash : α) :
    Stage β → Event α β → Option (Connection α β)
  | .lookup, .lookup _ found =>
    match found with
    | some jpeg => some (s.moveTo p hash (.finishing (some jpeg)))
    | none => some (s.moveTo p hash .acquiring)
  | .acquiring, .acquire _ => some (s.moveTo p hash .admitted)
  | .admitted, .continueIfWanted _ =>
    let out := Connection.continueIfWanted s.jobs hash
    some ({ s with jobs := out.1 }.moveTo p hash (if out.2 then .locating else .done))
  | .locating, .locate _ found =>
    some (s.moveTo p hash (if found then .located else .finishing none))
  | .located, .continueIfWanted _ =>
    let out := Connection.continueIfWanted s.jobs hash
    some ({ s with jobs := out.1 }.moveTo p hash (if out.2 then .decoding else .done))
  | .decoding, .decode _ jpeg => some (s.moveTo p hash (.finishing jpeg))
  | .finishing jpeg, .finishIfWanted _ =>
    let out := Connection.finishIfWanted s.jobs hash
    some ({ s with jobs := out.1 }.moveTo p hash (if out.2 then .sending jpeg else .done))
  | .sending jpeg, .send _ =>
    if s.outbound.length < outboundCapacity then
      some (({ s with outbound := s.outbound ++ [(p, Completed.mk hash jpeg)] } :
        Connection α β).moveTo p hash .done)
    else none
  | _, _ => none

def producerOf : Event α β → Option Nat
  | .lookup p _ => some p
  | .acquire p => some p
  | .continueIfWanted p => some p
  | .locate p _ => some p
  | .decode p _ => some p
  | .finishIfWanted p => some p
  | .send p => some p
  | _ => none

def step (s : Connection α β) (e : Event α β) : Option (Connection α β) :=
  match e with
  | .want hash =>
    let out := recordWant s.jobs hash
    if out.2 then
      some { s with
        jobs := out.1
        producers := s.producers.insert s.started ⟨hash, .lookup⟩
        started := s.started + 1 }
    else some { s with jobs := out.1 }
  | .cancel hash => some { s with jobs := recordCancel s.jobs hash }
  | .flush =>
    match s.outbound with
    | [] => none
    | c :: outbound => some { s with outbound, frames := s.frames ++ [c] }
  | e =>
    (producerOf e).bind fun p =>
      (s.producers.lookup p).bind fun producer => s.produce p producer.hash producer.stage e

/-- The producer has not taken its final decision. -/
def Undecided (s : Connection α β) (p : Nat) (hash : α) : Prop :=
  ∃ producer, s.producers.lookup p = some producer ∧ producer.hash = hash ∧
    producer.stage.undecided = true

/-- The completions a producer has sent. -/
def completions (s : Connection α β) (p : Nat) : List (Nat × Completed α β) :=
  (s.frames ++ s.outbound).filter fun c => c.1 = p

/-- A want or a cancel of the hash. -/
def command (hash : α) : Event α β → Option Bool
  | .want hash' => if hash' = hash then some true else none
  | .cancel hash' => if hash' = hash then some false else none
  | _ => none

/-- Whether the last command for a hash was a want. -/
def lastCommand (hash : α) : List (Event α β) → Option Bool
  | [] => none
  | e :: es => (lastCommand hash es).or (command hash e)

variable {s s' : Connection α β} {e : Event α β}

theorem lastCommand_append (hash : α) (es : List (Event α β)) (e : Event α β) :
    lastCommand hash (es ++ [e]) = (command hash e).or (lastCommand hash es) := by
  induction es with
  | nil => simp [lastCommand]
  | cons e' es ih => rw [List.cons_append, lastCommand, ih, Option.or_assoc, lastCommand]

omit [DecidableEq α] in
theorem lookup_moveTo (p q : Nat) (hash : α) (stage : Stage β) :
    (s.moveTo p hash stage).producers.lookup q =
      if q = p then some ⟨hash, stage⟩ else s.producers.lookup q := by
  by_cases hq : q = p
  · rw [if_pos hq, hq]
    exact AList.lookup_insert _
  · rw [if_neg hq]
    exact AList.lookup_insert_ne hq

theorem erase_of_lookup_none {jobs : Table α Bool} {hash : α} (h : jobs.lookup hash = none) :
    jobs.erase hash = jobs :=
  AList.ext (List.kerase_of_notMem_keys (AList.lookup_eq_none.1 h))

/-- What a step of a producer does to the connection. -/
inductive Produced (s : Connection α β) (p : Nat) (hash : α) : Stage β → Connection α β → Prop
  | goesOn {stage stage' : Stage β} (h : stage.undecided = true) (h' : stage'.undecided = true) :
    Produced s p hash stage (s.moveTo p hash stage')
  | gives {stage : Stage β} (h : stage.undecided = true) (hjob : s.jobs.lookup hash ≠ some true) :
    Produced s p hash stage (({ s with jobs := s.jobs.erase hash } : Connection α β).moveTo p hash
      .done)
  | decides {jpeg : Option β} (hjob : s.jobs.lookup hash = some true) :
    Produced s p hash (.finishing jpeg) (({ s with jobs := s.jobs.erase hash } :
      Connection α β).moveTo p hash (.sending jpeg))
  | sends {jpeg : Option β} :
    Produced s p hash (.sending jpeg) (({ s with
      outbound := s.outbound ++ [(p, Completed.mk hash jpeg)] } : Connection α β).moveTo p hash
        .done)

/-- The two checks before the work is done. -/
theorem Produced.continues {p : Nat} {hash : α} {stage stage' : Stage β}
    (h : stage.undecided = true) (h' : stage'.undecided = true) :
    Produced s p hash stage (({ s with
      jobs := (Connection.continueIfWanted s.jobs hash).1 } : Connection α β).moveTo p hash
        (if (Connection.continueIfWanted s.jobs hash).2 then stage' else .done)) := by
  cases hjob : s.jobs.lookup hash with
  | none =>
    have hgives := Produced.gives (p := p) h (by simp [hjob] : s.jobs.lookup hash ≠ some true)
    rw [erase_of_lookup_none hjob] at hgives
    simpa [Connection.continueIfWanted, hjob] using hgives
  | some wanted =>
    cases wanted with
    | true => simpa [Connection.continueIfWanted, hjob] using Produced.goesOn h h'
    | false =>
      simpa [Connection.continueIfWanted, hjob] using
        Produced.gives (p := p) h (by simp [hjob] : s.jobs.lookup hash ≠ some true)

theorem produced_of_produce {p : Nat} {hash : α} {stage : Stage β}
    (hs : s.produce p hash stage e = some s') : Produced s p hash stage s' := by
  unfold produce at hs
  split at hs
  · split at hs
    · cases hs
      exact .goesOn rfl rfl
    · cases hs
      exact .goesOn rfl rfl
  · cases hs
    exact .goesOn rfl rfl
  · cases hs
    exact .continues rfl rfl
  · cases hs
    refine .goesOn rfl ?_
    split <;> rfl
  · cases hs
    exact .continues rfl rfl
  · cases hs
    exact .goesOn rfl rfl
  · cases hs
    by_cases hjob : s.jobs.lookup hash = some true
    · simpa [Connection.finishIfWanted, hjob] using Produced.decides hjob
    · have hwanted : (s.jobs.lookup hash).getD false = false := by
        cases hl : s.jobs.lookup hash with
        | none => rfl
        | some wanted => cases wanted <;> simp_all
      simpa [Connection.finishIfWanted, hwanted] using
        @Produced.gives _ _ _ s p hash (.finishing _) rfl hjob
  · obtain ⟨_, heq⟩ := Option.ite_none_right_eq_some.1 hs
    cases heq
    exact .sends
  · cases hs

/-- Everything a step can do. -/
inductive Stepped (s : Connection α β) : Event α β → Connection α β → Prop
  | starts {hash : α} (hfresh : hash ∉ s.jobs) (hroom : s.jobs.entries.length < maxJobs) :
    Stepped s (.want hash) { s with
      jobs := s.jobs.insert hash true
      producers := s.producers.insert s.started ⟨hash, .lookup⟩
      started := s.started + 1 }
  | rejects {hash : α} (hfresh : hash ∉ s.jobs) : Stepped s (.want hash) s
  | wants {hash : α} (hjob : hash ∈ s.jobs) :
    Stepped s (.want hash) { s with jobs := s.jobs.insert hash true }
  | cancels {hash : α} (hjob : hash ∈ s.jobs) :
    Stepped s (.cancel hash) { s with jobs := s.jobs.insert hash false }
  | ignores {hash : α} (hfresh : hash ∉ s.jobs) : Stepped s (.cancel hash) s
  | writes {c : Nat × Completed α β} {outbound : List (Nat × Completed α β)}
    (h : s.outbound = c :: outbound) :
    Stepped s .flush { s with outbound, frames := s.frames ++ [c] }
  | produces {e : Event α β} {p : Nat} {hash : α} {stage : Stage β} {s' : Connection α β}
    (hcommand : ∀ hash', command hash' e = none) (hp : s.producers.lookup p = some ⟨hash, stage⟩)
    (h : Produced s p hash stage s') : Stepped s e s'

theorem step_want (s : Connection α β) (hash : α) :
    ∃ s', s.step (.want hash) = some s' ∧ Stepped s (.want hash) s' := by
  by_cases hjob : hash ∈ s.jobs
  · exact ⟨_, by simp [step, recordWant, hjob], .wants hjob⟩
  · by_cases hroom : s.jobs.entries.length < maxJobs
    · refine ⟨_, ?_, .starts hjob hroom⟩
      simp [step, recordWant, hjob, Nat.not_le.2 hroom]
    · refine ⟨s, ?_, .rejects hjob⟩
      simp [step, recordWant, hjob, Nat.not_lt.1 hroom]

theorem step_cases (hs : s.step e = some s') : Stepped s e s' := by
  have hproduces : (∀ hash, command hash e = none) → ((producerOf e).bind fun p =>
      (s.producers.lookup p).bind fun producer =>
        s.produce p producer.hash producer.stage e) = some s' → Stepped s e s' := by
    intro hcommand h
    obtain ⟨p, _, h⟩ := Option.bind_eq_some_iff.1 h
    obtain ⟨⟨hash, stage⟩, hp, h⟩ := Option.bind_eq_some_iff.1 h
    exact .produces hcommand hp (produced_of_produce h)
  cases e with
  | want hash =>
    obtain ⟨s1, hs1, h⟩ := step_want s hash
    rw [hs1] at hs
    cases hs
    exact h
  | cancel hash =>
    simp only [step, Option.some.injEq] at hs
    subst hs
    by_cases hjob : hash ∈ s.jobs
    · simpa [recordCancel, hjob] using Stepped.cancels hjob
    · simpa [recordCancel, hjob] using Stepped.ignores hjob
  | flush =>
    cases ho : s.outbound with
    | nil => simp [step, ho] at hs
    | cons c outbound =>
      simp only [step, ho, Option.some.injEq] at hs
      subst hs
      exact .writes ho
  | _ => exact hproduces (fun _ => rfl) hs

/-! ## Jobs and producers -/

/-- The map holds exactly the hashes with an undecided producer, and each has one. -/
structure Jobs (s : Connection α β) : Prop where
  unique : ∀ p q hash, s.Undecided p hash → s.Undecided q hash → p = q
  mem : ∀ hash, hash ∈ s.jobs ↔ ∃ p, s.Undecided p hash
  limit : s.jobs.entries.length ≤ maxJobs
  fresh : ∀ p, p ∈ s.producers → p < s.started

omit [DecidableEq α] in
theorem undecided_moveTo {p q : Nat} {hash hash' : α} {stage : Stage β} :
    (s.moveTo p hash stage).Undecided q hash' ↔
      if q = p then hash = hash' ∧ stage.undecided = true else s.Undecided q hash' := by
  unfold Undecided
  rw [lookup_moveTo]
  by_cases hq : q = p
  · simp [hq]
  · simp [hq]

omit [DecidableEq α] in
theorem jobs_start : (start : Connection α β).Jobs := by
  constructor <;> simp [start, Undecided, maxJobs]

/-- Only the flag of a job changes. -/
theorem Jobs.setWanted (h : s.Jobs) {hash : α} (hjob : hash ∈ s.jobs) (wanted : Bool) :
    ({ s with jobs := s.jobs.insert hash wanted } : Connection α β).Jobs := by
  refine ⟨h.unique, ?_, ?_, h.fresh⟩
  · intro hash'
    rw [AList.mem_insert]
    constructor
    · rintro (rfl | hmem)
      · exact (h.mem hash').1 hjob
      · exact (h.mem hash').1 hmem
    · exact fun hp => .inr ((h.mem hash').2 hp)
  · rw [Table.length_insert_of_mem hjob]
    exact h.limit

/-- A producer of the job is started with it. -/
theorem Jobs.starts (h : s.Jobs) {hash : α} (hnew : hash ∉ s.jobs)
    (hroom : s.jobs.entries.length < maxJobs) :
    ({ s with
        jobs := s.jobs.insert hash true
        producers := s.producers.insert s.started ⟨hash, .lookup⟩
        started := s.started + 1 } : Connection α β).Jobs := by
  have hundecided : ∀ q hash', ({ s with
      jobs := s.jobs.insert hash true
      producers := s.producers.insert s.started ⟨hash, .lookup⟩
      started := s.started + 1 } : Connection α β).Undecided q hash' ↔
        if q = s.started then hash = hash' else s.Undecided q hash' := by
    intro q hash'
    change (s.moveTo s.started hash .lookup).Undecided q hash' ↔ _
    rw [undecided_moveTo, show (Stage.lookup : Stage β).undecided = true from rfl]
    simp
  have hother : ∀ q, ¬ s.Undecided q hash := fun q hq => hnew ((h.mem hash).2 ⟨q, hq⟩)
  refine ⟨?_, ?_, ?_, ?_⟩
  · intro p q hash' hp hq
    rw [hundecided] at hp hq
    by_cases hps : p = s.started
    · by_cases hqs : q = s.started
      · rw [hps, hqs]
      · rw [if_pos hps] at hp
        rw [if_neg hqs, ← hp] at hq
        exact absurd hq (hother q)
    · rw [if_neg hps] at hp
      by_cases hqs : q = s.started
      · rw [if_pos hqs] at hq
        rw [← hq] at hp
        exact absurd hp (hother p)
      · rw [if_neg hqs] at hq
        exact h.unique p q hash' hp hq
  · intro hash'
    rw [AList.mem_insert, h.mem hash']
    constructor
    · rintro (rfl | ⟨p, hp⟩)
      · exact ⟨s.started, (hundecided _ _).2 (by simp)⟩
      · refine ⟨p, (hundecided _ _).2 ?_⟩
        have hne : p ≠ s.started := by
          rintro rfl
          obtain ⟨producer, hl, _⟩ := hp
          exact absurd (h.fresh _ (AList.lookup_isSome.1 (by simp [hl]))) (Nat.lt_irrefl _)
        rw [if_neg hne]
        exact hp
    · rintro ⟨p, hp⟩
      rw [hundecided] at hp
      by_cases hps : p = s.started
      · rw [if_pos hps] at hp
        exact .inl hp.symm
      · rw [if_neg hps] at hp
        exact .inr ⟨p, hp⟩
  · rw [Table.length_insert_of_notMem hnew]
    omega
  · intro p hp
    rcases (AList.mem_insert _).1 hp with rfl | hp
    · exact Nat.lt_succ_self _
    · exact Nat.lt_succ_of_lt (h.fresh p hp)

omit [DecidableEq α] in
/-- A producer goes on without a decision, or had taken it. -/
theorem Jobs.moves (h : s.Jobs) {p : Nat} {hash : α} {stage stage' : Stage β}
    (hp : s.producers.lookup p = some ⟨hash, stage⟩) (hsame : stage'.undecided = stage.undecided) :
    (s.moveTo p hash stage').Jobs := by
  have hundecided : ∀ q hash', (s.moveTo p hash stage').Undecided q hash' ↔
      s.Undecided q hash' := by
    intro q hash'
    rw [undecided_moveTo]
    by_cases hq : q = p
    · rw [if_pos hq, hq, hsame]
      simp [Undecided, hp]
    · rw [if_neg hq]
  refine ⟨?_, ?_, h.limit, ?_⟩
  · intro q q' hash' hq hq'
    exact h.unique q q' hash' ((hundecided _ _).1 hq) ((hundecided _ _).1 hq')
  · intro hash'
    refine (h.mem hash').trans ?_
    simp only [hundecided]
  · intro q hq
    rcases (AList.mem_insert _).1 hq with rfl | hq
    · exact h.fresh q (AList.lookup_isSome.1 (by simp [hp]))
    · exact h.fresh q hq

/-- A producer takes its decision and the entry goes. -/
theorem Jobs.removes (h : s.Jobs) {p : Nat} {hash : α} {stage stage' : Stage β}
    (hp : s.producers.lookup p = some ⟨hash, stage⟩) (hstage : stage.undecided = true)
    (hstage' : stage'.undecided = false) :
    (({ s with jobs := s.jobs.erase hash } : Connection α β).moveTo p hash stage').Jobs := by
  have hundecided : ∀ q hash', (({ s with jobs := s.jobs.erase hash } :
      Connection α β).moveTo p hash stage').Undecided q hash' ↔ q ≠ p ∧ s.Undecided q hash' := by
    intro q hash'
    rw [undecided_moveTo]
    by_cases hq : q = p
    · simp [hq, hstage']
    · rw [if_neg hq]
      exact ⟨fun hu => ⟨hq, hu⟩, fun hu => hu.2⟩
  have hpu : s.Undecided p hash := ⟨_, hp, rfl, hstage⟩
  refine ⟨?_, ?_, (Table.length_erase_le _ _).trans h.limit, ?_⟩
  · intro q q' hash' hq hq'
    exact h.unique q q' hash' ((hundecided _ _).1 hq).2 ((hundecided _ _).1 hq').2
  · intro hash'
    refine AList.mem_erase.trans ?_
    rw [h.mem hash']
    constructor
    · rintro ⟨hne, q, hq⟩
      refine ⟨q, (hundecided _ _).2 ⟨?_, hq⟩⟩
      rintro rfl
      obtain ⟨producer, hl, hhash, _⟩ := hq
      rw [hp] at hl
      cases hl
      exact hne hhash.symm
    · rintro ⟨q, hq⟩
      obtain ⟨hqp, hu⟩ := (hundecided _ _).1 hq
      refine ⟨?_, q, hu⟩
      rintro rfl
      exact hqp (h.unique q p hash' hu hpu)
  · intro q hq
    rcases (AList.mem_insert _).1 hq with rfl | hq
    · exact h.fresh q (AList.lookup_isSome.1 (by simp [hp]))
    · exact h.fresh q hq

theorem Jobs.produced (h : s.Jobs) {p : Nat} {hash : α} {stage : Stage β}
    (hp : s.producers.lookup p = some ⟨hash, stage⟩) (hs : Produced s p hash stage s') :
    s'.Jobs := by
  cases hs with
  | goesOn hstage hstage' => exact h.moves hp (hstage'.trans hstage.symm)
  | gives hstage _ => exact h.removes hp hstage rfl
  | decides _ => exact h.removes hp rfl rfl
  | sends => exact (⟨h.unique, h.mem, h.limit, h.fresh⟩ : Jobs { s with
      outbound := s.outbound ++ [(p, Completed.mk hash _)] }).moves hp rfl

theorem Jobs.step (h : s.Jobs) (hs : s.step e = some s') : s'.Jobs := by
  cases step_cases hs with
  | starts hnew hroom => exact h.starts hnew hroom
  | rejects _ => exact h
  | wants hjob => exact h.setWanted hjob true
  | cancels hjob => exact h.setWanted hjob false
  | ignores _ => exact h
  | writes _ => exact ⟨h.unique, h.mem, h.limit, h.fresh⟩
  | produces _ hp hs => exact h.produced hp hs

/-! ## The last command -/

/-- The flag of a job is the last command there was for its hash. -/
def Commanded (es : List (Event α β)) (s : Connection α β) : Prop :=
  ∀ hash wanted, s.jobs.lookup hash = some wanted → lastCommand hash es = some wanted

/-- Commands for a hash that is not in the map leave the map alone or start its job. -/
theorem Commanded.ignores {es : List (Event α β)} {hash : α} (h : Commanded es s)
    (hnew : hash ∉ s.jobs) (hother : ∀ hash', hash' ≠ hash → command hash' e = none) :
    Commanded (es ++ [e]) s := by
  intro hash' wanted hjob
  have hne : hash' ≠ hash := by
    rintro rfl
    exact hnew (AList.lookup_isSome.1 (by simp [hjob]))
  rw [lastCommand_append, hother hash' hne]
  exact h hash' wanted hjob

/-- A command sets the flag of the job. -/
theorem Commanded.sets {es : List (Event α β)} {hash : α} {wanted : Bool} (h : Commanded es s)
    (hjobs : s'.jobs = s.jobs.insert hash wanted) (hcommand : command hash e = some wanted)
    (hother : ∀ hash', hash' ≠ hash → command hash' e = none) : Commanded (es ++ [e]) s' := by
  intro hash' wanted' hjob
  rw [hjobs] at hjob
  rw [lastCommand_append]
  by_cases hh : hash' = hash
  · rw [hh, AList.lookup_insert] at hjob
    rw [hh, hcommand, ← hjob, Option.some_or]
  · rw [AList.lookup_insert_ne hh] at hjob
    rw [hother hash' hh]
    exact h hash' wanted' hjob

theorem command_want_ne {hash hash' : α} (h : hash' ≠ hash) :
    command hash' (.want hash : Event α β) = none := by
  simp [command, Ne.symm h]

theorem command_cancel_ne {hash hash' : α} (h : hash' ≠ hash) :
    command hash' (.cancel hash : Event α β) = none := by
  simp [command, Ne.symm h]

/-- Other steps only remove jobs. -/
theorem Commanded.keeps {es : List (Event α β)} (h : Commanded es s)
    (hjobs : ∀ hash wanted, s'.jobs.lookup hash = some wanted → s.jobs.lookup hash = some wanted)
    (hcommand : ∀ hash, command hash e = none) : Commanded (es ++ [e]) s' := by
  intro hash wanted hjob
  rw [lastCommand_append, hcommand]
  exact h hash wanted (hjobs hash wanted hjob)

theorem lookup_of_lookup_erase {jobs : Table α Bool} {hash hash' : α} {wanted : Bool}
    (h : (jobs.erase hash).lookup hash' = some wanted) : jobs.lookup hash' = some wanted := by
  by_cases hh : hash' = hash
  · rw [hh, AList.lookup_erase] at h
    cases h
  · rw [AList.lookup_erase_ne hh] at h
    exact h

theorem Commanded.step {es : List (Event α β)} (h : Commanded es s) (hs : s.step e = some s') :
    Commanded (es ++ [e]) s' := by
  cases step_cases hs with
  | starts hnew _ => exact h.sets rfl (by simp [command]) fun _ => command_want_ne
  | rejects hnew => exact h.ignores hnew fun _ => command_want_ne
  | wants hjob => exact h.sets rfl (by simp [command]) fun _ => command_want_ne
  | cancels hjob => exact h.sets rfl (by simp [command]) fun _ => command_cancel_ne
  | ignores hnew => exact h.ignores hnew fun _ => command_cancel_ne
  | writes _ => exact h.keeps (fun _ _ hjob => hjob) fun _ => rfl
  | produces hcommand _ hp =>
    refine h.keeps ?_ hcommand
    cases hp with
    | goesOn _ _ => exact fun _ _ hjob => hjob
    | gives _ _ => exact fun _ _ hjob => lookup_of_lookup_erase hjob
    | decides _ => exact fun _ _ hjob => lookup_of_lookup_erase hjob
    | sends => exact fun _ _ hjob => hjob

/-! ## Completions -/

/-- A step leaves every producer and what it has sent alone, but for the one that takes it. -/
theorem step_frame (hs : s.step e = some s') (p : Nat) :
    (s'.completions p = s.completions p ∧
        (s'.producers.lookup p = s.producers.lookup p ∨ p = s.started)) ∨
      ∃ hash stage, s.producers.lookup p = some ⟨hash, stage⟩ ∧ Produced s p hash stage s' := by
  cases step_cases hs with
  | starts _ _ =>
    refine .inl ⟨rfl, ?_⟩
    by_cases hp : p = s.started
    · exact .inr hp
    · exact .inl (AList.lookup_insert_ne hp)
  | rejects _ => exact .inl ⟨rfl, .inl rfl⟩
  | wants _ => exact .inl ⟨rfl, .inl rfl⟩
  | cancels _ => exact .inl ⟨rfl, .inl rfl⟩
  | ignores _ => exact .inl ⟨rfl, .inl rfl⟩
  | writes ho => exact .inl ⟨by simp [completions, ho], .inl rfl⟩
  | @produces _ q hash stage _ _ hq h =>
    by_cases hp : p = q
    · subst hp
      exact .inr ⟨hash, stage, hq, h⟩
    · cases h with
      | goesOn _ _ => exact .inl ⟨rfl, .inl (AList.lookup_insert_ne hp)⟩
      | gives _ _ => exact .inl ⟨rfl, .inl (AList.lookup_insert_ne hp)⟩
      | decides _ => exact .inl ⟨rfl, .inl (AList.lookup_insert_ne hp)⟩
      | sends => exact .inl ⟨by simp [completions, moveTo, Ne.symm hp],
          .inl (AList.lookup_insert_ne hp)⟩

def Ended (s : Connection α β) (p : Nat) : Prop :=
  ∃ hash, s.producers.lookup p = some ⟨hash, .done⟩

/-- Only producers that are done have sent anything. -/
def Silent (s : Connection α β) : Prop := ∀ p, s.completions p ≠ [] → s.Ended p

omit [DecidableEq α] in
theorem Jobs.started_not_mem (h : s.Jobs) {producer : Producer α β} :
    s.producers.lookup s.started ≠ some producer := by
  intro hl
  exact absurd (h.fresh _ (AList.lookup_isSome.1 (by simp [hl]))) (Nat.lt_irrefl _)

omit [DecidableEq α] in
theorem Silent.nil {p : Nat} {hash : α} {stage : Stage β} (h : s.Silent)
    (hp : s.producers.lookup p = some ⟨hash, stage⟩) (hstage : stage ≠ .done) :
    s.completions p = [] := by
  by_contra hne
  obtain ⟨_, hdone⟩ := h p hne
  rw [hp] at hdone
  cases hdone
  exact hstage rfl

theorem Produced.not_done {p : Nat} {hash : α} {stage : Stage β} (h : Produced s p hash stage s') :
    stage ≠ .done := by
  rintro rfl
  cases h with
  | goesOn h _ => cases h
  | gives h _ => cases h

theorem Silent.step (hj : s.Jobs) (h : s.Silent) (hs : s.step e = some s') : s'.Silent := by
  intro p hne
  rcases step_frame hs p with ⟨hsame, hl | rfl⟩ | ⟨hash, stage, hp, hproduced⟩
  · rw [hsame] at hne
    rw [Ended, hl]
    exact h p hne
  · rw [hsame] at hne
    obtain ⟨_, hdone⟩ := h _ hne
    exact absurd hdone hj.started_not_mem
  · have hnil := h.nil hp hproduced.not_done
    cases hproduced with
    | goesOn _ _ => exact absurd hnil hne
    | gives _ _ => exact absurd hnil hne
    | decides _ => exact absurd hnil hne
    | sends => exact ⟨hash, AList.lookup_insert _⟩

/-- What a producer that took its decision sends, and has sent once it is done. -/
def Answers (s : Connection α β) (p : Nat) (answer : List (Nat × Completed α β)) : Prop :=
  (s.completions p = answer ∧ s.Ended p) ∨
    ∃ hash jpeg, answer = [(p, ⟨hash, jpeg⟩)] ∧ s.completions p = [] ∧
      s.producers.lookup p = some ⟨hash, .sending jpeg⟩

theorem Answers.step {p : Nat} {answer : List (Nat × Completed α β)} (hj : s.Jobs)
    (h : s.Answers p answer) (hs : s.step e = some s') : s'.Answers p answer := by
  rcases step_frame hs p with ⟨hsame, hl | rfl⟩ | ⟨hash, stage, hp, hproduced⟩
  · rw [Answers, Ended, hsame, hl]
    exact h
  · rcases h with ⟨_, _, hdone⟩ | ⟨_, _, _, _, hsending⟩
    · exact absurd hdone hj.started_not_mem
    · exact absurd hsending hj.started_not_mem
  · rcases h with ⟨_, _, hdone⟩ | ⟨hash', jpeg, rfl, hnil, hsending⟩
    · rw [hp] at hdone
      cases hdone
      exact absurd rfl hproduced.not_done
    · rw [hp] at hsending
      cases hsending
      cases hproduced with
      | goesOn h _ => cases h
      | gives h _ => cases h
      | sends =>
        refine .inl ⟨?_, hash, AList.lookup_insert _⟩
        change (s.frames ++ (s.outbound ++ [(p, Completed.mk hash _)])).filter
          (fun c : Nat × Completed α β => c.1 = p) = _
        rw [← List.append_assoc, List.filter_append]
        change s.completions p ++ _ = _
        rw [hnil]
        simp

/-- The decision of a producer: to answer with what it has, or not at all. -/
theorem decision {p : Nat} {hash : α} (hj : s.Jobs) (hsilent : s.Silent)
    (hp : s.Undecided p hash) (hs : s.step e = some s') (hdecided : ¬ s'.Undecided p hash) :
    ∃ wanted, s.jobs.lookup hash = some wanted ∧
      ((wanted = false ∧ s'.Answers p []) ∨
        ∃ jpeg, wanted = true ∧ s.producers.lookup p = some ⟨hash, .finishing jpeg⟩ ∧
          s'.Answers p [(p, ⟨hash, jpeg⟩)]) := by
  obtain ⟨⟨_, stage⟩, hl, rfl, hstage⟩ := id hp
  rcases step_frame hs p with ⟨_, hsame | rfl⟩ | ⟨_, _, hl', hproduced⟩
  · exact absurd ⟨_, hsame.trans hl, rfl, hstage⟩ hdecided
  · exact absurd hl hj.started_not_mem
  · rw [hl] at hl'
    cases hl'
    have hnil := hsilent.nil hl hproduced.not_done
    cases hproduced with
    | goesOn _ hstage' => exact absurd ⟨_, AList.lookup_insert _, rfl, hstage'⟩ hdecided
    | gives _ hjob =>
      obtain ⟨wanted, hwanted⟩ := Option.isSome_iff_exists.1
        (AList.lookup_isSome.2 ((hj.mem _).2 ⟨p, hp⟩))
      refine ⟨wanted, hwanted, .inl ⟨?_, .inl ⟨hnil, _, AList.lookup_insert _⟩⟩⟩
      cases wanted with
      | true => exact absurd hwanted hjob
      | false => rfl
    | @decides jpeg hjob =>
      exact ⟨true, hjob, .inr ⟨jpeg, rfl, hl, .inr ⟨_, jpeg, rfl, hnil, AList.lookup_insert _⟩⟩⟩
    | sends => cases hstage

/-- **Thumbnail jobs.** After any run, of messages in any order with the steps of producers: one
producer at most for each hash is undecided, the map holds exactly the hashes that have one, no more
than the limit; and a producer that takes its decision has sent, once it is done, the one completion
it had when the last command for its hash was a want, and nothing when that was a cancel. -/
theorem thumb_jobs {es : List (Event α β)} (hrun : steps step start es = some s) :
    (∀ p q hash, s.Undecided p hash → s.Undecided q hash → p = q) ∧
      (∀ hash, hash ∈ s.jobs ↔ ∃ p, s.Undecided p hash) ∧ s.jobs.entries.length ≤ maxJobs ∧
      ∀ p hash e s', s.Undecided p hash → s.step e = some s' → ¬ s'.Undecided p hash →
        ∃ wanted, lastCommand hash es = some wanted ∧
          ∀ s'', LeadsTo step s' s'' → s''.Ended p →
            (wanted = true → ∃ jpeg, s.producers.lookup p = some ⟨hash, .finishing jpeg⟩ ∧
              s''.completions p = [(p, ⟨hash, jpeg⟩)]) ∧
            (wanted = false → s''.completions p = []) := by
  obtain ⟨hcommanded, hj, hsilent⟩ :=
    steps_history (fun es s => Commanded es s ∧ s.Jobs ∧ s.Silent) hrun
      ⟨by simp [Commanded, start], jobs_start, by simp [Silent, completions, start]⟩
      fun es s e s' h hs => ⟨h.1.step hs, h.2.1.step hs, h.2.2.step h.2.1 hs⟩
  refine ⟨hj.unique, hj.mem, hj.limit, ?_⟩
  intro p hash e s' hp hs hdecided
  obtain ⟨wanted, hjob, hdecision⟩ := decision hj hsilent hp hs hdecided
  have hanswer : ∀ answer, s'.Answers p answer → ∀ s'', LeadsTo step s' s'' → s''.Ended p →
      s''.completions p = answer := by
    intro answer h s'' hlater hend
    obtain ⟨_, h⟩ := hlater.invariant (fun s => s.Jobs ∧ s.Answers p answer) ⟨hj.step hs, h⟩
      fun s e s' h hs => ⟨h.1.step hs, h.2.step h.1 hs⟩
    rcases h with ⟨h, _⟩ | ⟨_, _, _, _, hsending⟩
    · exact h
    · obtain ⟨_, hdone⟩ := hend
      rw [hsending] at hdone
      cases hdone
  refine ⟨wanted, hcommanded hash wanted hjob, ?_⟩
  intro s'' hlater hend
  rcases hdecision with ⟨rfl, h⟩ | ⟨jpeg, rfl, hl, h⟩
  · exact ⟨by simp, fun _ => hanswer _ h s'' hlater hend⟩
  · exact ⟨fun _ => ⟨jpeg, hl, hanswer _ h s'' hlater hend⟩, by simp⟩

/-- A job that is cancelled and wanted again, twice, while its producer works. -/
def revived : List (Event Nat Nat) :=
  [.want 7, .cancel 7, .want 7, .lookup 0 none, .acquire 0, .continueIfWanted 0, .cancel 7, .want 7,
    .locate 0 true, .continueIfWanted 0, .decode 0 (some 3)]

/-- The connection once that producer holds its thumbnail, then decides, then has sent it. -/
def decoded : Connection Nat Nat :=
  ⟨⟨[⟨7, true⟩], by simp⟩, ⟨[⟨0, ⟨7, .finishing (some 3)⟩⟩], by simp⟩, 1, [], []⟩

def finished : Connection Nat Nat := ⟨∅, ⟨[⟨0, ⟨7, .sending (some 3)⟩⟩], by simp⟩, 1, [], []⟩

def answered : Connection Nat Nat :=
  ⟨∅, ⟨[⟨0, ⟨7, .done⟩⟩], by simp⟩, 1, [(0, ⟨7, some 3⟩)], []⟩

theorem thumb_jobs_revived : steps step start revived = some decoded ∧
    decoded.step (.finishIfWanted 0) = some finished ∧
    ∃ jpeg, answered.completions 0 = [(0, ⟨7, jpeg⟩)] := by
  refine ⟨rfl, rfl, ?_⟩
  have hp : decoded.Undecided 0 7 := ⟨_, rfl, rfl, rfl⟩
  have hdecided : ¬ finished.Undecided 0 7 := by
    rintro ⟨_, hl, _, h⟩
    cases hl
    cases h
  obtain ⟨wanted, hlast, hanswer⟩ := (@thumb_jobs Nat Nat _ decoded revived rfl).2.2.2 0 7
    (.finishIfWanted 0) finished hp rfl hdecided
  have hwanted : wanted = true := by
    cases hlast
    rfl
  obtain ⟨jpeg, _, h⟩ := (hanswer answered ⟨[.send 0], rfl⟩ ⟨7, rfl⟩).1 hwanted
  exact ⟨jpeg, h⟩

end Connection

end ThumbStream
end Daemon
end Naiad
