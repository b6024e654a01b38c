import Mathlib.Algebra.BigOperators.Group.Finset.Basic
import Mathlib.Algebra.Order.BigOperators.Group.Finset
import Naiad.Lib.Interleave

/-!
# Naiad.Daemon.TagLane

The lane that runs tag reads on one connection. Each operation has a worker, which queues on the
connection mutex, runs the closure and publishes its completion before it unlocks, and a request
future, whose drop cancels the operation; the two meet in one atomic phase. Every compare-exchange
and every section under a mutex is one step, and the steps of any number of operations interleave.

* `Operation.act`: the steps of one operation; `step`: the lane, with the connection's holder.
* `Consistent`: what the phase says of the worker and of the request.
* `tag_lane_isolates`: **interrupts strike only the operation they are meant for, and the lane never
  stops**.
-/

namespace Naiad
namespace Daemon
namespace TagLane

open Lib

/-- The atomic phase of an operation. -/
inductive Phase
  | queued
  | running
  | finished
  | cancelled
deriving DecidableEq

/-- Where the worker is. -/
inductive Worker
  /-- Queued on the connection mutex. -/
  | waiting
  /-- Holds the connection, before its compare-exchange. -/
  | locked
  /-- Before it looks for a cancellation. -/
  | started
  /-- The closure runs. -/
  | inside
  /-- The completion guard is dropped, also by a panic. -/
  | finishing
  /-- About to look whether the interrupt was delivered. -/
  | awaiting
  /-- On the condition variable. -/
  | parked
  | leaving
  | done
deriving DecidableEq

/-- Where the request future is. -/
inductive Request
  /-- Awaits the worker. -/
  | pending
  /-- At the head of the drop loop. -/
  | dropping
  | sawQueued
  | sawRunning
  /-- Its compare-exchange from running won. -/
  | won
  /-- The interrupt is delivered, not yet acknowledged. -/
  | interrupted
  | gone
deriving DecidableEq

structure Operation where
  phase : Phase
  worker : Worker
  request : Request
  interruptDelivered : Bool
  ran : Bool
deriving DecidableEq

def Operation.new : Operation := ⟨.queued, .waiting, .pending, false, false⟩

inductive Action
  | submit
  | lock
  | start
  | check
  | closureEnds
  | finish
  | await
  | wake
  | unlock
  | drop
  | load
  | compareQueued
  | compareRunning
  | interrupt
  | acknowledge
deriving DecidableEq

/-- What one step does to its operation, when it is at that point. -/
def Operation.act (o : Operation) : Action → Option Operation
  | .submit => none
  | .lock => if o.worker = .waiting then some { o with worker := .locked } else none
  | .start =>
    if o.worker = .locked then
      if o.phase = .queued then some { o with phase := .running, worker := .started }
      else some { o with worker := .leaving }
    else none
  | .check =>
    if o.worker = .started then
      if o.phase = .cancelled then some { o with worker := .finishing }
      else some { o with worker := .inside, ran := true }
    else none
  | .closureEnds => if o.worker = .inside then some { o with worker := .finishing } else none
  | .finish =>
    if o.worker = .finishing then
      if o.phase = .running then some { o with phase := .finished, worker := .leaving }
      else some { o with worker := .awaiting }
    else none
  | .await =>
    if o.worker = .awaiting then
      some { o with worker := if o.interruptDelivered then .leaving else .parked }
    else none
  | .wake => if o.worker = .parked then some { o with worker := .awaiting } else none
  | .unlock => if o.worker = .leaving then some { o with worker := .done } else none
  | .drop => if o.request = .pending then some { o with request := .dropping } else none
  | .load =>
    if o.request = .dropping then
      match o.phase with
      | .finished => some { o with request := .gone }
      | .cancelled => some { o with request := .gone }
      | .queued => some { o with request := .sawQueued }
      | .running => some { o with request := .sawRunning }
    else none
  | .compareQueued =>
    if o.request = .sawQueued then
      if o.phase = .queued then some { o with phase := .cancelled, request := .gone }
      else some { o with request := .dropping }
    else none
  | .compareRunning =>
    if o.request = .sawRunning then
      if o.phase = .running then some { o with phase := .cancelled, request := .won }
      else some { o with request := .dropping }
    else none
  | .interrupt => if o.request = .won then some { o with request := .interrupted } else none
  | .acknowledge =>
    if o.request = .interrupted then
      some { o with
        request := .gone
        interruptDelivered := true
        worker := if o.worker = .parked then .awaiting else o.worker }
    else none

/-- The worker has the connection. -/
def Worker.holds : Worker → Bool
  | .waiting => false
  | .done => false
  | _ => true

/-- The worker is between its compare-exchange and the end of its completion. -/
def Worker.entered : Worker → Bool
  | .started => true
  | .inside => true
  | .finishing => true
  | .awaiting => true
  | .parked => true
  | _ => false

/-- The worker waits for an acknowledgement. -/
def Worker.waits : Worker → Bool
  | .awaiting => true
  | .parked => true
  | _ => false

/-- The request has not yet won or given up. -/
def Request.open : Request → Bool
  | .pending => true
  | .dropping => true
  | .sawQueued => true
  | .sawRunning => true
  | _ => false

/-- The request cancelled a running operation and has not acknowledged the interrupt. -/
def Request.owes : Request → Bool
  | .won => true
  | .interrupted => true
  | _ => false

/-- The request has sent its interrupt, or will not. -/
def Request.settled : Request → Bool
  | .interrupted => true
  | .gone => true
  | _ => false

theorem Request.owes_of_open {r : Request} (h : r.open = true) : r.owes = false := by
  cases r <;> simp_all [Request.open, Request.owes]

/-- The operations of a lane, the holder of its connection, and the interrupts delivered, each with
the operation that sent it and the holder it struck. -/
structure Lane (ι : Type) where
  ops : ι → Option Operation
  holder : Option ι
  interrupts : List (ι × Option ι)

namespace Lane

variable {ι : Type}

def start : Lane ι := ⟨fun _ => none, none, []⟩

variable [DecidableEq ι]

def set (s : Lane ι) (i : ι) (o : Operation) : Lane ι :=
  { s with ops := Function.update s.ops i (some o) }

/-- The connection mutex admits one worker at a time. -/
def grant (s : Lane ι) (i : ι) : Action → Option (Option ι)
  | .lock => if s.holder = none then some (some i) else none
  | .unlock => some none
  | _ => some s.holder

/-- A step of one operation; an interrupt strikes whoever holds the connection. -/
def step (s : Lane ι) (l : ι × Action) : Option (Lane ι) :=
  match s.ops l.1 with
  | none => if l.2 = .submit then some (s.set l.1 .new) else none
  | some o =>
    (o.act l.2).bind fun o' =>
      (s.grant l.1 l.2).map fun holder =>
        { s.set l.1 o' with
          holder := holder
          interrupts :=
            if l.2 = .interrupt then (l.1, s.holder) :: s.interrupts else s.interrupts }

end Lane

/-! ## One operation -/

/-- What the phase says of the worker and of the request. A cancelled operation still owes its
interrupt, or has had it delivered, or was cancelled while it was queued. -/
def Consistent (o : Operation) : Prop :=
  match o.phase with
  | .queued => (o.worker = .waiting ∨ o.worker = .locked) ∧ o.request.open = true ∧
      o.request ≠ .sawRunning ∧ o.interruptDelivered = false ∧ o.ran = false
  | .running => o.worker.entered = true ∧ o.worker.waits = false ∧ o.request.open = true ∧
      o.interruptDelivered = false
  | .finished => (o.worker = .leaving ∨ o.worker = .done) ∧ o.request.owes = false ∧
      o.interruptDelivered = false
  | .cancelled =>
    (o.request.owes = true ∧ o.worker.entered = true ∧ o.interruptDelivered = false) ∨
      (o.request = .gone ∧ o.interruptDelivered = true ∧ o.worker ≠ .waiting ∧ o.worker ≠ .locked ∧
        o.worker ≠ .parked) ∨
      (o.request = .gone ∧ o.interruptDelivered = false ∧ o.worker.entered = false ∧ o.ran = false)

theorem consistent_new : Consistent .new := by
  simp [Consistent, Operation.new, Request.open]

section

variable {o o' : Operation} {a : Action}

theorem Consistent.act (h : Consistent o) (ha : o.act a = some o') : Consistent o' := by
  obtain ⟨phase, worker, request, delivered, ran⟩ := o
  cases a with
  | submit => cases ha
  | lock =>
    obtain ⟨rfl, heq⟩ := Option.ite_none_right_eq_some.1 ha
    cases heq
    cases phase <;> simp_all [Consistent, Worker.entered]
  | start =>
    obtain ⟨rfl, heq⟩ := Option.ite_none_right_eq_some.1 ha
    cases phase <;> cases heq <;> simp_all [Consistent, Worker.entered, Worker.waits]
  | check =>
    obtain ⟨rfl, heq⟩ := Option.ite_none_right_eq_some.1 ha
    cases phase <;> cases heq <;> simp_all [Consistent, Worker.entered, Worker.waits]
  | closureEnds =>
    obtain ⟨rfl, heq⟩ := Option.ite_none_right_eq_some.1 ha
    cases heq
    cases phase <;> simp_all [Consistent, Worker.entered, Worker.waits]
  | finish =>
    obtain ⟨rfl, heq⟩ := Option.ite_none_right_eq_some.1 ha
    cases phase with
    | running =>
      cases heq
      have howes := Request.owes_of_open h.2.2.1
      simp_all [Consistent]
    | queued => simp [Consistent] at h
    | finished => simp [Consistent] at h
    | cancelled => cases heq; simp_all [Consistent, Worker.entered]
  | await =>
    obtain ⟨rfl, heq⟩ := Option.ite_none_right_eq_some.1 ha
    cases heq
    cases phase <;> cases delivered <;> simp_all [Consistent, Worker.entered, Worker.waits]
  | wake =>
    obtain ⟨rfl, heq⟩ := Option.ite_none_right_eq_some.1 ha
    cases heq
    cases phase <;> simp_all [Consistent, Worker.entered, Worker.waits]
  | unlock =>
    obtain ⟨rfl, heq⟩ := Option.ite_none_right_eq_some.1 ha
    cases heq
    cases phase <;> simp_all [Consistent, Worker.entered, Worker.waits]
  | drop =>
    obtain ⟨rfl, heq⟩ := Option.ite_none_right_eq_some.1 ha
    cases heq
    cases phase <;> simp_all [Consistent, Request.open, Request.owes]
  | load =>
    obtain ⟨rfl, heq⟩ := Option.ite_none_right_eq_some.1 ha
    cases phase <;> cases heq <;> simp_all [Consistent, Request.open, Request.owes]
  | compareQueued =>
    obtain ⟨rfl, heq⟩ := Option.ite_none_right_eq_some.1 ha
    cases phase with
    | queued =>
      cases heq
      obtain ⟨hw, _, _, rfl, rfl⟩ := h
      rcases hw with rfl | rfl <;> simp [Consistent, Worker.entered]
    | running => cases heq; simp_all [Consistent, Request.open]
    | finished => cases heq; simp_all [Consistent, Request.owes]
    | cancelled => simp [Consistent, Request.owes] at h
  | compareRunning =>
    obtain ⟨rfl, heq⟩ := Option.ite_none_right_eq_some.1 ha
    cases phase <;> cases heq <;> simp_all [Consistent, Request.open, Request.owes]
  | interrupt =>
    obtain ⟨rfl, heq⟩ := Option.ite_none_right_eq_some.1 ha
    cases heq
    cases phase <;> simp_all [Consistent, Request.open, Request.owes]
  | acknowledge =>
    obtain ⟨rfl, heq⟩ := Option.ite_none_right_eq_some.1 ha
    cases heq
    cases phase with
    | cancelled =>
      obtain ⟨_, hw, _⟩ : Request.interrupted.owes = true ∧ worker.entered = true ∧ delivered = false := by
        simpa [Consistent] using h
      cases worker <;> simp_all [Consistent, Worker.entered]
    | queued => simp [Consistent, Request.open] at h
    | running => simp [Consistent, Request.open] at h
    | finished => simp [Consistent, Request.owes] at h

/-- Only the mutex steps change whether a worker has the connection. -/
theorem holds_act (ha : o.act a = some o') :
    (a = .lock → o.worker.holds = false ∧ o'.worker.holds = true) ∧
      (a = .unlock → o.worker.holds = true ∧ o'.worker.holds = false) ∧
      (a ≠ .lock → a ≠ .unlock → o'.worker.holds = o.worker.holds) := by
  obtain ⟨phase, worker, request, delivered, ran⟩ := o
  cases a with
  | submit => cases ha
  | start =>
    obtain ⟨rfl, heq⟩ := Option.ite_none_right_eq_some.1 ha
    split at heq <;> cases heq <;> simp [Worker.holds]
  | check =>
    obtain ⟨rfl, heq⟩ := Option.ite_none_right_eq_some.1 ha
    split at heq <;> cases heq <;> simp [Worker.holds]
  | finish =>
    obtain ⟨rfl, heq⟩ := Option.ite_none_right_eq_some.1 ha
    split at heq <;> cases heq <;> simp [Worker.holds]
  | await =>
    obtain ⟨rfl, heq⟩ := Option.ite_none_right_eq_some.1 ha
    cases heq
    cases delivered <;> simp [Worker.holds]
  | load =>
    obtain ⟨rfl, heq⟩ := Option.ite_none_right_eq_some.1 ha
    split at heq <;> cases heq <;> simp
  | compareQueued =>
    obtain ⟨rfl, heq⟩ := Option.ite_none_right_eq_some.1 ha
    split at heq <;> cases heq <;> simp
  | compareRunning =>
    obtain ⟨rfl, heq⟩ := Option.ite_none_right_eq_some.1 ha
    split at heq <;> cases heq <;> simp
  | acknowledge =>
    obtain ⟨rfl, heq⟩ := Option.ite_none_right_eq_some.1 ha
    cases heq
    cases worker <;> simp [Worker.holds]
  | lock | closureEnds | wake | unlock | drop | interrupt =>
    obtain ⟨rfl, heq⟩ := Option.ite_none_right_eq_some.1 ha
    cases heq
    simp [Worker.holds]

theorem settled_act (h : o.request.settled = true) (ha : o.act a = some o') :
    o'.request.settled = true ∧ a ≠ .interrupt := by
  obtain ⟨phase, worker, request, delivered, ran⟩ := o
  cases a with
  | submit => cases ha
  | drop | load | compareQueued | compareRunning | interrupt =>
    obtain ⟨rfl, _⟩ := Option.ite_none_right_eq_some.1 ha
    cases h
  | start | check | finish =>
    obtain ⟨rfl, heq⟩ := Option.ite_none_right_eq_some.1 ha
    split at heq <;> cases heq <;> exact ⟨h, by simp⟩
  | lock | closureEnds | await | wake | unlock =>
    obtain ⟨rfl, heq⟩ := Option.ite_none_right_eq_some.1 ha
    cases heq
    exact ⟨h, by simp⟩
  | acknowledge =>
    obtain ⟨rfl, heq⟩ := Option.ite_none_right_eq_some.1 ha
    cases heq
    exact ⟨rfl, by simp⟩

/-- A request that is about to interrupt has its worker on the connection. -/
theorem Consistent.won (h : Consistent o) (hr : o.request = .won) : o.worker.holds = true := by
  obtain ⟨phase, worker, request, delivered, ran⟩ := o
  obtain rfl : request = .won := hr
  cases phase <;> cases worker <;>
    simp_all [Consistent, Request.open, Request.owes, Worker.entered, Worker.holds]

/-- An operation that was cancelled while it was queued never runs. -/
def Skipped (o : Operation) : Prop :=
  o.phase = .cancelled ∧ o.request = .gone ∧ o.worker.entered = false ∧ o.ran = false

theorem Skipped.act (h : Skipped o) (ha : o.act a = some o') : Skipped o' := by
  obtain ⟨phase, worker, request, delivered, ran⟩ := o
  obtain ⟨rfl, rfl, hw, rfl⟩ : phase = .cancelled ∧ request = .gone ∧ worker.entered = false ∧ ran = false := h
  cases a with
  | submit => cases ha
  | start =>
    obtain ⟨rfl, heq⟩ := Option.ite_none_right_eq_some.1 ha
    cases heq
    simp [Skipped, Worker.entered]
  | lock | unlock =>
    obtain ⟨rfl, heq⟩ := Option.ite_none_right_eq_some.1 ha
    cases heq
    simp [Skipped, Worker.entered]
  | check | closureEnds | finish | await | wake =>
    obtain ⟨rfl, _⟩ := Option.ite_none_right_eq_some.1 ha
    simp [Worker.entered] at hw
  | drop | load | compareQueued | compareRunning | interrupt | acknowledge =>
    simp [Operation.act] at ha

/-! ## Progress -/

/-- A step that neither begins an operation, nor drops a request, nor wakes for nothing. -/
def Action.proceeds : Action → Bool
  | .submit => false
  | .drop => false
  | .wake => false
  | _ => true

def Worker.rank : Worker → Nat
  | .waiting => 8
  | .locked => 7
  | .started => 6
  | .inside => 5
  | .finishing => 4
  | .awaiting => 3
  | .parked => 2
  | .leaving => 1
  | .done => 0

/-- A request that looked too early goes round its loop again, at a later phase. -/
def Request.rank : Phase → Request → Nat
  | _, .pending => 0
  | .queued, .dropping => 10
  | .running, .dropping => 6
  | _, .dropping => 1
  | .queued, .sawQueued => 9
  | .running, .sawQueued => 7
  | _, .sawQueued => 2
  | .running, .sawRunning => 5
  | _, .sawRunning => 2
  | _, .won => 4
  | _, .interrupted => 2
  | _, .gone => 0

def Operation.rank (o : Operation) : Nat := o.worker.rank + o.request.rank o.phase

theorem rank_act (h : Consistent o) (hp : a.proceeds = true) (ha : o.act a = some o') :
    o'.rank < o.rank := by
  obtain ⟨phase, worker, request, delivered, ran⟩ := o
  cases a with
  | submit | drop | wake => cases hp
  | start =>
    obtain ⟨rfl, heq⟩ := Option.ite_none_right_eq_some.1 ha
    cases phase <;> cases heq <;> cases request <;>
      simp_all [Consistent, Operation.rank, Worker.rank, Request.rank]
  | finish =>
    obtain ⟨rfl, heq⟩ := Option.ite_none_right_eq_some.1 ha
    cases phase <;> cases heq <;> cases request <;>
      simp_all [Consistent, Operation.rank, Worker.rank, Request.rank, Request.open]
  | check =>
    obtain ⟨rfl, heq⟩ := Option.ite_none_right_eq_some.1 ha
    split at heq <;> cases heq <;> simp [Operation.rank, Worker.rank]
  | await =>
    obtain ⟨rfl, heq⟩ := Option.ite_none_right_eq_some.1 ha
    cases heq
    cases delivered <;> simp [Operation.rank, Worker.rank]
  | load =>
    obtain ⟨rfl, heq⟩ := Option.ite_none_right_eq_some.1 ha
    cases phase <;> cases heq <;> simp [Operation.rank, Request.rank]
  | compareQueued =>
    obtain ⟨rfl, heq⟩ := Option.ite_none_right_eq_some.1 ha
    cases phase <;> cases heq <;> simp [Operation.rank, Request.rank]
  | compareRunning =>
    obtain ⟨rfl, heq⟩ := Option.ite_none_right_eq_some.1 ha
    cases phase <;> cases heq <;> simp_all [Consistent, Operation.rank, Request.rank]
  | acknowledge =>
    obtain ⟨rfl, heq⟩ := Option.ite_none_right_eq_some.1 ha
    cases heq
    cases worker <;> simp [Operation.rank, Worker.rank, Request.rank]
  | lock | closureEnds | unlock =>
    obtain ⟨rfl, heq⟩ := Option.ite_none_right_eq_some.1 ha
    cases heq
    simp [Operation.rank, Worker.rank]
  | interrupt =>
    obtain ⟨rfl, heq⟩ := Option.ite_none_right_eq_some.1 ha
    cases heq
    simp [Operation.rank, Request.rank]

/-- A request that is under way can always take its next step. -/
theorem request_enabled (h : o.request ≠ .pending) (h' : o.request ≠ .gone) :
    ∃ a, a.proceeds = true ∧ a ≠ .lock ∧ (o.act a).isSome = true := by
  cases hr : o.request with
  | pending => exact absurd hr h
  | gone => exact absurd hr h'
  | dropping => exact ⟨.load, rfl, by simp, by cases hp : o.phase <;> simp [Operation.act, hr, hp]⟩
  | sawQueued => exact ⟨.compareQueued, rfl, by simp, by simp only [Operation.act, hr, if_true]; split <;> rfl⟩
  | sawRunning => exact ⟨.compareRunning, rfl, by simp, by simp only [Operation.act, hr, if_true]; split <;> rfl⟩
  | won => exact ⟨.interrupt, rfl, by simp, by simp [Operation.act, hr]⟩
  | interrupted => exact ⟨.acknowledge, rfl, by simp, by simp [Operation.act, hr]⟩

/-- A worker that waits on the condition variable is owed its interrupt. -/
theorem Consistent.parked (h : Consistent o) (hw : o.worker = .parked) : o.request.owes = true := by
  obtain ⟨phase, worker, request, delivered, ran⟩ := o
  obtain rfl : worker = .parked := hw
  cases phase <;> simp_all [Consistent, Worker.entered, Worker.waits]

/-- A completion waits when the request has won and has yet to acknowledge, or has done so. -/
theorem Consistent.waits (h : Consistent o) (hw : o.worker.waits = true) : o.phase = .cancelled ∧
    (o.interruptDelivered = true ∧ o.worker ≠ .parked ∨ o.request = .won ∨ o.request = .interrupted) := by
  obtain ⟨phase, worker, request, delivered, ran⟩ := o
  cases phase with
  | queued => rcases h.1 with hq | hq <;> simp_all [Worker.waits]
  | running => simp_all [Consistent]
  | finished => rcases h.1 with hf | hf <;> simp_all [Worker.waits]
  | cancelled =>
    refine ⟨rfl, ?_⟩
    rcases h with ⟨howes, _⟩ | ⟨_, hdelivered, _, _, hparked⟩ | ⟨_, _, hentered, _⟩
    · cases request <;> simp_all [Request.owes]
    · exact .inl ⟨hdelivered, hparked⟩
    · cases worker <;> simp_all [Worker.entered, Worker.waits]

/-- Whoever holds the connection can take a step, or its request can. -/
theorem Consistent.holder_enabled (h : Consistent o) (hw : o.worker.holds = true) :
    ∃ a, a.proceeds = true ∧ a ≠ .lock ∧ (o.act a).isSome = true := by
  cases hworker : o.worker with
  | waiting => simp [hworker, Worker.holds] at hw
  | done => simp [hworker, Worker.holds] at hw
  | locked => exact ⟨.start, rfl, by simp, by simp only [Operation.act, hworker, if_true]; split <;> rfl⟩
  | started => exact ⟨.check, rfl, by simp, by simp only [Operation.act, hworker, if_true]; split <;> rfl⟩
  | inside => exact ⟨.closureEnds, rfl, by simp, by simp [Operation.act, hworker]⟩
  | finishing => exact ⟨.finish, rfl, by simp, by simp only [Operation.act, hworker, if_true]; split <;> rfl⟩
  | awaiting => exact ⟨.await, rfl, by simp, by simp [Operation.act, hworker]⟩
  | leaving => exact ⟨.unlock, rfl, by simp, by simp [Operation.act, hworker]⟩
  | parked =>
    have howes := h.parked hworker
    refine request_enabled ?_ ?_
    · intro hr
      simp [hr, Request.owes] at howes
    · intro hr
      simp [hr, Request.owes] at howes

end

/-! ## The lane -/

namespace Lane

variable {ι : Type} {s s' : Lane ι} {l : ι × Action}

theorem grant_isSome {i : ι} {a : Action} (ha : a ≠ .lock) : (s.grant i a).isSome = true := by
  cases a <;> simp_all [grant]

/-- What holds in every state: consistent operations, one holder, and interrupts that each struck
the operation that sent them, once. -/
structure Isolated (s : Lane ι) : Prop where
  ops : ∀ i o, s.ops i = some o → Consistent o
  holder : ∀ i, s.holder = some i ↔ ∃ o, s.ops i = some o ∧ o.worker.holds = true
  struck : ∀ e ∈ s.interrupts, e.2 = some e.1
  sent : ∀ e ∈ s.interrupts, ∃ o, s.ops e.1 = some o ∧ o.request.settled = true
  once : (s.interrupts.map Prod.fst).Nodup

theorem isolated_start : (start : Lane ι).Isolated := by
  constructor <;> simp [start]

variable [DecidableEq ι]

/-- Everything a step can do. -/
theorem step_cases (hs : s.step l = some s') :
    (s.ops l.1 = none ∧ s' = s.set l.1 .new) ∨
      ∃ o o' holder, s.ops l.1 = some o ∧ o.act l.2 = some o' ∧ s.grant l.1 l.2 = some holder ∧
        s' = { s.set l.1 o' with
          holder := holder
          interrupts :=
            if l.2 = .interrupt then (l.1, s.holder) :: s.interrupts else s.interrupts } := by
  unfold step at hs
  cases ho : s.ops l.1 with
  | none =>
    simp only [ho] at hs
    obtain ⟨_, heq⟩ := Option.ite_none_right_eq_some.1 hs
    exact .inl ⟨rfl, (Option.some.inj heq).symm⟩
  | some o =>
    simp only [ho] at hs
    obtain ⟨o', ha, hgrant⟩ := Option.bind_eq_some_iff.1 hs
    obtain ⟨holder, hholder, rfl⟩ := Option.map_eq_some_iff.1 hgrant
    exact .inr ⟨o, o', holder, rfl, ha, hholder, rfl⟩

theorem step_isSome {i : ι} {a : Action} {o : Operation} (ho : s.ops i = some o)
    (ha : (o.act a).isSome = true) (hgrant : (s.grant i a).isSome = true) :
    (s.step (i, a)).isSome = true := by
  obtain ⟨o', ho'⟩ := Option.isSome_iff_exists.1 ha
  obtain ⟨holder, hh⟩ := Option.isSome_iff_exists.1 hgrant
  simp [step, ho, ho', hh]

theorem ops_set (s : Lane ι) (i : ι) (o : Operation) (j : ι) :
    (s.set i o).ops j = if j = i then some o else s.ops j := by
  simp [set, Function.update]

/-- The mutex and the workers agree on the holder. -/
theorem Isolated.grant {i : ι} {o o' : Operation} {a : Action} {holder : Option ι} (h : s.Isolated)
    (ho : s.ops i = some o) (ha : o.act a = some o') (hgrant : s.grant i a = some holder) (j : ι) :
    holder = some j ↔ ∃ p, (s.set i o').ops j = some p ∧ p.worker.holds = true := by
  obtain ⟨hlock, hunlock, hother⟩ := holds_act ha
  have hset : (∃ p, (s.set i o').ops j = some p ∧ p.worker.holds = true) ↔
      if j = i then o'.worker.holds = true else s.holder = some j := by
    rw [ops_set]
    by_cases hj : j = i
    · simp [hj]
    · simp [hj, h.holder j]
  rw [hset]
  have hi : s.holder = some i ↔ o.worker.holds = true := by simp [h.holder i, ho]
  by_cases hl : a = .lock
  · subst hl
    obtain ⟨hnone, heq⟩ := Option.ite_none_right_eq_some.1 hgrant
    cases heq
    simp [(hlock rfl).2, hnone, eq_comm]
  · by_cases hu : a = .unlock
    · subst hu
      cases hgrant
      have hheld := hi.2 (hunlock rfl).1
      by_cases hj : j = i
      · simp [hj, (hunlock rfl).2]
      · simp [hj, hheld, Ne.symm hj]
    · have hsame : holder = s.holder := by
        cases a <;> simp_all [Lane.grant]
      rw [hsame, hother hl hu]
      by_cases hj : j = i
      · simp [hj, hi]
      · simp [hj]

theorem Isolated.step (h : s.Isolated) (hs : s.step l = some s') : s'.Isolated := by
  obtain ⟨i, a⟩ := l
  rcases step_cases hs with ⟨hnone, rfl⟩ | ⟨o, o', holder, ho, ha, hgrant, rfl⟩
  · have hkeep : ∀ j, s.ops j ≠ none → (s.set i .new).ops j = s.ops j := by
      intro j hj
      rw [ops_set, if_neg]
      rintro rfl
      exact hj hnone
    refine ⟨?_, ?_, h.struck, ?_, h.once⟩
    · intro j p hp
      rw [ops_set] at hp
      split at hp
      · cases hp
        exact consistent_new
      · exact h.ops j p hp
    · intro j
      show s.holder = some j ↔ _
      rw [h.holder j, ops_set]
      by_cases hj : j = i
      · simp_all [Operation.new, Worker.holds]
      · simp [hj]
    · intro e he
      obtain ⟨p, hp, hr⟩ := h.sent e he
      exact ⟨p, (hkeep e.1 (by simp [hp])).trans hp, hr⟩
  · refine ⟨?_, h.grant ho ha hgrant, ?_, ?_, ?_⟩
    · intro j p hp
      change (s.set i o').ops j = some p at hp
      rw [ops_set] at hp
      split at hp
      · cases hp
        exact (h.ops i o ho).act ha
      · exact h.ops j p hp
    · intro e he
      dsimp only at he
      split at he
      · rename_i hint
        obtain rfl : a = .interrupt := hint
        rcases List.mem_cons.1 he with rfl | he
        · obtain ⟨hwon, _⟩ := Option.ite_none_right_eq_some.1 ha
          exact (h.holder i).2 ⟨o, ho, (h.ops i o ho).won hwon⟩
        · exact h.struck e he
      · exact h.struck e he
    · intro e he
      show ∃ p, (s.set i o').ops e.1 = some p ∧ p.request.settled = true
      rw [ops_set]
      dsimp only at he
      have hold : e ∈ s.interrupts → ∃ p, (if e.1 = i then some o' else s.ops e.1) = some p ∧
          p.request.settled = true := by
        intro he
        obtain ⟨p, hp, hr⟩ := h.sent e he
        by_cases hi : e.1 = i
        · rw [hi, ho] at hp
          cases hp
          exact ⟨o', if_pos hi, (settled_act hr ha).1⟩
        · exact ⟨p, by rw [if_neg hi, hp], hr⟩
      split at he
      · rename_i hint
        obtain rfl : a = .interrupt := hint
        rcases List.mem_cons.1 he with rfl | he
        · obtain ⟨_, heq⟩ := Option.ite_none_right_eq_some.1 ha
          cases heq
          exact ⟨_, if_pos rfl, rfl⟩
        · exact hold he
      · exact hold he
    · dsimp only
      split
      · rename_i hint
        obtain rfl : a = .interrupt := hint
        refine List.nodup_cons.2 ⟨?_, h.once⟩
        intro hmem
        obtain ⟨e, he, hi⟩ := List.mem_map.1 hmem
        obtain ⟨p, hp, hr⟩ := h.sent e he
        have hio : s.ops e.1 = some o := by
          rw [hi]
          exact ho
        rw [hio] at hp
        cases hp
        exact (settled_act hr ha).2 rfl
      · exact h.once

theorem isolated (h : LeadsTo Lane.step start s) : s.Isolated :=
  h.invariant _ isolated_start fun _ _ _ h hs => h.step hs

/-! ### Cancelled while queued -/

theorem skipped_compareQueued {i : ι} {o : Operation} (ho : s.ops i = some o) (hq : o.phase = .queued)
    (hconsistent : Consistent o) (hs : s.step (i, .compareQueued) = some s') :
    ∃ o', s'.ops i = some o' ∧ Skipped o' := by
  rcases step_cases hs with ⟨hnone, _⟩ | ⟨p, o', holder, hp, ha, _, rfl⟩
  · rw [show s.ops i = none from hnone] at ho
    cases ho
  · rw [show s.ops i = some p from hp] at ho
    cases ho
    refine ⟨o', (ops_set s i o' i).trans (if_pos rfl), ?_⟩
    obtain ⟨_, heq⟩ := Option.ite_none_right_eq_some.1 ha
    rw [if_pos hq] at heq
    cases heq
    obtain ⟨hw, _, _, _, hran⟩ : (o.worker = .waiting ∨ o.worker = .locked) ∧ o.request.open = true ∧
        o.request ≠ .sawRunning ∧ o.interruptDelivered = false ∧ o.ran = false := by
      simpa [Consistent, hq] using hconsistent
    rcases hw with hw | hw <;> simp [Skipped, hw, hran, Worker.entered]

theorem skipped_step {i : ι} (h : ∃ o, s.ops i = some o ∧ Skipped o) (hs : s.step l = some s') :
    ∃ o, s'.ops i = some o ∧ Skipped o := by
  obtain ⟨o, ho, hskip⟩ := h
  rcases step_cases hs with ⟨hnone, rfl⟩ | ⟨p, o', holder, hp, ha, _, rfl⟩
  · refine ⟨o, (ops_set s l.1 .new i).trans ?_, hskip⟩
    rw [if_neg, ho]
    rintro rfl
    rw [ho] at hnone
    cases hnone
  · by_cases hi : i = l.1
    · subst hi
      rw [hp] at ho
      cases ho
      exact ⟨o', (ops_set s l.1 o' l.1).trans (if_pos rfl), hskip.act ha⟩
    · exact ⟨o, (ops_set s l.1 o' i).trans ((if_neg hi).trans ho), hskip⟩

/-! ### Progress -/

/-- A worker that is not done can go on, or another one can. -/
theorem Isolated.enabled (h : s.Isolated) {i : ι} {o : Operation} (ho : s.ops i = some o)
    (hw : o.worker ≠ .done) : ∃ l, l.2.proceeds = true ∧ (s.step l).isSome = true := by
  have hheld : ∀ {j p}, s.ops j = some p → p.worker.holds = true →
      ∃ l, l.2.proceeds = true ∧ (s.step l).isSome = true := by
    intro j p hp hholds
    obtain ⟨a, hproceeds, hlock, ha⟩ := (h.ops j p hp).holder_enabled hholds
    exact ⟨(j, a), hproceeds, step_isSome hp ha (grant_isSome hlock)⟩
  by_cases hwait : o.worker = .waiting
  · cases hholder : s.holder with
    | none => exact ⟨(i, .lock), rfl, step_isSome ho (by simp [Operation.act, hwait]) (by simp [Lane.grant, hholder])⟩
    | some j =>
      obtain ⟨p, hp, hholds⟩ := (h.holder j).1 hholder
      exact hheld hp hholds
  · refine hheld ho ?_
    cases hworker : o.worker <;> simp_all [Worker.holds]

/-- The steps that are left to the operations of a set. -/
def remaining (ids : Finset ι) (s : Lane ι) : Nat := ∑ i ∈ ids, ((s.ops i).map Operation.rank).getD 0

/-- Only these operations were submitted. -/
def Within (ids : Finset ι) (s : Lane ι) : Prop := s.Isolated ∧ ∀ i, i ∉ ids → s.ops i = none

theorem remaining_step {ids : Finset ι} (h : s.Within ids) (hp : l.2.proceeds = true)
    (hs : s.step l = some s') : s'.Within ids ∧ s'.remaining ids < s.remaining ids := by
  rcases step_cases hs with ⟨hnone, rfl⟩ | ⟨o, o', holder, ho, ha, _, hs'⟩
  · obtain ⟨i, a⟩ := l
    obtain rfl : a = .submit := by
      have hguard := hs
      unfold step at hguard
      rw [show s.ops i = none from hnone] at hguard
      exact (Option.ite_none_right_eq_some.1 hguard).1
    cases hp
  · have hin : l.1 ∈ ids := by
      by_contra hout
      rw [h.2 l.1 hout] at ho
      cases ho
    have hops : ∀ j, s'.ops j = if j = l.1 then some o' else s.ops j := by
      intro j
      rw [hs']
      exact ops_set s l.1 o' j
    refine ⟨⟨h.1.step hs, ?_⟩, Finset.sum_lt_sum ?_ ⟨l.1, hin, ?_⟩⟩
    · intro j hj
      rw [hops, if_neg]
      · exact h.2 j hj
      · rintro rfl
        exact hj hin
    · intro j _
      rw [hops]
      split
      · rename_i hj
        rw [hj, ho]
        exact Nat.le_of_lt (rank_act (h.1.ops l.1 o ho) hp ha)
      · exact Nat.le_refl _
    · rw [hops, if_pos rfl, ho]
      exact rank_act (h.1.ops l.1 o ho) hp ha

/-- A run submits finitely many operations. -/
theorem exists_within (h : LeadsTo Lane.step start s) : ∃ ids, s.Within ids := by
  refine h.invariant (fun s => ∃ ids, s.Within ids) ⟨∅, isolated_start, fun _ _ => rfl⟩ ?_
  intro s l s' ⟨ids, hisolated, hids⟩ hs
  refine ⟨insert l.1 ids, hisolated.step hs, ?_⟩
  intro i hi
  obtain ⟨hne, hnot⟩ := not_or.1 (mt Finset.mem_insert.2 hi)
  rcases step_cases hs with ⟨_, rfl⟩ | ⟨o, o', holder, _, _, _, rfl⟩
  · rw [ops_set, if_neg hne]
    exact hids i hnot
  · exact (ops_set s l.1 o' i).trans ((if_neg hne).trans (hids i hnot))

end Lane

/-- **However the steps of any number of operations interleave with drops of their requests, every
interrupt strikes the operation it was sent for while that one holds the connection, and is the only
one of its operation; an operation cancelled while queued never runs its closure; a completion waits
only for a request that has won the phase and whose interrupt and acknowledgement nothing blocks; and
while a worker is not done some step is enabled, of which only so many can follow.** -/
theorem tag_lane_isolates {ι : Type} [DecidableEq ι] {s : Lane ι} (h : LeadsTo Lane.step Lane.start s) :
    (∀ e ∈ s.interrupts, e.2 = some e.1) ∧
      (s.interrupts.map Prod.fst).Nodup ∧
      (∀ i o s' s'', s.ops i = some o → o.phase = .queued →
        s.step (i, .compareQueued) = some s' → LeadsTo Lane.step s' s'' →
        ∃ o', s''.ops i = some o' ∧ o'.ran = false) ∧
      (∀ i o, s.ops i = some o → o.worker.waits = true → o.phase = .cancelled ∧
        (o.interruptDelivered = true ∧ o.worker ≠ .parked ∨
          (s.step (i, .interrupt)).isSome = true ∨ (s.step (i, .acknowledge)).isSome = true)) ∧
      (∀ i o, s.ops i = some o → o.request ≠ .pending → o.request ≠ .gone →
        ∃ a, a.proceeds = true ∧ (s.step (i, a)).isSome = true) ∧
      (∀ i o, s.ops i = some o → o.worker ≠ .done →
        ∃ l, l.2.proceeds = true ∧ (s.step l).isSome = true) ∧
      ∃ n, ∀ ls s', (∀ l ∈ ls, l.2.proceeds = true) → steps Lane.step s ls = some s' →
        ls.length ≤ n := by
  have hisolated := Lane.isolated h
  refine ⟨hisolated.struck, hisolated.once, ?_, ?_, ?_, fun i o ho hw => hisolated.enabled ho hw, ?_⟩
  · intro i o s' s'' ho hq hs hrun
    have hskip := Lane.skipped_compareQueued ho hq (hisolated.ops i o ho) hs
    obtain ⟨o', ho', hskip'⟩ := hrun.invariant (fun s => ∃ o, s.ops i = some o ∧ Skipped o) hskip
      fun _ _ _ h hs => Lane.skipped_step h hs
    exact ⟨o', ho', hskip'.2.2.2⟩
  · intro i o ho hw
    obtain ⟨hphase, hstate⟩ := (hisolated.ops i o ho).waits hw
    refine ⟨hphase, ?_⟩
    rcases hstate with hdelivered | hwon | hinterrupted
    · exact .inl hdelivered
    · exact .inr (.inl (Lane.step_isSome ho (by simp [Operation.act, hwon]) (Lane.grant_isSome (by simp))))
    · exact .inr (.inr
        (Lane.step_isSome ho (by simp [Operation.act, hinterrupted]) (Lane.grant_isSome (by simp))))
  · intro i o ho hpending hgone
    obtain ⟨a, hproceeds, hlock, ha⟩ := request_enabled hpending hgone
    exact ⟨a, hproceeds, Lane.step_isSome ho ha (Lane.grant_isSome hlock)⟩
  · obtain ⟨ids, hwithin⟩ := Lane.exists_within h
    refine ⟨s.remaining ids, ?_⟩
    intro ls s' hls hrun
    exact steps_bounded (Lane.remaining ids) (fun _ _ _ h hp hs => Lane.remaining_step h hp hs) hwithin
      hls hrun

/-- One operation, cancelled while its closure runs. -/
def cancelledRun : List (Unit × Action) :=
  [((), .submit), ((), .lock), ((), .start), ((), .check), ((), .drop), ((), .load),
    ((), .compareRunning), ((), .interrupt), ((), .closureEnds), ((), .finish), ((), .await),
    ((), .acknowledge), ((), .await), ((), .unlock)]

theorem tag_lane_isolates_cancelledRun : ∃ s, steps Lane.step Lane.start cancelledRun = some s ∧
    s.interrupts = [((), some ())] ∧ ∀ e ∈ s.interrupts, e.2 = some e.1 :=
  ⟨_, rfl, rfl, (tag_lane_isolates ⟨cancelledRun, rfl⟩).1⟩

end TagLane
end Daemon
end Naiad
