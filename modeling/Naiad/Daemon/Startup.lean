import Naiad.Lib.Run

/-!
# Naiad.Daemon.Startup

The start of the daemon, with its tasks beside each other: the gallery queries that open the first
gate, the cache warmup behind it, the catch-up scan behind the warmup, the tag reads that wait for
the relation graph, and the health polls. Every atomic access is a step of its own, the steps of the
tasks come in any order, and a timeout may elapse at any time.

* `StartupGate`, `Wait`: a gate that opens once, and a wait on it.
* `Wait.Sound.advance`, `Wait.Sound.notified`: no wake-up is lost.
* `Startup.Ordered`: what holds of the tasks and of what they have stored.
* `Startup.Follows`: what never goes back.
* `startup_ordered`: **in every order of the steps the tasks keep to their gates, and the health
  poll reports where they are**.
-/

namespace Naiad
namespace Daemon

open Lib

/-! ## Gates -/

/-- A gate that opens once: its flag, and whether the call that set it has still to wake those who
wait. -/
structure StartupGate where
  fired : Bool
  notifying : Bool
deriving DecidableEq

namespace StartupGate

def new : StartupGate := ⟨false, false⟩

/-- `StartupGate::fired`: a gate that nobody has to open. -/
def preFired : StartupGate := ⟨true, false⟩

/-- The swap in `fire`; only the call that finds the flag unset goes on to wake the waiters. -/
def swap (g : StartupGate) : StartupGate := if g.fired then g else ⟨true, true⟩

/-- The flag behind `notify_waiters`. -/
def notified (g : StartupGate) : StartupGate := { g with notifying := false }

@[simp] theorem fired_swap (g : StartupGate) : g.swap.fired = true := by
  unfold swap
  split
  · assumption
  · rfl

@[simp] theorem fired_notified (g : StartupGate) : g.notified.fired = g.fired := rfl

@[simp] theorem notifying_notified (g : StartupGate) : g.notified.notifying = false := rfl

end StartupGate

/-- Where a task stands in `wait`: before its first look at the flag, before and behind its
registration, in the select, or past it. -/
inductive Wait
  | arrived
  | unfired
  | enabled (woken : Bool)
  | parked (woken : Bool)
  | passed (late : Bool)
deriving DecidableEq

namespace Wait

/-- One step of `wait`. In the select a timeout that has elapsed may win over a wake-up. -/
def advance (fired elapsed : Bool) : Wait → Wait
  | .arrived => if fired then .passed false else .unfired
  | .unfired => .enabled false
  | .enabled woken => if fired then .passed false else .parked woken
  | .parked woken =>
    if elapsed then .passed true else if woken then .passed false else .parked false
  | .passed late => .passed late

/-- `notify_waiters` reaches whoever has registered. -/
def woken : Wait → Wait
  | .enabled _ => .enabled true
  | .parked _ => .parked true
  | w => w

/-- A wait has passed in time only through an open gate; and who is parked without a wake-up is in
front of a closed gate, or of one whose opener has still to wake him. -/
def Sound (g : StartupGate) : Wait → Prop
  | .arrived => True
  | .unfired => True
  | .enabled woken => woken = true → g.fired = true
  | .parked woken => g.fired = woken ∨ g.fired = true ∧ g.notifying = true
  | .passed late => late = false → g.fired = true

variable {g : StartupGate} {w : Wait}

theorem Sound.advance (h : w.Sound g) (elapsed : Bool) : (w.advance g.fired elapsed).Sound g := by
  cases w with
  | arrived =>
    cases hf : g.fired with
    | true => exact fun _ => hf
    | false => trivial
  | unfired => exact nofun
  | enabled woken =>
    cases hf : g.fired with
    | true => exact fun _ => hf
    | false =>
      cases woken with
      | true => exact absurd (h rfl) (by simp [hf])
      | false => exact .inl hf
  | parked woken =>
    cases elapsed with
    | true => exact nofun
    | false =>
      cases woken with
      | true => exact fun _ => h.elim id fun h => h.1
      | false => exact h
  | passed late => exact h

theorem Sound.swap (h : w.Sound g) : w.Sound g.swap := by
  cases w with
  | arrived => trivial
  | unfired => trivial
  | enabled woken => exact fun _ => g.fired_swap
  | parked woken =>
    cases hf : g.fired with
    | true =>
      rw [StartupGate.swap, if_pos hf]
      exact h
    | false =>
      rw [StartupGate.swap, if_neg (by simp [hf])]
      exact .inr ⟨rfl, rfl⟩
  | passed late => exact fun _ => g.fired_swap

/-- Behind the notification everyone who is parked has been woken. -/
theorem Sound.notified (h : w.Sound g) (hf : g.fired = true) : w.woken.Sound g.notified := by
  cases w with
  | arrived => trivial
  | unfired => trivial
  | enabled _ => exact fun _ => hf
  | parked _ => exact .inl hf
  | passed _ => exact h

/-- Once a gate has opened and its opener has finished, a wait is over within three steps of its
own. -/
theorem Sound.passes (h : w.Sound g) (hf : g.fired = true) (hn : g.notifying = false) :
    ∃ late, ((w.advance g.fired false).advance g.fired false).advance g.fired false =
      .passed late := by
  cases w with
  | arrived => exact ⟨false, by simp [Wait.advance, hf]⟩
  | unfired => exact ⟨false, by simp [Wait.advance, hf]⟩
  | enabled woken => exact ⟨false, by simp [Wait.advance, hf]⟩
  | parked woken =>
    rcases h with hw | ⟨_, hnot⟩
    · exact ⟨false, by simp [Wait.advance, ← hw, hf]⟩
    · rw [hn] at hnot
      cases hnot
  | passed late => exact ⟨late, rfl⟩

end Wait

/-! ## The tasks -/

inductive WarmupPhase
  | idle
  | queued
  | graph
  | completion
  | done
deriving DecidableEq

namespace WarmupPhase

def code : WarmupPhase → Nat
  | .idle => 0
  | .queued => 1
  | .graph => 2
  | .completion => 3
  | .done => 4

def fromCode : Nat → WarmupPhase
  | 1 => .queued
  | 2 => .graph
  | 3 => .completion
  | 4 => .done
  | _ => .idle

def isSettled : WarmupPhase → Bool
  | .idle => true
  | .done => true
  | _ => false

@[simp] theorem fromCode_code (p : WarmupPhase) : fromCode p.code = p := by cases p <;> rfl

end WarmupPhase

/-- The warmup task: absent without a read pool; else waiting, building the relation graph, walking
the completion pages, with a stop before each store and each half of a `fire`. -/
inductive Warm
  | absent
  | waiting (w : Wait)
  | released
  | building
  | built
  | firing
  | fired
  | walking
  | walked
  | done
  | releasing
  | finished
deriving DecidableEq

namespace Warm

def rank : Warm → Nat
  | .waiting _ => 0
  | .released => 1
  | .building => 2
  | .built => 3
  | .firing => 4
  | .fired => 5
  | .walking => 6
  | .walked => 7
  | .done => 8
  | .releasing => 9
  | .finished => 10
  | .absent => 11

/-- The relation graph has been built as far as it will be. -/
def GraphBuilt (w : Warm) : Prop := 3 ≤ w.rank

/-- The phase the task has stored last. -/
def phase : Warm → WarmupPhase
  | .absent => .idle
  | .waiting _ => .queued
  | .released => .queued
  | .building => .graph
  | .built => .graph
  | .firing => .graph
  | .fired => .graph
  | .walking => .completion
  | .walked => .completion
  | .done => .done
  | .releasing => .done
  | .finished => .done

def woken : Warm → Warm
  | .waiting w => .waiting w.woken
  | w => w

@[simp] theorem rank_woken (w : Warm) : w.woken.rank = w.rank := by cases w <;> rfl

@[simp] theorem phase_woken (w : Warm) : w.woken.phase = w.phase := by cases w <;> rfl

theorem woken_eq_firing {w : Warm} : w.woken = .firing ↔ w = .firing := by
  cases w <;> simp [woken]

theorem woken_eq_releasing {w : Warm} : w.woken = .releasing ↔ w = .releasing := by
  cases w <;> simp [woken]

end Warm

structure CatchupStatus where
  running : Bool
  imported : Nat
  errors : Nat
  rootsTotal : Nat
  rootsDone : Nat
  current : Option String
  complete : Bool
deriving DecidableEq

structure ScanProgress where
  imported : Nat
  errors : Nat
  rootsTotal : Nat
  rootsDone : Nat
  current : Option String

inductive CatchupScan
  | waiting (w : Wait)
  | released
  | scanning
  | ended
deriving DecidableEq

def CatchupScan.woken : CatchupScan → CatchupScan
  | .waiting w => .waiting w.woken
  | s => s

theorem CatchupScan.woken_eq_ended {s : CatchupScan} : s.woken = .ended ↔ s = .ended := by
  cases s <;> simp [woken]

/-- Why a tag read went ahead: the graph was ready; no gallery query had been served; or it came
back from its wait. -/
inductive Passage
  | ready
  | early
  | waited (late : Bool)
deriving DecidableEq

/-- A tag read in `await_relation_graph`, which looks at two flags before it waits. -/
inductive Read
  | arrived
  | unready
  | waiting (w : Wait)
  | going (p : Passage)
deriving DecidableEq

namespace Read

def advance (graphReady startupGate : StartupGate) (elapsed : Bool) : Read → Read
  | .arrived => if graphReady.fired then .going .ready else .unready
  | .unready => if startupGate.fired then .waiting .arrived else .going .early
  | .waiting w =>
    match w.advance graphReady.fired elapsed with
    | .passed late => .going (.waited late)
    | w' => .waiting w'
  | .going p => .going p

def woken : Read → Read
  | .waiting w => .waiting w.woken
  | r => r

/-- Why the read went ahead, if it has. -/
def passage : Read → Option Passage
  | .going p => some p
  | _ => none

@[simp] theorem passage_woken (r : Read) : r.woken.passage = r.passage := by cases r <;> rfl

variable {ready startup : StartupGate} {elapsed : Bool} {r : Read}

theorem passage_advance {p : Passage} (h : r.passage = some p) :
    (r.advance ready startup elapsed).passage = some p := by
  cases r with
  | going q => exact h
  | _ => cases h

/-- Behind an open first gate no read starts to go ahead early. -/
theorem passage_early (hf : startup.fired = true)
    (h : (r.advance ready startup elapsed).passage = some .early) : r.passage = some .early := by
  cases r with
  | arrived =>
    rw [advance] at h
    split at h
    · cases h
    · cases h
  | unready =>
    rw [advance, if_pos hf] at h
    cases h
  | waiting w =>
    rw [advance] at h
    split at h
    · cases h
    · cases h
  | going p => exact h

end Read

/-- What the tasks share, and where they are; and whether the warmup and the scan were released by
their timeouts. -/
structure Startup where
  startupGate : StartupGate
  graphReady : StartupGate
  warmupDone : StartupGate
  cell : Nat
  warm : Warm
  scan : CatchupScan
  catchup : CatchupStatus
  reads : List Read
  warmLate : Bool
  scanLate : Bool

namespace Startup

inductive Event
  | gallery
  | galleryNotify
  | warm (elapsed : Bool)
  | scan (elapsed launched : Bool)
  | progress (p : ScanProgress)
  | scanned (result : Option (Nat × Nat))
  | arrive
  | read (i : Nat) (elapsed : Bool)

/-- The state behind `with_read_db` and `with_watch`: with a read pool there is a warmup, and the
gates are armed for it. -/
def start (pool : Bool) : Startup where
  startupGate := .new
  graphReady := if pool then .new else .preFired
  warmupDone := if pool then .new else .preFired
  cell := if pool then WarmupPhase.queued.code else WarmupPhase.idle.code
  warm := if pool then .waiting .arrived else .absent
  scan := .waiting .arrived
  catchup := ⟨true, 0, 0, 0, 0, none, false⟩
  reads := []
  warmLate := false
  scanLate := false

/-- One step of the warmup task. The build and the walk end in any way: the task goes on. -/
def stepWarm (s : Startup) (elapsed : Bool) : Startup :=
  match s.warm with
  | .absent => s
  | .waiting w =>
    match w.advance s.startupGate.fired elapsed with
    | .passed late => { s with warm := .released, warmLate := late }
    | w' => { s with warm := .waiting w' }
  | .released => { s with warm := .building, cell := WarmupPhase.graph.code }
  | .building => { s with warm := .built }
  | .built => { s with warm := .firing, graphReady := s.graphReady.swap }
  | .firing =>
    if s.graphReady.notifying then
      { s with
        warm := .fired, graphReady := s.graphReady.notified, reads := s.reads.map Read.woken }
    else { s with warm := .fired }
  | .fired => { s with warm := .walking, cell := WarmupPhase.completion.code }
  | .walking => { s with warm := .walked }
  | .walked => { s with warm := .done, cell := WarmupPhase.done.code }
  | .done => { s with warm := .releasing, warmupDone := s.warmupDone.swap }
  | .releasing =>
    if s.warmupDone.notifying then
      { s with warm := .finished, warmupDone := s.warmupDone.notified, scan := s.scan.woken }
    else { s with warm := .finished }
  | .finished => s

/-- One step of the task that starts the scan; the thread may fail to launch. -/
def stepScan (s : Startup) (elapsed launched : Bool) : Startup :=
  match s.scan with
  | .waiting w =>
    match w.advance s.warmupDone.fired elapsed with
    | .passed late => { s with scan := .released, scanLate := late }
    | w' => { s with scan := .waiting w' }
  | .released =>
    if launched then { s with scan := .scanning }
    else { s with scan := .ended, catchup := { s.catchup with running := false, complete := true } }
  | .scanning => s
  | .ended => s

def step (s : Startup) : Event → Startup
  | .gallery => { s with startupGate := s.startupGate.swap }
  | .galleryNotify =>
    if s.startupGate.notifying then
      { s with startupGate := s.startupGate.notified, warm := s.warm.woken }
    else s
  | .warm elapsed => s.stepWarm elapsed
  | .scan elapsed launched => s.stepScan elapsed launched
  | .progress p =>
    if s.scan = .scanning then
      { s with catchup := { s.catchup with
          running := true, imported := p.imported, errors := p.errors,
          rootsTotal := p.rootsTotal, rootsDone := p.rootsDone, current := p.current } }
    else s
  | .scanned result =>
    if s.scan = .scanning then
      let c := { s.catchup with running := false, current := none, complete := true }
      { s with
        scan := .ended
        catchup := match result with
          | some (imported, errors) => { c with imported := imported, errors := errors }
          | none => c }
    else s
  | .arrive => { s with reads := s.reads ++ [.arrived] }
  | .read i elapsed =>
    { s with reads := s.reads.modify i (Read.advance s.graphReady s.startupGate elapsed) }

/-- What the health poll shows of the warmup. -/
def status (s : Startup) : WarmupPhase × Bool :=
  (WarmupPhase.fromCode s.cell, (WarmupPhase.fromCode s.cell).isSettled)

end Startup

/-! ## What holds in every order -/

def Warm.Sound (g : StartupGate) : Warm → Prop
  | .waiting w => w.Sound g
  | _ => True

def CatchupScan.Sound (g : StartupGate) : CatchupScan → Prop
  | .waiting w => w.Sound g
  | _ => True

/-- A read that went ahead had the graph ready, unless it came early or late. -/
def Read.Sound (g : StartupGate) : Read → Prop
  | .waiting w => w.Sound g
  | .going .ready => g.fired = true
  | .going (.waited late) => late = false → g.fired = true
  | _ => True

theorem Warm.Sound.notified {g : StartupGate} {w : Warm} (h : w.Sound g) (hf : g.fired = true) :
    w.woken.Sound g.notified := by
  cases w with
  | waiting w => exact Wait.Sound.notified h hf
  | _ => trivial

theorem Warm.Sound.swap {g : StartupGate} {w : Warm} (h : w.Sound g) : w.Sound g.swap := by
  cases w with
  | waiting w => exact Wait.Sound.swap h
  | _ => trivial

theorem CatchupScan.Sound.notified {g : StartupGate} {s : CatchupScan} (h : s.Sound g)
    (hf : g.fired = true) : s.woken.Sound g.notified := by
  cases s with
  | waiting w => exact Wait.Sound.notified h hf
  | _ => trivial

theorem CatchupScan.Sound.swap {g : StartupGate} {s : CatchupScan} (h : s.Sound g) :
    s.Sound g.swap := by
  cases s with
  | waiting w => exact Wait.Sound.swap h
  | _ => trivial

theorem Read.Sound.notified {g : StartupGate} {r : Read} (h : r.Sound g) (hf : g.fired = true) :
    r.woken.Sound g.notified := by
  cases r with
  | waiting w => exact Wait.Sound.notified h hf
  | going p =>
    cases p with
    | ready => exact hf
    | early => trivial
    | waited late => exact fun _ => hf
  | _ => trivial

theorem Read.Sound.swap {g : StartupGate} {r : Read} (h : r.Sound g) : r.Sound g.swap := by
  cases r with
  | waiting w => exact Wait.Sound.swap h
  | going p =>
    cases p with
    | ready => exact g.fired_swap
    | early => trivial
    | waited late => exact fun _ => g.fired_swap
  | _ => trivial

theorem Read.Sound.advance {g : StartupGate} {r : Read} (h : r.Sound g) (startup : StartupGate)
    (elapsed : Bool) : (r.advance g startup elapsed).Sound g := by
  cases r with
  | arrived =>
    rw [Read.advance]
    split
    · assumption
    · trivial
  | unready =>
    rw [Read.advance]
    split
    · trivial
    · trivial
  | waiting w =>
    have hw := Wait.Sound.advance h elapsed
    rw [Read.advance]
    split
    · rename_i late heq
      rw [heq] at hw
      exact hw
    · exact hw
  | going p => exact h

namespace Startup

/-- Where the tasks are tells what they have stored, and each task is behind its gate. -/
structure Ordered (s : Startup) : Prop where
  startup : s.startupGate.notifying = true → s.startupGate.fired = true
  graphReady : s.graphReady = ⟨decide (4 ≤ s.warm.rank), decide (s.warm = .firing)⟩
  warmupDone : s.warmupDone = ⟨decide (9 ≤ s.warm.rank), decide (s.warm = .releasing)⟩
  cell : s.cell = s.warm.phase.code
  warm : s.warm.Sound s.startupGate
  released : 1 ≤ s.warm.rank → s.warm.rank ≤ 10 → s.startupGate.fired = true ∨ s.warmLate = true
  scan : s.scan.Sound s.warmupDone
  scanned : (∀ w, s.scan ≠ .waiting w) → s.warmupDone.fired = true ∨ s.scanLate = true
  running : s.catchup.running = decide (s.scan ≠ .ended)
  complete : s.catchup.complete = decide (s.scan = .ended)
  reads : ∀ r ∈ s.reads, r.Sound s.graphReady

theorem ordered_start (pool : Bool) : (start pool).Ordered := by
  have hscan : (∀ w, (start pool).scan ≠ .waiting w) → (start pool).warmupDone.fired = true ∨
      (start pool).scanLate = true := fun h => absurd rfl (h .arrived)
  cases pool with
  | true => exact ⟨nofun, rfl, rfl, rfl, trivial, nofun, trivial, hscan, rfl, rfl, nofun⟩
  | false =>
    exact ⟨nofun, rfl, rfl, rfl, trivial, fun _ h => absurd h (by decide), trivial, hscan, rfl, rfl,
      nofun⟩

variable {s : Startup}

theorem Ordered.stored (h : s.Ordered) {warm : Warm} (hw : s.warm = warm) :
    s.graphReady = ⟨decide (4 ≤ warm.rank), decide (warm = .firing)⟩ ∧
      s.warmupDone = ⟨decide (9 ≤ warm.rank), decide (warm = .releasing)⟩ ∧
      s.cell = warm.phase.code := by
  subst hw
  exact ⟨h.graphReady, h.warmupDone, h.cell⟩

theorem Ordered.cause (h : s.Ordered) {warm : Warm} (hw : s.warm = warm)
    (hrank : 1 ≤ warm.rank ∧ warm.rank ≤ 10) : s.startupGate.fired = true ∨ s.warmLate = true := by
  subst hw
  exact h.released hrank.1 hrank.2

theorem Ordered.stepWarm (h : s.Ordered) (elapsed : Bool) : (s.stepWarm elapsed).Ordered := by
  unfold Startup.stepWarm
  cases hw : s.warm with
  | absent => exact h
  | finished => exact h
  | waiting w =>
    obtain ⟨hready, hdone, hcell⟩ := h.stored hw
    have hsound : w.Sound s.startupGate := by
      have := h.warm
      rwa [hw] at this
    have hnext := hsound.advance elapsed
    simp only
    split
    · rename_i late heq
      rw [heq] at hnext
      refine { h with
        graphReady := hready, warmupDone := hdone, cell := hcell, warm := trivial
        released := fun _ _ => ?_ }
      cases late with
      | true => exact .inr rfl
      | false => exact .inl (hnext rfl)
    · exact { h with
        graphReady := hready, warmupDone := hdone, cell := hcell, warm := hnext
        released := nofun }
  | released =>
    obtain ⟨hready, hdone, _⟩ := h.stored hw
    exact { h with
      graphReady := hready, warmupDone := hdone, cell := rfl, warm := trivial
      released := fun _ _ => h.cause hw (by decide) }
  | building =>
    obtain ⟨hready, hdone, hcell⟩ := h.stored hw
    exact { h with
      graphReady := hready, warmupDone := hdone, cell := hcell, warm := trivial
      released := fun _ _ => h.cause hw (by decide) }
  | built =>
    obtain ⟨hready, hdone, hcell⟩ := h.stored hw
    exact { h with
      graphReady := by rw [hready]; rfl
      warmupDone := hdone, cell := hcell, warm := trivial
      released := fun _ _ => h.cause hw (by decide)
      reads := fun r hr => (h.reads r hr).swap }
  | firing =>
    obtain ⟨hready, hdone, hcell⟩ := h.stored hw
    have hfired : s.graphReady.fired = true := by rw [hready]; rfl
    have hn : s.graphReady.notifying = true := by rw [hready]; rfl
    simp only [if_pos hn]
    refine { h with
      graphReady := by rw [hready]; rfl
      warmupDone := hdone, cell := hcell, warm := trivial
      released := fun _ _ => h.cause hw (by decide)
      reads := fun r hr => ?_ }
    obtain ⟨r₀, hr₀, rfl⟩ := List.mem_map.1 hr
    exact (h.reads r₀ hr₀).notified hfired
  | fired =>
    obtain ⟨hready, hdone, _⟩ := h.stored hw
    exact { h with
      graphReady := hready, warmupDone := hdone, cell := rfl, warm := trivial
      released := fun _ _ => h.cause hw (by decide) }
  | walking =>
    obtain ⟨hready, hdone, hcell⟩ := h.stored hw
    exact { h with
      graphReady := hready, warmupDone := hdone, cell := hcell, warm := trivial
      released := fun _ _ => h.cause hw (by decide) }
  | walked =>
    obtain ⟨hready, hdone, _⟩ := h.stored hw
    exact { h with
      graphReady := hready, warmupDone := hdone, cell := rfl, warm := trivial
      released := fun _ _ => h.cause hw (by decide) }
  | done =>
    obtain ⟨hready, hdone, hcell⟩ := h.stored hw
    exact { h with
      graphReady := hready, cell := hcell, warm := trivial
      warmupDone := by rw [hdone]; rfl
      released := fun _ _ => h.cause hw (by decide)
      scan := h.scan.swap
      scanned := fun _ => .inl s.warmupDone.fired_swap }
  | releasing =>
    obtain ⟨hready, hdone, hcell⟩ := h.stored hw
    have hfired : s.warmupDone.fired = true := by rw [hdone]; rfl
    have hn : s.warmupDone.notifying = true := by rw [hdone]; rfl
    simp only [if_pos hn]
    exact { h with
      graphReady := hready, cell := hcell, warm := trivial
      warmupDone := by rw [hdone]; rfl
      released := fun _ _ => h.cause hw (by decide)
      scan := h.scan.notified hfired
      scanned := fun _ => .inl hfired
      running := by simpa [CatchupScan.woken_eq_ended] using h.running
      complete := by simpa [CatchupScan.woken_eq_ended] using h.complete }

theorem Ordered.stepScan (h : s.Ordered) (elapsed launched : Bool) :
    (s.stepScan elapsed launched).Ordered := by
  have hrunning := h.running
  have hcomplete := h.complete
  unfold Startup.stepScan
  cases hs : s.scan with
  | waiting w =>
    have hsound : w.Sound s.warmupDone := by
      have := h.scan
      rwa [hs] at this
    have hnext := hsound.advance elapsed
    rw [hs] at hrunning hcomplete
    simp only
    split
    · rename_i late heq
      rw [heq] at hnext
      refine { h with
        scan := trivial, scanned := fun _ => ?_, running := hrunning, complete := hcomplete }
      cases late with
      | true => exact .inr rfl
      | false => exact .inl (hnext rfl)
    · exact { h with
        scan := hnext, scanned := fun hnot => absurd rfl (hnot _), running := hrunning
        complete := hcomplete }
  | released =>
    have hcause := h.scanned (by simp [hs])
    rw [hs] at hrunning hcomplete
    cases launched with
    | true =>
      exact { h with
        scan := trivial, scanned := fun _ => hcause, running := hrunning, complete := hcomplete }
    | false =>
      exact { h with
        scan := trivial, scanned := fun _ => hcause, running := rfl, complete := rfl }
  | scanning => exact h
  | ended => exact h

theorem Ordered.step (h : s.Ordered) (e : Event) : (s.step e).Ordered := by
  cases e with
  | gallery =>
    exact { h with
      startup := fun _ => s.startupGate.fired_swap
      warm := h.warm.swap
      released := fun _ _ => .inl s.startupGate.fired_swap }
  | galleryNotify =>
    rw [Startup.step]
    split
    · rename_i hn
      exact { h with
        startup := nofun
        graphReady := by simpa [Warm.woken_eq_firing] using h.graphReady
        warmupDone := by simpa [Warm.woken_eq_releasing] using h.warmupDone
        cell := by simpa using h.cell
        warm := h.warm.notified (h.startup hn)
        released := by simpa using h.released }
    · exact h
  | warm elapsed => exact h.stepWarm elapsed
  | scan elapsed launched => exact h.stepScan elapsed launched
  | progress p =>
    rw [Startup.step]
    split
    · rename_i hs
      exact { h with
        running := by simp [hs] }
    · exact h
  | scanned result =>
    rw [Startup.step]
    split
    · rename_i hs
      have hcause := h.scanned (by simp [hs])
      refine { h with
        scan := trivial, scanned := fun _ => hcause, running := ?_, complete := ?_ }
      · cases result <;> rfl
      · cases result <;> rfl
    · exact h
  | arrive =>
    refine { h with reads := fun r hr => ?_ }
    rcases List.mem_append.1 hr with hr | hr
    · exact h.reads r hr
    · rw [List.mem_singleton] at hr
      subst hr
      trivial
  | read i elapsed =>
    refine { h with reads := fun r hr => ?_ }
    obtain ⟨n, hn⟩ := List.mem_iff_getElem?.1 hr
    simp only [Startup.step, List.getElem?_modify] at hn
    obtain ⟨r₀, hr₀, rfl⟩ := Option.map_eq_some_iff.1 hn
    have hsound := h.reads r₀ (List.mem_of_getElem? hr₀)
    split
    · exact hsound.advance s.startupGate elapsed
    · exact hsound

/-! ## What never goes back -/

/-- Why a read went ahead, if it has. -/
def passage (s : Startup) (i : Nat) : Option Passage := s.reads[i]?.bind Read.passage

/-- From a state to a later one: gates stay open, the warmup goes on, a scan that has ended has
ended, a read that went ahead went ahead, and behind the first gallery query none goes ahead early
any more. -/
structure Follows (s s' : Startup) : Prop where
  gallery : s.startupGate.fired = true → s'.startupGate.fired = true
  rank : s.warm.rank ≤ s'.warm.rank
  ended : s.scan = .ended → s'.scan = .ended
  gone : ∀ i p, s.passage i = some p → s'.passage i = some p
  early : s.startupGate.fired = true → ∀ i, s'.passage i = some .early → s.passage i = some .early

theorem Follows.refl (s : Startup) : s.Follows s :=
  ⟨id, le_refl _, id, fun _ _ h => h, fun _ _ h => h⟩

theorem Follows.trans {s s' s'' : Startup} (h : s.Follows s') (h' : s'.Follows s'') :
    s.Follows s'' where
  gallery hf := h'.gallery (h.gallery hf)
  rank := h.rank.trans h'.rank
  ended he := h'.ended (h.ended he)
  gone i p hp := h'.gone i p (h.gone i p hp)
  early hf i hp := h.early hf i (h'.early (h.gallery hf) i hp)

/-- A step that leaves the reads where they are. -/
theorem Follows.of_reads {s s' : Startup}
    (hgallery : s.startupGate.fired = true → s'.startupGate.fired = true)
    (hrank : s.warm.rank ≤ s'.warm.rank) (hended : s.scan = .ended → s'.scan = .ended)
    (hreads : s'.passage = s.passage) : s.Follows s' :=
  ⟨hgallery, hrank, hended, fun i p hp => by rw [hreads, hp], fun _ i hp => by rwa [hreads] at hp⟩

theorem passage_map_woken (s s' : Startup) (h : s'.reads = s.reads.map Read.woken) :
    s'.passage = s.passage := by
  funext i
  rw [passage, passage, h, List.getElem?_map]
  cases s.reads[i]? with
  | none => rfl
  | some r => exact r.passage_woken

theorem follows_stepWarm (s : Startup) (elapsed : Bool) : s.Follows (s.stepWarm elapsed) := by
  have hto : ∀ (s' : Startup) (w w' : Warm), s.warm = w → s'.warm = w' → w.rank ≤ w'.rank →
      s'.startupGate = s.startupGate → (s.scan = .ended → s'.scan = .ended) →
      s'.passage = s.passage → s.Follows s' := by
    intro s' w w' hw hw' hrank hgate hended hreads
    subst hw hw'
    exact .of_reads (fun hf => by rwa [hgate]) hrank hended hreads
  unfold stepWarm
  cases hw : s.warm with
  | absent => exact .refl s
  | finished => exact .refl s
  | waiting w =>
    simp only
    split
    · exact hto _ _ .released hw rfl (Nat.zero_le _) rfl id rfl
    · exact hto _ _ _ hw rfl (le_refl _) rfl id rfl
  | firing =>
    simp only
    split
    · exact hto _ _ .fired hw rfl (by decide) rfl id (passage_map_woken _ _ rfl)
    · exact hto _ _ .fired hw rfl (by decide) rfl id rfl
  | releasing =>
    simp only
    split
    · exact hto _ _ .finished hw rfl (by decide) rfl (fun he => by rw [he]; rfl) rfl
    · exact hto _ _ .finished hw rfl (by decide) rfl id rfl
  | released => exact hto _ _ .building hw rfl (by decide) rfl id rfl
  | building => exact hto _ _ .built hw rfl (by decide) rfl id rfl
  | built => exact hto _ _ .firing hw rfl (by decide) rfl id rfl
  | fired => exact hto _ _ .walking hw rfl (by decide) rfl id rfl
  | walking => exact hto _ _ .walked hw rfl (by decide) rfl id rfl
  | walked => exact hto _ _ .done hw rfl (by decide) rfl id rfl
  | done => exact hto _ _ .releasing hw rfl (by decide) rfl id rfl

theorem follows_stepScan (s : Startup) (elapsed launched : Bool) :
    s.Follows (s.stepScan elapsed launched) := by
  unfold stepScan
  cases hs : s.scan with
  | waiting w =>
    simp only
    split
    · exact .of_reads id (le_refl _) (fun he => by rw [hs] at he; cases he) rfl
    · exact .of_reads id (le_refl _) (fun he => by rw [hs] at he; cases he) rfl
  | released =>
    cases launched with
    | true => exact .of_reads id (le_refl _) (fun he => by rw [hs] at he; cases he) rfl
    | false => exact .of_reads id (le_refl _) (fun _ => rfl) rfl
  | scanning => exact .refl s
  | ended => exact .refl s

theorem follows_read (s : Startup) (i : Nat) (elapsed : Bool) :
    s.Follows (s.step (.read i elapsed)) := by
  have hat : ∀ j, (s.step (.read i elapsed)).reads[j]? = s.reads[j]?.map fun r =>
      if i = j then r.advance s.graphReady s.startupGate elapsed else r := by
    intro j
    simp only [Startup.step, List.getElem?_modify, Option.map_eq_map]
  refine ⟨id, le_refl _, id, ?_, ?_⟩
  · intro j p hp
    obtain ⟨r, hr, hrp⟩ := Option.bind_eq_some_iff.1 hp
    rw [passage, hat, hr, Option.map_some, Option.bind_some]
    split
    · exact Read.passage_advance hrp
    · exact hrp
  · intro hf j hp
    obtain ⟨r', hr', hrp⟩ := Option.bind_eq_some_iff.1 hp
    rw [hat] at hr'
    obtain ⟨r, hr, rfl⟩ := Option.map_eq_some_iff.1 hr'
    rw [passage, hr, Option.bind_some]
    split at hrp
    · exact Read.passage_early hf hrp
    · exact hrp

theorem follows_step (s : Startup) (e : Event) : s.Follows (s.step e) := by
  cases e with
  | gallery => exact .of_reads (fun _ => s.startupGate.fired_swap) (le_refl _) id rfl
  | galleryNotify =>
    rw [Startup.step]
    split
    · exact .of_reads id (by simp) id rfl
    · exact .refl s
  | warm elapsed => exact follows_stepWarm s elapsed
  | scan elapsed launched => exact follows_stepScan s elapsed launched
  | progress p =>
    rw [Startup.step]
    split
    · exact .of_reads id (le_refl _) id rfl
    · exact .refl s
  | scanned result =>
    rw [Startup.step]
    split
    · exact .of_reads id (le_refl _) (fun _ => rfl) rfl
    · exact .refl s
  | arrive =>
    refine .of_reads id (le_refl _) id ?_
    funext i
    simp only [passage, Startup.step, List.getElem?_append]
    split
    · rfl
    · rename_i hlt
      rw [List.getElem?_eq_none (not_lt.1 hlt)]
      cases i - s.reads.length with
      | zero => rfl
      | succ n => rfl
  | read i elapsed => exact follows_read s i elapsed

/-! ## Runs -/

/-- A task stands in a wait on a gate. -/
inductive Waits (s : Startup) : StartupGate → Wait → Prop
  | warm {w : Wait} : s.warm = .waiting w → Waits s s.startupGate w
  | scan {w : Wait} : s.scan = .waiting w → Waits s s.warmupDone w
  | read {w : Wait} : .waiting w ∈ s.reads → Waits s s.graphReady w

theorem Ordered.waits (h : s.Ordered) {g : StartupGate} {w : Wait} (hw : s.Waits g w) :
    w.Sound g := by
  cases hw with
  | warm hw =>
    have hsound := h.warm
    rwa [hw] at hsound
  | scan hw =>
    have hsound := h.scan
    rwa [hw] at hsound
  | read hw => exact h.reads _ hw

theorem ordered_run (pool : Bool) (events : List Event) :
    (run Startup.step (start pool) events).Ordered :=
  run_invariant events (ordered_start pool) fun _ e h => h.step e

theorem follows_run (s : Startup) (events : List Event) :
    s.Follows (run Startup.step s events) :=
  @run_invariant _ _ Startup.step (fun s' => s.Follows s') s events (.refl s)
    fun s' e h => h.trans (follows_step s' e)

/-- **In every order of the steps of the start, with timeouts at any time: the health poll shows the
phase the warmup is in, and shows it complete once the scan's gate is open; the warmup reads nothing
before the first gallery query or its timeout, and the scan does not start before the warmup is done
or its own; the scan is shown running until it has ended, and complete from then on; a tag read goes
ahead only when the graph has been built, when it came before the first gallery query, or when it
has waited for its timeout; a wait on an open gate whose opener is through is over within three
steps of its task; and none of this goes back.** -/
theorem startup_ordered (pool : Bool) (earlier later : List Event) :
    let s := run Startup.step (start pool) earlier
    (s.status = (s.warm.phase, s.warm.phase.isSettled) ∧
        (s.warmupDone.fired = true → s.status.2 = true)) ∧
      (s.warm.phase = .graph ∨ s.warm.phase = .completion →
        s.startupGate.fired = true ∨ s.warmLate = true) ∧
      ((∀ w, s.scan ≠ .waiting w) → s.warmupDone.fired = true ∨ s.scanLate = true) ∧
      (s.catchup.running = decide (s.scan ≠ .ended) ∧
        s.catchup.complete = decide (s.scan = .ended)) ∧
      (∀ i p, s.passage i = some p → p = .early ∨ p = .waited true ∨ s.warm.GraphBuilt) ∧
      (∀ g w, s.Waits g w → g.fired = true → g.notifying = false → ∃ late,
        ((w.advance g.fired false).advance g.fired false).advance g.fired false = .passed late) ∧
      s.Follows (run Startup.step s later) := by
  intro s
  have h : s.Ordered := ordered_run pool earlier
  have hstatus : s.status = (s.warm.phase, s.warm.phase.isSettled) := by
    rw [status, h.cell, WarmupPhase.fromCode_code]
  refine ⟨⟨hstatus, ?_⟩, ?_, h.scanned, ⟨h.running, h.complete⟩, ?_, ?_, follows_run s later⟩
  · intro hf
    have hrank : 9 ≤ s.warm.rank := by simpa [h.warmupDone] using hf
    rw [hstatus]
    cases hw : s.warm <;> simp [hw, Warm.rank] at hrank <;> rfl
  · intro hphase
    cases hw : s.warm with
    | waiting w => simp [hw, Warm.phase] at hphase
    | absent => simp [hw, Warm.phase] at hphase
    | _ => exact h.cause hw (by decide)
  · intro i p hp
    obtain ⟨r, hr, hrp⟩ := Option.bind_eq_some_iff.1 hp
    have hsound := h.reads r (List.mem_of_getElem? hr)
    have hbuilt : s.graphReady.fired = true → s.warm.GraphBuilt := by
      intro hf
      have hrank : 4 ≤ s.warm.rank := by simpa [h.graphReady] using hf
      exact (Nat.le_succ 3).trans hrank
    cases r with
    | going q =>
      cases hrp
      cases p with
      | ready => exact .inr (.inr (hbuilt hsound))
      | early => exact .inl rfl
      | waited late =>
        cases late with
        | true => exact .inr (.inl rfl)
        | false => exact .inr (.inr (hbuilt (hsound rfl)))
    | _ => cases hrp
  · intro g w hw hf hn
    exact (h.waits hw).passes hf hn

/-- Before the first gallery query a read goes ahead also when the warmup, released by its timeout,
is building the graph. -/
example :
    let s := run Startup.step (start true)
      [.warm false, .warm false, .warm false, .warm true, .warm false, .arrive, .read 0 false,
        .read 0 false]
    s.warm = .building ∧ s.passage 0 = some .early := by decide

end Startup

end Daemon
end Naiad
