import Naiad.Lib.Run
import Naiad.Lib.Tally

/-!
# Naiad.Ui.ThumbFetch

The queue of HTTP thumbnail requests. Waiting requests are a stack; a cancelled one stays on it as a
phantom and is skipped when it is popped. A fetch that settles runs a callback, which may call the
queue again and may throw, and then gives its slot to the newest request that waits.

* `step`: one event, its callbacks included.
* `Balanced`: what holds of slots, counts, starts and callbacks.
* `thumbFetch_answers`: **the queue is balanced in every run, and every request is answered once in
  just the runs where no `onBlob` throws at a request it has not cancelled**.
-/

namespace Naiad
namespace Ui
namespace ThumbFetch

open Lib

/-! ## The queue -/

/-- Where the fetch of a request is. -/
inductive Flight
  | queued
  | fetching
  /-- The response was ok; its body is read. -/
  | reading
  | finished
deriving DecidableEq

structure Job where
  cancelled : Bool
  flight : Flight
deriving DecidableEq

def Job.running (job : Job) : Bool := decide (job.flight ≠ .queued)

inductive Callback
  | onBlob
  | onError
deriving DecidableEq

/-- A fetch that was started: the slots in use and the cap when it was, and the requests that waited,
its own among them. -/
structure Start where
  job : Nat
  active : Int
  cap : Int
  waiting : List Nat
deriving DecidableEq

/-- A callback that was called, and whether its request was cancelled. -/
structure Told where
  job : Nat
  callback : Callback
  cancelled : Bool
deriving DecidableEq

/-- Requests are numbered as they are made. The last two fields record what happened. -/
structure Queue where
  maxConcurrent : Int
  /-- Newest first. -/
  pending : List Nat
  active : Int
  logicalPendingCount : Int
  jobs : Table Nat Job
  nextId : Nat
  started : List Start
  told : List Told

inductive Op
  | request
  | cancel (i : Nat)
  | setMaxConcurrent (n : Int)
deriving DecidableEq

inductive Thrown
  | abortError
  | other
deriving DecidableEq

/-- What a callback does: calls of the queue, and what it throws after them. -/
structure Reaction where
  ops : List Op
  throws : Option Thrown
deriving DecidableEq

inductive Response
  | ok
  | httpError
  | networkError
  /-- The signal of a cancelled request. -/
  | aborted
deriving DecidableEq

inductive Body
  | blob
  | failed
  | aborted
deriving DecidableEq

inductive Event
  | op (op : Op)
  | response (i : Nat) (response : Response) (onError : Reaction)
  | body (i : Nat) (body : Body) (onBlob onError : Reaction)
deriving DecidableEq

/-- Where a request counts. -/
inductive Place
  | waiting
  | inFlight
deriving DecidableEq

/-- A phantom counts nowhere. -/
def Job.place (job : Job) : Option Place :=
  match job.flight with
  | .queued => if job.cancelled then none else some .waiting
  | .fetching => some .inFlight
  | .reading => some .inFlight
  | .finished => none

/-- One where the request counts. -/
def Job.counts (job : Job) (p : Place) : Nat := if job.place = some p then 1 else 0

namespace Queue

def new (maxConcurrent : Int) : Queue := ⟨maxConcurrent, [], 0, 0, ∅, 0, [], []⟩

def waiting (q : Queue) : List Nat :=
  (q.jobs.entries.filter fun e => e.2.place = some .waiting).map Sigma.fst

/-- The start of the fetch. -/
def run (q : Queue) (i : Nat) (job : Job) : Queue :=
  { q with
    active := q.active + 1
    jobs := q.jobs.insert i { job with flight := .fetching } }

def launch (q : Queue) (i : Nat) (job : Job) (rest : List Nat) : Queue :=
  run
    { q with
      pending := rest
      logicalPendingCount := q.logicalPendingCount - 1
      started := q.started ++ [⟨i, q.active, q.maxConcurrent, q.waiting⟩] }
    i job

/-- The loop, over the stack. -/
def pumpLoop (q : Queue) : List Nat → Queue
  | [] => q
  | i :: rest =>
    if q.active < q.maxConcurrent then
      match q.jobs.lookup i with
      | none => pumpLoop { q with pending := rest } rest
      | some job =>
        if job.cancelled then pumpLoop { q with pending := rest } rest
        else pumpLoop (q.launch i job rest) rest
    else q

def pump (q : Queue) : Queue := q.pumpLoop q.pending

def request (q : Queue) : Queue :=
  pump
    { q with
      jobs := q.jobs.insert q.nextId ⟨false, .queued⟩
      nextId := q.nextId + 1
      pending := q.nextId :: q.pending
      logicalPendingCount := q.logicalPendingCount + 1 }

/-- The function a request returns. -/
def cancel (q : Queue) (i : Nat) : Queue :=
  match q.jobs.lookup i with
  | none => q
  | some job =>
    if job.cancelled then q
    else if job.running then { q with jobs := q.jobs.insert i { job with cancelled := true } }
    else
      { q with
        jobs := q.jobs.insert i { job with cancelled := true }
        logicalPendingCount := q.logicalPendingCount - 1 }

def setMaxConcurrent (q : Queue) (n : Int) : Queue :=
  pump { q with maxConcurrent := n }

def apply (q : Queue) : Op → Queue
  | .request => q.request
  | .cancel i => q.cancel i
  | .setMaxConcurrent n => q.setMaxConcurrent n

def isCancelled (q : Queue) (i : Nat) : Bool :=
  match q.jobs.lookup i with
  | none => true
  | some job => job.cancelled

/-- A callback runs. -/
def call (q : Queue) (i : Nat) (callback : Callback) (reaction : Reaction) : Queue :=
  reaction.ops.foldl apply { q with told := q.told ++ [⟨i, callback, q.isCancelled i⟩] }

/-- The `catch` block. -/
def caught (q : Queue) (i : Nat) (err : Thrown) (onError : Reaction) : Queue :=
  if q.isCancelled i ∨ err = .abortError then q else q.call i .onError onError

/-- The `finally` block. -/
def finish (q : Queue) (i : Nat) : Queue :=
  match q.jobs.lookup i with
  | none => q
  | some job =>
    pump
      { q with
        jobs := q.jobs.insert i { job with flight := .finished }
        active := q.active - 1 }

/-- The rest of the `try` block once the body is read. -/
def deliver (q : Queue) (i : Nat) (onBlob onError : Reaction) : Queue :=
  if q.isCancelled i then q
  else
    match onBlob.throws with
    | none => q.call i .onBlob onBlob
    | some err => (q.call i .onBlob onBlob).caught i err onError

def step (q : Queue) : Event → Queue
  | .op op => q.apply op
  | .response i response onError =>
    match q.jobs.lookup i with
    | some ⟨cancelled, .fetching⟩ =>
      match response with
      | .ok => { q with jobs := q.jobs.insert i ⟨cancelled, .reading⟩ }
      | .httpError => (q.caught i .other onError).finish i
      | .networkError => (q.caught i .other onError).finish i
      | .aborted => if cancelled then (q.caught i .abortError onError).finish i else q
    | _ => q
  | .body i body onBlob onError =>
    match q.jobs.lookup i with
    | some ⟨cancelled, .reading⟩ =>
      match body with
      | .blob => (q.deliver i onBlob onError).finish i
      | .failed => (q.caught i .other onError).finish i
      | .aborted => if cancelled then (q.caught i .abortError onError).finish i else q
    | _ => q

/-- The callbacks a request got. -/
def answers (q : Queue) (i : Nat) : Nat := q.told.countP fun t => t.job = i

/-- Slots, counts, starts and callbacks. -/
structure Balanced (q : Queue) : Prop where
  active : q.active = groupCount q.jobs (fun _ job => job.place) .inFlight
  pendingCount : q.logicalPendingCount = groupCount q.jobs (fun _ job => job.place) .waiting
  once : (q.started.map Start.job).Nodup
  /-- A fetch starts while a slot is free, and for the newest request that waits. -/
  started : ∀ s ∈ q.started, s.active < s.cap ∧ s.job ∈ s.waiting ∧ ∀ k ∈ s.waiting, k ≤ s.job
  silent : ∀ t ∈ q.told, t.cancelled = false
  idle : q.active < q.maxConcurrent → q.waiting = []

/-- A request gets no callback before its fetch has settled and one at most; unless it is cancelled it
gets one. -/
structure Answered (q : Queue) (i : Nat) : Prop where
  most : q.answers i ≤ 1
  early : (∀ job, q.jobs.lookup i = some job → job.flight ≠ .finished) → q.answers i = 0
  settled : ∀ job, q.jobs.lookup i = some job → job.flight = .finished → job.cancelled = false →
    q.answers i = 1

def OneAnswer (q : Queue) : Prop := ∀ i, q.Answered i

/-- `onBlob` throws an error of its own at a request it has not cancelled. -/
def ThrowsAt (i : Nat) (onBlob : Reaction) : Prop :=
  onBlob.throws = some .other ∧ .cancel i ∉ onBlob.ops

instance (i : Nat) (onBlob : Reaction) : Decidable (ThrowsAt i onBlob) :=
  inferInstanceAs (Decidable (_ ∧ _))

/-- No `onBlob` throws at its request. -/
def Clean (q : Queue) : Event → Prop
  | .body i .blob onBlob _ => q.jobs.lookup i = some ⟨false, .reading⟩ → ¬ThrowsAt i onBlob
  | _ => True

variable {q q' q'' : Queue} {i : Nat} {job job' : Job}

theorem lookup_insert_cases {jobs : Table Nat Job} {k : Nat}
    (h : (jobs.insert i job).lookup k = some job') :
    k = i ∧ job' = job ∨ k ≠ i ∧ jobs.lookup k = some job' := by
  by_cases hk : k = i
  · rw [hk, AList.lookup_insert] at h
    exact .inl ⟨hk, (Option.some.inj h).symm⟩
  · rw [AList.lookup_insert_ne hk] at h
    exact .inr ⟨hk, h⟩

theorem mem_waiting : i ∈ q.waiting ↔
    ∃ job, q.jobs.lookup i = some job ∧ job.place = some .waiting := by
  unfold waiting
  rw [List.mem_map]
  constructor
  · intro ⟨e, he, hi⟩
    obtain ⟨hmem, hplace⟩ := List.mem_filter.1 he
    subst hi
    exact ⟨e.2, Table.mem_entries.1 hmem, of_decide_eq_true hplace⟩
  · intro ⟨job, hl, hplace⟩
    exact ⟨⟨i, job⟩, List.mem_filter.2 ⟨Table.mem_entries.2 hl, decide_eq_true hplace⟩, rfl⟩

theorem place_waiting : job.place = some .waiting ↔ job.flight = .queued ∧ job.cancelled = false := by
  obtain ⟨cancelled, flight⟩ := job
  cases flight <;> cases cancelled <;> simp [Job.place]

theorem counts_replace {jobs : Table Nat Job} (hi : jobs.lookup i = some job) (job' : Job)
    (p : Place) :
    groupCount (jobs.insert i job') (fun _ job => job.place) p + job.counts p =
      groupCount jobs (fun _ job => job.place) p + job'.counts p :=
  groupCount_replace hi job' p

@[simp] theorem counts_queued (c : Bool) (p : Place) :
    (Job.mk c .queued).counts p = if c = false ∧ p = .waiting then 1 else 0 := by
  cases c <;> cases p <;> rfl

@[simp] theorem counts_fetching (c : Bool) (p : Place) :
    (Job.mk c .fetching).counts p = if p = .inFlight then 1 else 0 := by
  cases p <;> rfl

@[simp] theorem counts_reading (c : Bool) (p : Place) :
    (Job.mk c .reading).counts p = if p = .inFlight then 1 else 0 := by
  cases p <;> rfl

@[simp] theorem counts_over (c : Bool) (p : Place) : (Job.mk c .finished).counts p = 0 := rfl

/-! ## What every operation keeps -/

/-- The stack holds every request that waits, and phantoms, newest first. -/
structure Sound (q : Queue) : Prop where
  fresh : ∀ i job, q.jobs.lookup i = some job → i < q.nextId
  ordered : q.pending.Pairwise (· > ·)
  pending : ∀ i ∈ q.pending, ∃ job, q.jobs.lookup i = some job ∧ job.flight = .queued
  queued : ∀ i job, q.jobs.lookup i = some job → job.place = some .waiting → i ∈ q.pending
  active : q.active = groupCount q.jobs (fun _ job => job.place) .inFlight
  pendingCount : q.logicalPendingCount = groupCount q.jobs (fun _ job => job.place) .waiting
  launched : ∀ s ∈ q.started, ∃ job, q.jobs.lookup s.job = some job ∧ job.flight ≠ .queued
  once : (q.started.map Start.job).Nodup
  started : ∀ s ∈ q.started, s.active < s.cap ∧ s.job ∈ s.waiting ∧ ∀ k ∈ s.waiting, k ≤ s.job
  silent : ∀ t ∈ q.told, t.cancelled = false

/-- No request waits while a slot is free. -/
def Idle (q : Queue) : Prop := q.active < q.maxConcurrent → q.pending = []

/-- One request changes, and at most leaves the stack. -/
theorem Sound.replace (h : Sound q) {pending : List Nat} {active count : Int}
    (hi : q.jobs.lookup i = some job) (hsub : pending.Sublist q.pending)
    (hother : ∀ k, k ≠ i → k ∈ q.pending → k ∈ pending)
    (hqueued : i ∈ pending → job'.flight = .queued)
    (hwaits : job'.place = some .waiting → i ∈ pending)
    (hflight : job.flight ≠ .queued → job'.flight ≠ .queued)
    (hactive : active + job.counts .inFlight = q.active + job'.counts .inFlight)
    (hcount : count + job.counts .waiting = q.logicalPendingCount + job'.counts .waiting) :
    Sound
      { q with
        pending := pending
        active := active
        logicalPendingCount := count
        jobs := q.jobs.insert i job' } where
  fresh k job'' hk := by
    rcases lookup_insert_cases hk with ⟨rfl, _⟩ | ⟨_, hk⟩
    · exact h.fresh k job hi
    · exact h.fresh k job'' hk
  ordered := h.ordered.sublist hsub
  pending k hk := by
    by_cases hki : k = i
    · subst hki
      exact ⟨job', AList.lookup_insert _, hqueued hk⟩
    · obtain ⟨job'', hl, hf⟩ := h.pending k (hsub.subset hk)
      exact ⟨job'', (AList.lookup_insert_ne hki).trans hl, hf⟩
  queued k job'' hk hplace := by
    rcases lookup_insert_cases hk with ⟨rfl, rfl⟩ | ⟨hki, hk⟩
    · exact hwaits hplace
    · exact hother k hki (h.queued k job'' hk hplace)
  active := by
    have hmove := counts_replace hi job' .inFlight
    have hold := h.active
    dsimp only
    omega
  pendingCount := by
    have hmove := counts_replace hi job' .waiting
    have hold := h.pendingCount
    dsimp only
    omega
  launched s hs := by
    obtain ⟨job'', hl, hf⟩ := h.launched s hs
    by_cases hsi : s.job = i
    · rw [hsi] at hl ⊢
      cases hi.symm.trans hl
      exact ⟨job', AList.lookup_insert _, hflight hf⟩
    · exact ⟨job'', (AList.lookup_insert_ne hsi).trans hl, hf⟩
  once := h.once
  started := h.started
  silent := h.silent

/-- A phantom is popped. -/
theorem Sound.skip (h : Sound q) {rest : List Nat} (hp : q.pending = i :: rest)
    (hi : q.jobs.lookup i = some job) (hc : job.cancelled = true) :
    Sound { q with pending := rest } where
  fresh := h.fresh
  ordered := by
    have := h.ordered
    rw [hp] at this
    exact (List.pairwise_cons.1 this).2
  pending k hk := h.pending k (by rw [hp]; exact List.mem_cons_of_mem _ hk)
  queued k job' hk hplace := by
    have hmem := h.queued k job' hk hplace
    rw [hp] at hmem
    rcases List.mem_cons.1 hmem with rfl | hmem
    · cases hi.symm.trans hk
      rw [(place_waiting.1 hplace).2] at hc
      cases hc
    · exact hmem
  active := h.active
  pendingCount := h.pendingCount
  launched := h.launched
  once := h.once
  started := h.started
  silent := h.silent

/-- The newest request that waits gets a free slot. -/
theorem Sound.launch (h : Sound q) {rest : List Nat} (hp : q.pending = i :: rest)
    (hi : q.jobs.lookup i = some job) (hc : job.cancelled = false)
    (hfree : q.active < q.maxConcurrent) : Sound (q.launch i job rest) := by
  have hqueued : job.flight = .queued := by
    obtain ⟨job', hl, hf⟩ := h.pending i (by rw [hp]; exact List.mem_cons_self)
    cases hi.symm.trans hl
    exact hf
  obtain ⟨cancelled, flight⟩ := job
  obtain rfl : flight = .queued := hqueued
  obtain rfl : cancelled = false := hc
  have hplace : (Job.mk false .queued).place = some .waiting := rfl
  have hordered := h.ordered
  rw [hp] at hordered
  obtain ⟨habove, _⟩ := List.pairwise_cons.1 hordered
  have hmoved : Sound
      { q with
        pending := rest
        active := q.active + 1
        logicalPendingCount := q.logicalPendingCount - 1
        jobs := q.jobs.insert i ⟨false, .fetching⟩ } := by
    refine h.replace hi (hp ▸ List.sublist_cons_self i rest) ?_ ?_ ?_ ?_ ?_ ?_
    · intro k hki hk
      rw [hp] at hk
      exact (List.mem_cons.1 hk).resolve_left hki
    · intro hmem
      exact absurd (habove i hmem) (lt_irrefl i)
    · intro hwaits
      cases hwaits
    · intro hne
      exact absurd rfl hne
    · simp
    · simp
  refine
    { fresh := hmoved.fresh
      ordered := hmoved.ordered
      pending := hmoved.pending
      queued := hmoved.queued
      active := hmoved.active
      pendingCount := hmoved.pendingCount
      launched := ?_
      once := ?_
      started := ?_
      silent := hmoved.silent }
  · intro s hs
    rcases List.mem_append.1 hs with hold | hnew
    · exact hmoved.launched s hold
    · rw [List.mem_singleton.1 hnew]
      exact ⟨_, AList.lookup_insert _, nofun⟩
  · have hnotyet : i ∉ q.started.map Start.job := by
      intro hmem
      obtain ⟨s, hs, hsi⟩ := List.mem_map.1 hmem
      obtain ⟨job', hl, hf⟩ := h.launched s hs
      rw [hsi] at hl
      cases hi.symm.trans hl
      exact hf rfl
    show ((q.started ++ [_]).map Start.job).Nodup
    rw [List.map_append, List.nodup_append]
    refine ⟨h.once, List.nodup_singleton _, ?_⟩
    intro a ha b hb heq
    rw [List.map_singleton, List.mem_singleton] at hb
    have hai : a = i := heq.trans hb
    exact hnotyet (hai ▸ ha)
  · intro s hs
    rcases List.mem_append.1 hs with hold | hnew
    · exact h.started s hold
    · rw [List.mem_singleton.1 hnew]
      refine ⟨hfree, mem_waiting.2 ⟨_, hi, hplace⟩, ?_⟩
      intro k hk
      obtain ⟨job', hl, hw⟩ := mem_waiting.1 hk
      have hmem := h.queued k job' hl hw
      rw [hp] at hmem
      rcases List.mem_cons.1 hmem with rfl | hmem
      · exact le_rfl
      · exact (habove k hmem).le

/-! ## What changes for a request -/

/-- Between callbacks: nothing is told, a request that was started stays where it is, none is settled,
and just those of `cancels` become cancelled. -/
structure Later (cancels : Nat → Bool) (q q' : Queue) : Prop where
  told : q'.told = q.told
  kept : ∀ i job, q.jobs.lookup i = some job → ∃ job', q'.jobs.lookup i = some job' ∧
    job'.cancelled = (job.cancelled || cancels i) ∧
    (job.flight ≠ .queued → job'.flight = job.flight)
  settled : ∀ i job', q'.jobs.lookup i = some job' → job'.flight = .finished →
    ∃ job, q.jobs.lookup i = some job ∧ job.flight = .finished

theorem Later.refl (q : Queue) : Later (fun _ => false) q q where
  told := rfl
  kept _ job hi := ⟨job, hi, (Bool.or_false _).symm, fun _ => rfl⟩
  settled _ job' hi hf := ⟨job', hi, hf⟩

theorem Later.trans {c c' : Nat → Bool} (h : Later c q q') (h' : Later c' q' q'') :
    Later (fun i => c i || c' i) q q'' where
  told := h'.told.trans h.told
  kept i job hi := by
    obtain ⟨job', hi', hc', hf'⟩ := h.kept i job hi
    obtain ⟨job'', hi'', hc'', hf''⟩ := h'.kept i job' hi'
    refine ⟨job'', hi'', by rw [hc'', hc', Bool.or_assoc], fun hne => ?_⟩
    rw [← hf' hne]
    exact hf'' (by rw [hf' hne]; exact hne)
  settled i job'' hi'' hf'' := by
    obtain ⟨job', hi', hf'⟩ := h'.settled i job'' hi'' hf''
    exact h.settled i job' hi' hf'

/-- Neither the stack nor the slots say anything of a request. -/
theorem Later.of_jobs {c : Nat → Bool} (h : Later c q q') {q₁ : Queue} (hjobs : q₁.jobs = q.jobs)
    (htold : q₁.told = q.told) : Later c q₁ q' where
  told := h.told.trans htold.symm
  kept i job hi := h.kept i job (by rw [← hjobs]; exact hi)
  settled i job' hi hf := by
    obtain ⟨job, hl, hover⟩ := h.settled i job' hi hf
    exact ⟨job, by rw [hjobs]; exact hl, hover⟩

theorem later_launch (rest : List Nat) (hi : q.jobs.lookup i = some ⟨false, .queued⟩) :
    Later (fun _ => false) q (q.launch i ⟨false, .queued⟩ rest) where
  told := rfl
  kept k job hk := by
    by_cases hki : k = i
    · subst hki
      cases hi.symm.trans hk
      exact ⟨⟨false, .fetching⟩, AList.lookup_insert _, rfl, fun hne => absurd rfl hne⟩
    · exact ⟨job, (AList.lookup_insert_ne hki).trans hk, (Bool.or_false _).symm, fun _ => rfl⟩
  settled k job' hk hf := by
    rcases lookup_insert_cases hk with ⟨_, rfl⟩ | ⟨_, hk⟩
    · cases hf
    · exact ⟨job', hk, hf⟩

/-- The loop runs until the slots or the requests are used up. -/
theorem pumpLoop_spec (l : List Nat) (h : Sound q) (hp : q.pending = l) :
    Sound (q.pumpLoop l) ∧ Idle (q.pumpLoop l) ∧ Later (fun _ => false) q (q.pumpLoop l) := by
  induction l generalizing q with
  | nil => exact ⟨h, fun _ => hp, .refl q⟩
  | cons i rest ih =>
    unfold pumpLoop
    by_cases hfree : q.active < q.maxConcurrent
    · rw [if_pos hfree]
      obtain ⟨job, hi, hqueued⟩ := h.pending i (by rw [hp]; exact List.mem_cons_self)
      obtain ⟨cancelled, flight⟩ := job
      obtain rfl : flight = .queued := hqueued
      rw [hi]
      cases cancelled with
      | true =>
        obtain ⟨hsound, hidle, hlater⟩ := ih (h.skip hp hi rfl) rfl
        exact ⟨hsound, hidle, hlater.of_jobs rfl rfl⟩
      | false =>
        obtain ⟨hsound, hidle, hlater⟩ := ih (h.launch hp hi rfl hfree) rfl
        exact ⟨hsound, hidle, (later_launch rest hi).trans hlater⟩
    · rw [if_neg hfree]
      exact ⟨h, fun hlt => absurd hlt hfree, .refl q⟩

theorem pump_spec (h : Sound q) :
    Sound q.pump ∧ Idle q.pump ∧ Later (fun _ => false) q q.pump :=
  pumpLoop_spec q.pending h rfl

theorem Sound.push (h : Sound q) :
    Sound
      { q with
        jobs := q.jobs.insert q.nextId ⟨false, .queued⟩
        nextId := q.nextId + 1
        pending := q.nextId :: q.pending
        logicalPendingCount := q.logicalPendingCount + 1 } := by
  have hnew : q.jobs.lookup q.nextId = none := by
    cases hl : q.jobs.lookup q.nextId with
    | none => rfl
    | some job => exact absurd (h.fresh _ job hl) (lt_irrefl _)
  have hne : ∀ {k job}, q.jobs.lookup k = some job → k ≠ q.nextId :=
    fun hk => (h.fresh _ _ hk).ne
  have hcounts : ∀ p, groupCount (q.jobs.insert q.nextId ⟨false, .queued⟩)
      (fun _ job => job.place) p =
        groupCount q.jobs (fun _ job => job.place) p + (Job.mk false .queued).counts p :=
    groupCount_insert_of_none hnew _
  refine
    { fresh := ?_
      ordered := ?_
      pending := ?_
      queued := ?_
      active := ?_
      pendingCount := ?_
      launched := ?_
      once := h.once
      started := h.started
      silent := h.silent }
  · intro k job hk
    show k < q.nextId + 1
    rcases lookup_insert_cases hk with ⟨rfl, _⟩ | ⟨_, hk⟩
    · omega
    · have := h.fresh k job hk
      omega
  · refine List.pairwise_cons.2 ⟨?_, h.ordered⟩
    intro k hk
    obtain ⟨job, hl, _⟩ := h.pending k hk
    exact h.fresh k job hl
  · intro k hk
    rcases List.mem_cons.1 hk with rfl | hk
    · exact ⟨_, AList.lookup_insert _, rfl⟩
    · obtain ⟨job, hl, hf⟩ := h.pending k hk
      exact ⟨job, (AList.lookup_insert_ne (hne hl)).trans hl, hf⟩
  · intro k job hk hplace
    rcases lookup_insert_cases hk with ⟨rfl, _⟩ | ⟨_, hk⟩
    · exact List.mem_cons_self
    · exact List.mem_cons_of_mem _ (h.queued k job hk hplace)
  · have hmove := hcounts .inFlight
    have hold := h.active
    simp only [counts_queued, reduceCtorEq, and_false, if_false] at hmove
    dsimp only
    omega
  · have hmove := hcounts .waiting
    have hold := h.pendingCount
    simp only [counts_queued, and_self, if_true] at hmove
    dsimp only
    omega
  · intro s hs
    obtain ⟨job, hl, hf⟩ := h.launched s hs
    exact ⟨job, (AList.lookup_insert_ne (hne hl)).trans hl, hf⟩

theorem cancel_spec (h : Sound q) (hidle : Idle q) (i : Nat) :
    Sound (q.cancel i) ∧ Idle (q.cancel i) ∧ Later (fun k => decide (k = i)) q (q.cancel i) := by
  have hother : ∀ {k : Nat}, k ≠ i → decide (k = i) = false := decide_eq_false
  unfold cancel
  cases hi : q.jobs.lookup i with
  | none =>
    refine ⟨h, hidle, rfl, ?_, fun _ job' hk hf => ⟨job', hk, hf⟩⟩
    intro k job hk
    have hki : k ≠ i := by
      rintro rfl
      cases hi.symm.trans hk
    exact ⟨job, hk, by rw [hother hki, Bool.or_false], fun _ => rfl⟩
  | some job =>
    obtain ⟨cancelled, flight⟩ := job
    cases cancelled with
    | true =>
      refine ⟨h, hidle, rfl, ?_, fun _ job' hk hf => ⟨job', hk, hf⟩⟩
      intro k job hk
      refine ⟨job, hk, ?_, fun _ => rfl⟩
      by_cases hki : k = i
      · subst hki
        cases hi.symm.trans hk
        rfl
      · rw [hother hki, Bool.or_false]
    | false =>
      have hlater : ∀ count, Later (fun k => decide (k = i)) q
          { q with
            jobs := q.jobs.insert i ⟨true, flight⟩
            logicalPendingCount := count } := by
        intro count
        refine ⟨rfl, ?_, ?_⟩
        · intro k job hk
          by_cases hki : k = i
          · subst hki
            cases hi.symm.trans hk
            exact ⟨⟨true, flight⟩, AList.lookup_insert _, by simp, fun _ => rfl⟩
          · refine ⟨job, (AList.lookup_insert_ne hki).trans hk, ?_, fun _ => rfl⟩
            rw [hother hki, Bool.or_false]
        · intro k job' hk hf
          rcases lookup_insert_cases hk with ⟨rfl, rfl⟩ | ⟨_, hk⟩
          · exact ⟨_, hi, hf⟩
          · exact ⟨job', hk, hf⟩
      have hsound : ∀ count : Int,
          count + (Job.mk false flight).counts .waiting =
            q.logicalPendingCount + (Job.mk true flight).counts .waiting →
          Sound
            { q with
              jobs := q.jobs.insert i ⟨true, flight⟩
              logicalPendingCount := count } := by
        intro count hcount
        refine h.replace hi (List.Sublist.refl _) (fun _ _ hk => hk) ?_ ?_ id ?_ hcount
        · intro hmem
          obtain ⟨job, hl, hf⟩ := h.pending i hmem
          cases hi.symm.trans hl
          exact hf
        · intro hwaits
          cases (place_waiting.1 hwaits).2
        · cases flight <;> rfl
      cases flight with
      | queued => exact ⟨hsound _ (by simp), hidle, hlater _⟩
      | fetching => exact ⟨hsound _ rfl, hidle, hlater _⟩
      | reading => exact ⟨hsound _ rfl, hidle, hlater _⟩
      | finished => exact ⟨hsound _ rfl, hidle, hlater _⟩

theorem apply_spec (h : Sound q) (hidle : Idle q) (op : Op) :
    Sound (q.apply op) ∧ Idle (q.apply op) ∧
      Later (fun k => decide (op = .cancel k)) q (q.apply op) := by
  cases op with
  | cancel i =>
    have hsame : (fun k => decide (Op.cancel i = .cancel k)) = fun k => decide (k = i) := by
      funext k
      simp [eq_comm]
    rw [hsame]
    exact cancel_spec h hidle i
  | request =>
    have hnone : (fun k => decide (Op.request = .cancel k)) = fun _ => false := by
      funext k
      simp
    obtain ⟨hsound, hidle', hlater⟩ := pump_spec h.push
    rw [hnone]
    refine ⟨hsound, hidle', ?_⟩
    refine ⟨hlater.told, ?_, ?_⟩
    · intro k job hk
      exact hlater.kept k job ((AList.lookup_insert_ne (h.fresh k job hk).ne).trans hk)
    · intro k job' hk hf
      obtain ⟨job, hl, hover⟩ := hlater.settled k job' hk hf
      rcases lookup_insert_cases hl with ⟨_, rfl⟩ | ⟨_, hl⟩
      · cases hover
      · exact ⟨job, hl, hover⟩
  | setMaxConcurrent n =>
    have hnone : (fun k => decide (Op.setMaxConcurrent n = .cancel k)) = fun _ => false := by
      funext k
      simp
    have hcap : Sound { q with maxConcurrent := n } :=
      ⟨h.fresh, h.ordered, h.pending, h.queued, h.active, h.pendingCount, h.launched, h.once,
        h.started, h.silent⟩
    obtain ⟨hsound, hidle', hlater⟩ := pump_spec hcap
    rw [hnone]
    exact ⟨hsound, hidle', hlater.of_jobs rfl rfl⟩

theorem ops_spec (ops : List Op) (h : Sound q) (hidle : Idle q) :
    Sound (ops.foldl apply q) ∧ Idle (ops.foldl apply q) ∧
      Later (fun k => decide (.cancel k ∈ ops)) q (ops.foldl apply q) := by
  induction ops generalizing q with
  | nil =>
    have hnone : (fun k => decide (Op.cancel k ∈ [])) = fun _ => false := by
      funext k
      simp
    rw [hnone]
    exact ⟨h, hidle, .refl q⟩
  | cons op ops ih =>
    obtain ⟨hsound, hidle', hlater⟩ := apply_spec h hidle op
    obtain ⟨hsound', hidle'', hlater'⟩ := ih hsound hidle'
    have hsplit : (fun k => decide (Op.cancel k ∈ op :: ops)) =
        fun k => decide (op = .cancel k) || decide (.cancel k ∈ ops) := by
      funext k
      simp [eq_comm]
    rw [hsplit]
    exact ⟨hsound', hidle'', hlater.trans hlater'⟩

/-! ## Callbacks -/

theorem Answered.later {c : Nat → Bool} (h : q.Answered i) (hl : Later c q q') : q'.Answered i := by
  have hcount : q'.answers i = q.answers i := by rw [answers, answers, hl.told]
  refine ⟨by rw [hcount]; exact h.most, ?_, ?_⟩
  · intro hnone
    rw [hcount]
    refine h.early ?_
    intro job hi hover
    obtain ⟨job', hi', _, hf⟩ := hl.kept i job hi
    refine hnone job' hi' ?_
    rw [hf (by rw [hover]; nofun), hover]
  · intro job' hi' hover' hlive
    obtain ⟨job, hi, hover⟩ := hl.settled i job' hi' hover'
    obtain ⟨job'', hi'', hc, _⟩ := hl.kept i job hi
    cases hi'.symm.trans hi''
    rw [hlive] at hc
    rw [hcount]
    exact h.settled job hi hover (Bool.or_eq_false_iff.1 hc.symm).1

theorem Answered.congr (h : q.Answered i) (hjobs : q'.jobs.lookup i = q.jobs.lookup i)
    (hcount : q'.answers i = q.answers i) : q'.Answered i :=
  ⟨by rw [hcount]; exact h.most, by rw [hjobs, hcount]; exact h.early,
    by rw [hjobs, hcount]; exact h.settled⟩

theorem isCancelled_of_lookup (hi : q.jobs.lookup i = some job) : q.isCancelled i = job.cancelled := by
  unfold isCancelled
  rw [hi]

/-- The fetch of a request settles, and its callbacks are about to be called. -/
structure Settling (q : Queue) (i : Nat) (cancelled : Bool) : Prop where
  sound : Sound q
  idle : Idle q
  inFlight : ∃ flight, q.jobs.lookup i = some ⟨cancelled, flight⟩ ∧
    (flight = .fetching ∨ flight = .reading)

/-- It has got so many, and the others what is theirs. -/
def Answering (q : Queue) (i n : Nat) : Prop := q.answers i = n ∧ ∀ k, k ≠ i → q.Answered k

theorem Settling.isCancelled {c : Bool} (h : Settling q i c) : q.isCancelled i = c := by
  obtain ⟨flight, hi, _⟩ := h.inFlight
  exact isCancelled_of_lookup hi

theorem Settling.call (h : Settling q i false) (callback : Callback) (reaction : Reaction) :
    Settling (q.call i callback reaction) i (decide (.cancel i ∈ reaction.ops)) ∧
      ∀ n, Answering q i n → Answering (q.call i callback reaction) i (n + 1) := by
  have hnot := h.isCancelled
  obtain ⟨flight, hi, hflight⟩ := h.inFlight
  unfold Queue.call
  rw [hnot]
  generalize hstart : { q with told := q.told ++ [Told.mk i callback false] } = start
  have hjobs : start.jobs = q.jobs := by rw [← hstart]
  have hsound : Sound start := by
    rw [← hstart]
    refine ⟨h.sound.fresh, h.sound.ordered, h.sound.pending, h.sound.queued, h.sound.active,
      h.sound.pendingCount, h.sound.launched, h.sound.once, h.sound.started, ?_⟩
    intro t ht
    rcases List.mem_append.1 ht with hold | hnew
    · exact h.sound.silent t hold
    · rw [List.mem_singleton.1 hnew]
  have hidle : Idle start := by
    rw [← hstart]
    exact h.idle
  obtain ⟨hsound', hidle', hlater⟩ := ops_spec reaction.ops hsound hidle
  have hcount : ∀ k, start.answers k = q.answers k + if k = i then 1 else 0 := by
    intro k
    rw [← hstart, answers, List.countP_append]
    by_cases hk : k = i
    · simp [answers, hk]
    · simp [answers, hk, Ne.symm hk]
  refine ⟨⟨hsound', hidle', ?_⟩, ?_⟩
  · obtain ⟨job', hi', hc, hf⟩ := hlater.kept i ⟨false, flight⟩ (by rw [hjobs]; exact hi)
    have hne : flight ≠ .queued := by
      rcases hflight with rfl | rfl <;> nofun
    obtain ⟨cancelled, flight'⟩ := job'
    obtain rfl : flight' = flight := hf hne
    rw [Bool.false_or] at hc
    obtain rfl : cancelled = _ := hc
    exact ⟨flight', hi', hflight⟩
  · intro n hn
    refine ⟨?_, fun k hk => ?_⟩
    · rw [answers, hlater.told]
      have := hcount i
      rw [if_pos rfl, hn.1] at this
      exact this
    · refine Answered.later (q := start) ?_ hlater
      refine (hn.2 k hk).congr (by rw [hjobs]) ?_
      rw [hcount, if_neg hk, Nat.add_zero]

theorem Settling.finish {c : Bool} (h : Settling q i c) :
    Sound (q.finish i) ∧ Idle (q.finish i) ∧ ∀ n, Answering q i n →
      (q.finish i).answers i = n ∧ (n ≤ 1 → (c = false → n = 1) → OneAnswer (q.finish i)) := by
  obtain ⟨flight, hi, hflight⟩ := h.inFlight
  unfold Queue.finish
  rw [hi]
  have hnotQueued : flight ≠ .queued := by
    rcases hflight with rfl | rfl <;> nofun
  have hover : Sound
      { q with
        jobs := q.jobs.insert i ⟨c, .finished⟩
        active := q.active - 1 } := by
    refine h.sound.replace hi (List.Sublist.refl _) (fun _ _ hk => hk) ?_ nofun (fun _ => nofun) ?_ ?_
    · intro hmem
      obtain ⟨job, hl, hf⟩ := h.sound.pending i hmem
      cases hi.symm.trans hl
      exact absurd hf hnotQueued
    · rcases hflight with rfl | rfl <;> simp
    · rcases hflight with rfl | rfl <;> simp
  obtain ⟨hsound, hidle, hlater⟩ := pump_spec hover
  refine ⟨hsound, hidle, fun n hn => ⟨?_, fun hmost hsettled k => ?_⟩⟩
  · rw [answers, hlater.told]
    exact hn.1
  · refine Answered.later ?_ hlater
    by_cases hk : k = i
    · subst hk
      have hlookup : (q.jobs.insert k ⟨c, .finished⟩).lookup k = some ⟨c, .finished⟩ := AList.lookup_insert _
      refine ⟨hn.1.trans_le hmost, ?_, ?_⟩
      · intro hnone
        exact absurd rfl (hnone _ hlookup)
      · intro job hl _ hlive
        cases hlookup.symm.trans hl
        exact hn.1.trans (hsettled hlive)
    · exact (hn.2 k hk).congr (AList.lookup_insert_ne hk) rfl

/-- A failure calls `onError`, unless the request is cancelled or the failure an abort. -/
theorem Settling.caught {c : Bool} (h : Settling q i c) (err : Thrown) (onError : Reaction) :
    ∃ c', Settling (q.caught i err onError) i c' ∧ (c = true → c' = true) ∧
      ∀ n, Answering q i n → Answering (q.caught i err onError) i
        (if c = true ∨ err = .abortError then n else n + 1) := by
  unfold Queue.caught
  rw [h.isCancelled]
  by_cases hskip : c = true ∨ err = .abortError
  · simp only [if_pos hskip]
    exact ⟨c, h, id, fun _ hn => hn⟩
  · simp only [if_neg hskip]
    obtain ⟨hlive, _⟩ := not_or.1 hskip
    obtain rfl : c = false := Bool.eq_false_of_not_eq_true hlive
    obtain ⟨hsettling, hanswering⟩ := h.call .onError onError
    exact ⟨_, hsettling, nofun, hanswering⟩

/-- A body is delivered once, and once more if that throws. -/
theorem Settling.deliver {c : Bool} (h : Settling q i c) (onBlob onError : Reaction) :
    ∃ c', Settling (q.deliver i onBlob onError) i c' ∧ (c = true → c' = true) ∧
      ∀ n, Answering q i n → Answering (q.deliver i onBlob onError) i
        (n + if c = true then 0 else if ThrowsAt i onBlob then 2 else 1) := by
  unfold Queue.deliver
  rw [h.isCancelled]
  cases c with
  | true => exact ⟨true, h, id, fun _ hn => hn⟩
  | false =>
    obtain ⟨hcalled, hanswering⟩ := h.call .onBlob onBlob
    simp only [Bool.false_eq_true, if_false]
    cases hthrows : onBlob.throws with
    | none =>
      have hnot : ¬ThrowsAt i onBlob := fun ht => by cases hthrows.symm.trans ht.1
      rw [if_neg hnot]
      exact ⟨_, hcalled, nofun, hanswering⟩
    | some err =>
      obtain ⟨c', hsettling, _, hcaught⟩ := hcalled.caught err onError
      refine ⟨c', hsettling, nofun, fun n hn => ?_⟩
      have htotal := hcaught (n + 1) (hanswering n hn)
      by_cases ht : ThrowsAt i onBlob
      · have hskip : ¬(decide (Op.cancel i ∈ onBlob.ops) = true ∨ err = .abortError) := by
          cases hthrows.symm.trans ht.1
          simp [ht.2]
        rw [if_neg hskip] at htotal
        rw [if_pos ht]
        exact htotal
      · have hskip : decide (Op.cancel i ∈ onBlob.ops) = true ∨ err = .abortError := by
          cases err with
          | abortError => exact .inr rfl
          | other =>
            left
            rw [decide_eq_true_iff]
            by_contra hno
            exact ht ⟨hthrows, hno⟩
        rw [if_pos hskip] at htotal
        rw [if_neg ht]
        exact htotal

/-! ## Events -/

theorem OneAnswer.answering {c : Bool} (h : q.OneAnswer) (hs : Settling q i c) :
    Answering q i 0 := by
  obtain ⟨flight, hi, hflight⟩ := hs.inFlight
  refine ⟨(h i).early ?_, fun k _ => h k⟩
  intro job hl hover
  cases hi.symm.trans hl
  obtain rfl : flight = .finished := hover
  rcases hflight with hf | hf <;> cases hf

theorem Settling.failure {c : Bool} (h : Settling q i c) {err : Thrown} (onError : Reaction)
    (habort : err = .abortError → c = true) :
    Sound ((q.caught i err onError).finish i) ∧ Idle ((q.caught i err onError).finish i) ∧
      (q.OneAnswer → ((q.caught i err onError).finish i).OneAnswer) := by
  obtain ⟨c', hsettling, hc, hanswering⟩ := h.caught err onError
  obtain ⟨hsound, hidle, hfinish⟩ := hsettling.finish
  refine ⟨hsound, hidle, fun hone => ?_⟩
  refine (hfinish _ (hanswering 0 (hone.answering h))).2 ?_ ?_
  · split <;> omega
  · intro hlive
    rw [if_neg]
    rintro (htrue | herr)
    · rw [hc htrue] at hlive
      cases hlive
    · rw [hc (habort herr)] at hlive
      cases hlive

/-- A body that is delivered answers its request once, unless that throws. -/
theorem Settling.delivered {c : Bool} (h : Settling q i c) (onBlob onError : Reaction) :
    Sound ((q.deliver i onBlob onError).finish i) ∧ Idle ((q.deliver i onBlob onError).finish i) ∧
      (q.OneAnswer → (((q.deliver i onBlob onError).finish i).OneAnswer ↔
        (c = false → ¬ThrowsAt i onBlob))) := by
  obtain ⟨c', hsettling, hc, hanswering⟩ := h.deliver onBlob onError
  obtain ⟨hsound, hidle, hfinish⟩ := hsettling.finish
  refine ⟨hsound, hidle, fun hone => ?_⟩
  obtain ⟨hcount, hdone⟩ := hfinish _ (hanswering 0 (hone.answering h))
  cases c with
  | true =>
    refine iff_of_true (hdone (by simp) ?_) nofun
    intro hlive
    rw [hc rfl] at hlive
    cases hlive
  | false =>
    by_cases ht : ThrowsAt i onBlob
    · refine iff_of_false ?_ (fun hno => hno rfl ht)
      intro hall
      have hmost := (hall i).most
      rw [hcount] at hmost
      simp [ht] at hmost
    · exact iff_of_true (hdone (by simp [ht]) (by simp [ht])) fun _ => ht

theorem step_spec (h : Sound q) (hidle : Idle q) (e : Event) :
    Sound (q.step e) ∧ Idle (q.step e) ∧
      (q.OneAnswer → ((q.step e).OneAnswer ↔ q.Clean e)) := by
  have hstay : Sound q ∧ Idle q ∧ (q.OneAnswer → (q.OneAnswer ↔ True)) :=
    ⟨h, hidle, fun hone => iff_of_true hone trivial⟩
  cases e with
  | op op =>
    obtain ⟨hsound, hidle', hlater⟩ := apply_spec h hidle op
    exact ⟨hsound, hidle', fun hone => iff_of_true (fun k => (hone k).later hlater) trivial⟩
  | response i response onError =>
    simp only [step]
    split
    · rename_i cancelled hi
      have hs : Settling q i cancelled := ⟨h, hidle, .fetching, hi, .inl rfl⟩
      have hfail : ∀ err : Thrown, (err = .abortError → cancelled = true) →
          Sound ((q.caught i err onError).finish i) ∧ Idle ((q.caught i err onError).finish i) ∧
            (q.OneAnswer → (((q.caught i err onError).finish i).OneAnswer ↔ True)) := by
        intro err habort
        obtain ⟨hsound, hidle', hone'⟩ := hs.failure onError habort
        exact ⟨hsound, hidle', fun hone => iff_of_true (hone' hone) trivial⟩
      cases response with
      | ok =>
        refine ⟨?_, hidle, fun hone => iff_of_true (fun k => ?_) trivial⟩
        · refine h.replace hi (List.Sublist.refl _) (fun _ _ hk => hk) ?_ nofun (fun _ => nofun) rfl rfl
          intro hmem
          obtain ⟨job, hl, hf⟩ := h.pending i hmem
          cases hi.symm.trans hl
          cases hf
        · by_cases hk : k = i
          · subst hk
            have hzero := (hone.answering hs).1
            have hlookup : (q.jobs.insert k ⟨cancelled, .reading⟩).lookup k =
                some ⟨cancelled, .reading⟩ := AList.lookup_insert _
            refine ⟨hzero.trans_le (Nat.zero_le 1), fun _ => hzero, ?_⟩
            intro job hl hover
            cases hlookup.symm.trans hl
            cases hover
          · exact (hone k).congr (AList.lookup_insert_ne hk) rfl
      | httpError => exact hfail .other nofun
      | networkError => exact hfail .other nofun
      | aborted =>
        cases cancelled with
        | true => exact hfail .abortError fun _ => rfl
        | false => exact hstay
    · exact hstay
  | body i body onBlob onError =>
    have hclean : body ≠ .blob → (q.Clean (.body i body onBlob onError) ↔ True) := by
      intro hne
      cases body with
      | blob => exact absurd rfl hne
      | failed => exact Iff.rfl
      | aborted => exact Iff.rfl
    simp only [step]
    split
    · rename_i cancelled hi
      have hs : Settling q i cancelled := ⟨h, hidle, .reading, hi, .inr rfl⟩
      have hfail : ∀ err : Thrown, (err = .abortError → cancelled = true) →
          Sound ((q.caught i err onError).finish i) ∧ Idle ((q.caught i err onError).finish i) ∧
            (q.OneAnswer → (((q.caught i err onError).finish i).OneAnswer ↔ True)) := by
        intro err habort
        obtain ⟨hsound, hidle', hone'⟩ := hs.failure onError habort
        exact ⟨hsound, hidle', fun hone => iff_of_true (hone' hone) trivial⟩
      cases body with
      | blob =>
        obtain ⟨hsound, hidle', hiff⟩ := hs.delivered onBlob onError
        refine ⟨hsound, hidle', fun hone => (hiff hone).trans ?_⟩
        constructor
        · intro hno hl
          cases hi.symm.trans hl
          exact hno rfl
        · rintro hno rfl
          exact hno hi
      | failed => exact hfail .other nofun
      | aborted =>
        cases cancelled with
        | true => exact hfail .abortError fun _ => rfl
        | false => exact hstay
    · rename_i hnot
      refine ⟨h, hidle, fun hone => iff_of_true hone ?_⟩
      cases body with
      | blob =>
        intro hl
        exact absurd hl (hnot false)
      | failed => trivial
      | aborted => trivial

theorem Sound.new (cap : Int) : Sound (new cap) := by
  constructor <;> simp [Queue.new, groupCount]

theorem Sound.balanced (h : Sound q) (hidle : Idle q) : q.Balanced where
  active := h.active
  pendingCount := h.pendingCount
  once := h.once
  started := h.started
  silent := h.silent
  idle hfree := by
    rw [List.eq_nil_iff_forall_not_mem]
    intro i hi
    obtain ⟨job, hl, hplace⟩ := mem_waiting.1 hi
    have hmem := h.queued i job hl hplace
    rw [hidle hfree] at hmem
    cases hmem

/-- **In every run, however requests, cancellations, caps, settled fetches and callbacks come to
interleave: the slots in use are the fetches that run, the count of pending requests is that of the
ones that wait, a request is started once at most, while a slot is free and as the newest that waits,
a cancelled request gets no callback, and none waits while a slot is free. Every request gets one
callback at most and, unless it is cancelled, one once its fetch has settled, in every state of just
those runs in which no `onBlob` throws at its request.** -/
theorem thumbFetch_answers (cap : Int) (events : List Event) :
    (Lib.run step (new cap) events).Balanced ∧
      ((∀ pre, pre <+: events → (Lib.run step (new cap) pre).OneAnswer) ↔
        AllSteps step Clean (new cap) events) := by
  have hstart : Sound (new cap) ∧ Idle (new cap) := ⟨.new cap, fun _ => rfl⟩
  have hstep : ∀ q e, (Sound q ∧ Idle q) → Sound (q.step e) ∧ Idle (q.step e) := by
    intro q e h
    obtain ⟨hsound, hidle, _⟩ := step_spec h.1 h.2 e
    exact ⟨hsound, hidle⟩
  obtain ⟨hsound, hidle⟩ :=
    @run_invariant _ _ step (fun q => Sound q ∧ Idle q) (new cap) events hstart hstep
  refine ⟨hsound.balanced hidle, ?_⟩
  have hnone : (new cap).OneAnswer := by
    intro i
    refine ⟨Nat.zero_le 1, fun _ => rfl, ?_⟩
    intro job hl
    cases hl
  exact @allSteps_iff _ _ step Clean OneAnswer (fun q => Sound q ∧ Idle q) (new cap) events hstart
    hnone hstep fun q e hgood hone => (step_spec hgood.1 hgood.2 e).2.2 hone

/-- The image is delivered and `onBlob` throws, so the request is told of an error too. -/
def throwing : List Event :=
  [.op .request, .response 0 .ok ⟨[], none⟩, .body 0 .blob ⟨[], some .other⟩ ⟨[], none⟩]

theorem thumbFetch_throwing :
    (Lib.run step (new 4) throwing).jobs.lookup 0 = some ⟨false, .finished⟩ ∧
      (Lib.run step (new 4) throwing).told = [⟨0, .onBlob, false⟩, ⟨0, .onError, false⟩] ∧
      ¬∀ events, (Lib.run step (new 4) events).OneAnswer := by
  refine ⟨by decide, by decide, ?_⟩
  intro h
  exact absurd (h throwing 0).most (by decide)

end Queue

end ThumbFetch
end Ui
end Naiad
