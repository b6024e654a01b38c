import Naiad.Lib.Interleave
import Naiad.Lib.Tally

/-!
# Naiad.Daemon.ThumbQueue

The permit queue of thumbnail generation. A call that finds no free permit parks on a stack and gets
one through a channel of its own; a permit that is dropped goes to the newest waiter whose channel
is still open. Every section under the waiters lock and every try of the semaphore is one step, and
the steps of any number of calls interleave with cancellations.

* `step`: the steps of a call.
* `Balanced`: the permits that are held, in flight and free.
* `lifo_permits`: **no permit is lost, none is free while a call waits for one, and a released one
  goes to the newest live waiter**.
-/

namespace Naiad
namespace Daemon
namespace ThumbQueue

open Lib

/-- Where a call of `acquire` is. -/
inductive Call
  /-- Its first try found no permit. -/
  | missed
  | parked
  /-- A permit is in its channel. -/
  | sent
  | holding
  /-- Its future was dropped with the permit in the channel; the permit is being dropped too. -/
  | returning
  | gone
deriving DecidableEq

inductive Action
  | tryAcquire
  /-- The section under the lock: try again, or park. -/
  | park
  | receive
  | cancel
  /-- The permit is dropped. -/
  | release
deriving DecidableEq

structure LifoPermits (ι : Type) where
  free : Nat
  /-- Newest first. -/
  waiters : List ι
  calls : Table ι Call

namespace LifoPermits

variable {ι : Type}

def new (permits : Nat) : LifoPermits ι := ⟨permits, [], ∅⟩

variable [DecidableEq ι]

/-- Pop waiters until one takes the permit; a send to a dropped receiver gives it back. -/
def handOff (calls : Table ι Call) : List ι → List ι × Option ι
  | [] => ([], none)
  | i :: waiters =>
    if calls.lookup i = some .parked then (waiters, some i) else handOff calls waiters

def step (s : LifoPermits ι) (l : ι × Action) : Option (LifoPermits ι) :=
  match l.2, s.calls.lookup l.1 with
  | .tryAcquire, none =>
    if 0 < s.free then some { s with free := s.free - 1, calls := s.calls.insert l.1 .holding }
    else some { s with calls := s.calls.insert l.1 .missed }
  | .park, some .missed =>
    if 0 < s.free then some { s with free := s.free - 1, calls := s.calls.insert l.1 .holding }
    else some { s with waiters := l.1 :: s.waiters, calls := s.calls.insert l.1 .parked }
  | .receive, some .sent => some { s with calls := s.calls.insert l.1 .holding }
  | .cancel, some .parked => some { s with calls := s.calls.insert l.1 .gone }
  | .cancel, some .sent => some { s with calls := s.calls.insert l.1 .returning }
  | .release, some .holding => some (release s l.1)
  | .release, some .returning => some (release s l.1)
  | _, _ => none
where
  release (s : LifoPermits ι) (i : ι) : LifoPermits ι :=
    let calls := s.calls.insert i .gone
    match handOff calls s.waiters with
    | (waiters, none) => ⟨s.free + 1, waiters, calls⟩
    | (waiters, some w) => ⟨s.free, waiters, calls.insert w .sent⟩

end LifoPermits

/-- Where a permit is. -/
inductive Place
  | held
  | inFlight
deriving DecidableEq

def Call.place : Call → Option Place
  | .holding => some .held
  | .returning => some .held
  | .sent => some .inFlight
  | _ => none

namespace LifoPermits

variable {ι : Type} [DecidableEq ι]

/-- The number of calls whose permit is in a place. -/
def permits (s : LifoPermits ι) (p : Place) : Nat := groupCount s.calls (fun _ c => c.place) p

variable {s s' : LifoPermits ι} {l : ι × Action}

/-- What the newest live waiter is, when there is one. -/
theorem handOff_cases (calls : Table ι Call) (waiters : List ι) :
    (handOff calls waiters = ([], none) ∧ ∀ i ∈ waiters, calls.lookup i ≠ some .parked) ∨
      ∃ dead w rest, waiters = dead ++ w :: rest ∧ handOff calls waiters = (rest, some w) ∧
        calls.lookup w = some .parked ∧ ∀ i ∈ dead, calls.lookup i ≠ some .parked := by
  induction waiters with
  | nil => exact .inl ⟨rfl, by simp⟩
  | cons i waiters ih =>
    by_cases hi : calls.lookup i = some .parked
    · exact .inr ⟨[], i, waiters, rfl, by simp [handOff, hi], hi, by simp⟩
    · have hskip : handOff calls (i :: waiters) = handOff calls waiters := by simp [handOff, hi]
      rcases ih with ⟨hnone, hdead⟩ | ⟨dead, w, rest, rfl, hsent, hw, hdead⟩
      · refine .inl ⟨hskip.trans hnone, ?_⟩
        intro j hj
        rcases List.mem_cons.1 hj with rfl | hj
        · exact hi
        · exact hdead j hj
      · refine .inr ⟨i :: dead, w, rest, rfl, hskip.trans hsent, hw, ?_⟩
        intro j hj
        rcases List.mem_cons.1 hj with rfl | hj
        · exact hi
        · exact hdead j hj

/-- The call moves from one place to another and leaves the stack alone. -/
structure Moves (s s' : LifoPermits ι) (i : ι) (c : Call) : Prop where
  waiters : s'.waiters = s.waiters
  calls : s'.calls = s.calls.insert i c

/-- Everything a step can do. -/
theorem step_cases (hs : s.step l = some s') :
    (0 < s.free ∧ s'.free + 1 = s.free ∧ Moves s s' l.1 .holding ∧
        (s.calls.lookup l.1 = none ∨ s.calls.lookup l.1 = some .missed)) ∨
      (s'.free = s.free ∧ Moves s s' l.1 .missed ∧ s.calls.lookup l.1 = none) ∨
      (l.2 = .park ∧ s.free = 0 ∧ s.calls.lookup l.1 = some .missed ∧
        s' = ⟨s.free, l.1 :: s.waiters, s.calls.insert l.1 .parked⟩) ∨
      (s'.free = s.free ∧ s.calls.lookup l.1 = some .parked ∧ Moves s s' l.1 .gone) ∨
      (s'.free = s.free ∧ s.calls.lookup l.1 = some .sent ∧
        (Moves s s' l.1 .holding ∨ Moves s s' l.1 .returning)) ∨
      (l.2 = .release ∧ (s.calls.lookup l.1 = some .holding ∨ s.calls.lookup l.1 = some .returning) ∧
        s' = step.release s l.1) := by
  obtain ⟨i, a⟩ := l
  cases a with
  | tryAcquire =>
    cases hc : s.calls.lookup i with
    | none =>
      simp only [step, hc] at hs
      by_cases hfree : 0 < s.free
      · rw [if_pos hfree] at hs
        cases hs
        exact .inl ⟨hfree, Nat.sub_add_cancel hfree, ⟨rfl, rfl⟩, .inl rfl⟩
      · rw [if_neg hfree] at hs
        cases hs
        exact .inr (.inl ⟨rfl, ⟨rfl, rfl⟩, rfl⟩)
    | some c => simp [step, hc] at hs
  | park =>
    cases hc : s.calls.lookup i with
    | none => simp [step, hc] at hs
    | some c =>
      cases c with
      | missed =>
        simp only [step, hc] at hs
        by_cases hfree : 0 < s.free
        · rw [if_pos hfree] at hs
          cases hs
          exact .inl ⟨hfree, Nat.sub_add_cancel hfree, ⟨rfl, rfl⟩, .inr rfl⟩
        · rw [if_neg hfree] at hs
          cases hs
          exact .inr (.inr (.inl ⟨rfl, by omega, rfl, rfl⟩))
      | _ => simp [step, hc] at hs
  | receive =>
    cases hc : s.calls.lookup i with
    | none => simp [step, hc] at hs
    | some c =>
      cases c with
      | sent =>
        simp only [step, hc] at hs
        cases hs
        exact .inr (.inr (.inr (.inr (.inl ⟨rfl, rfl, .inl ⟨rfl, rfl⟩⟩))))
      | _ => simp [step, hc] at hs
  | cancel =>
    cases hc : s.calls.lookup i with
    | none => simp [step, hc] at hs
    | some c =>
      cases c with
      | parked =>
        simp only [step, hc] at hs
        cases hs
        exact .inr (.inr (.inr (.inl ⟨rfl, rfl, ⟨rfl, rfl⟩⟩)))
      | sent =>
        simp only [step, hc] at hs
        cases hs
        exact .inr (.inr (.inr (.inr (.inl ⟨rfl, rfl, .inr ⟨rfl, rfl⟩⟩))))
      | _ => simp [step, hc] at hs
  | release =>
    cases hc : s.calls.lookup i with
    | none => simp [step, hc] at hs
    | some c =>
      cases c with
      | holding =>
        simp only [step, hc] at hs
        cases hs
        exact .inr (.inr (.inr (.inr (.inr ⟨rfl, .inl rfl, rfl⟩))))
      | returning =>
        simp only [step, hc] at hs
        cases hs
        exact .inr (.inr (.inr (.inr (.inr ⟨rfl, .inr rfl, rfl⟩))))
      | _ => simp [step, hc] at hs

/-! ## The stack -/

/-- The stack holds every parked call once, and only calls that are parked or have given up; it is
empty while a permit is free. -/
structure Parking (s : LifoPermits ι) : Prop where
  waiters : ∀ i ∈ s.waiters, s.calls.lookup i = some .parked ∨ s.calls.lookup i = some .gone
  parked : ∀ i, s.calls.lookup i = some .parked → i ∈ s.waiters
  nodup : s.waiters.Nodup
  idle : 0 < s.free → s.waiters = []

theorem parking_new (permits : Nat) : (new permits : LifoPermits ι).Parking := by
  constructor <;> simp [new]

/-- A call that is not on the stack moves elsewhere. -/
theorem Parking.move {i : ι} {c : Call} (h : s.Parking) (hm : Moves s s' i c) (hc : c ≠ .parked)
    (hi : i ∉ s.waiters ∨ c = .gone) (hfree : s'.free ≤ s.free) : s'.Parking := by
  have hlookup : ∀ j, s'.calls.lookup j = if j = i then some c else s.calls.lookup j := by
    intro j
    rw [hm.calls]
    by_cases hj : j = i
    · rw [hj, AList.lookup_insert, if_pos rfl]
    · rw [AList.lookup_insert_ne hj, if_neg hj]
  refine ⟨?_, ?_, ?_, ?_⟩
  · intro j hj
    rw [hm.waiters] at hj
    rw [hlookup]
    by_cases heq : j = i
    · subst heq
      rw [if_pos rfl]
      rcases hi with hout | rfl
      · exact absurd hj hout
      · exact .inr rfl
    · rw [if_neg heq]
      exact h.waiters j hj
  · intro j hj
    rw [hlookup] at hj
    rw [hm.waiters]
    by_cases heq : j = i
    · rw [if_pos heq] at hj
      cases hj
      exact absurd rfl hc
    · rw [if_neg heq] at hj
      exact h.parked j hj
  · rw [hm.waiters]
    exact h.nodup
  · intro hpos
    rw [hm.waiters]
    exact h.idle (by omega)

/-- A call that holds a permit is not on the stack. -/
theorem Parking.not_mem {i : ι} (h : s.Parking) (hp : s.calls.lookup i ≠ some .parked)
    (hg : s.calls.lookup i ≠ some .gone) : i ∉ s.waiters := by
  intro hi
  rcases h.waiters i hi with hc | hc
  · exact hp hc
  · exact hg hc

/-- What a release does: the permit goes to the newest live waiter, or back. -/
theorem release_cases {i : ι} (h : s.Parking) (hi : i ∉ s.waiters) :
    (step.release s i = ⟨s.free + 1, [], s.calls.insert i .gone⟩ ∧
        ∀ j, s.calls.lookup j ≠ some .parked) ∨
      ∃ dead w rest, s.waiters = dead ++ w :: rest ∧ s.calls.lookup w = some .parked ∧
        (∀ j ∈ dead, s.calls.lookup j ≠ some .parked) ∧
        step.release s i = ⟨s.free, rest, (s.calls.insert i .gone).insert w .sent⟩ := by
  have hlookup : ∀ j ∈ s.waiters, (s.calls.insert i .gone).lookup j = s.calls.lookup j := by
    intro j hj
    refine AList.lookup_insert_ne ?_
    rintro rfl
    exact hi hj
  rcases handOff_cases (s.calls.insert i .gone) s.waiters with
    ⟨hnone, hdead⟩ | ⟨dead, w, rest, hsplit, hsent, hw, hdead⟩
  · refine .inl ⟨by simp [step.release, hnone], ?_⟩
    intro j hj
    have hmem := h.parked j hj
    exact hdead j hmem (by rw [hlookup j hmem, hj])
  · refine .inr ⟨dead, w, rest, hsplit, ?_, ?_, by simp [step.release, hsent]⟩
    · rw [← hlookup w (by simp [hsplit])]
      exact hw
    · intro j hj
      rw [← hlookup j (by simp [hsplit, hj])]
      exact hdead j hj

theorem Parking.step (h : s.Parking) (hs : s.step l = some s') : s'.Parking := by
  rcases step_cases hs with ⟨_, hfree, hm, hc⟩ | ⟨hfree, hm, hc⟩ | ⟨_, hzero, hc, rfl⟩ |
    ⟨hfree, _, hm⟩ | ⟨hfree, hc, hm⟩ | ⟨_, hc, rfl⟩
  · refine h.move hm (by simp) (.inl (h.not_mem ?_ ?_)) (by omega)
    · rcases hc with hc | hc <;> simp [hc]
    · rcases hc with hc | hc <;> simp [hc]
  · exact h.move hm (by simp) (.inl (h.not_mem (by simp [hc]) (by simp [hc]))) (by omega)
  · have hout := h.not_mem (by simp [hc] : s.calls.lookup l.1 ≠ some .parked) (by simp [hc])
    refine ⟨?_, ?_, List.nodup_cons.2 ⟨hout, h.nodup⟩, ?_⟩
    · intro j hj
      by_cases heq : j = l.1
      · rw [heq]
        exact .inl (AList.lookup_insert _)
      · rw [AList.lookup_insert_ne heq]
        exact h.waiters j ((List.mem_cons.1 hj).resolve_left heq)
    · intro j hj
      by_cases heq : j = l.1
      · simp [heq]
      · rw [AList.lookup_insert_ne heq] at hj
        exact List.mem_cons_of_mem _ (h.parked j hj)
    · intro hpos
      dsimp only at hpos
      omega
  · exact h.move hm (by simp) (.inr rfl) (by omega)
  · have hout := h.not_mem (by simp [hc] : s.calls.lookup l.1 ≠ some .parked) (by simp [hc])
    rcases hm with hm | hm
    · exact h.move hm (by simp) (.inl hout) (by omega)
    · exact h.move hm (by simp) (.inl hout) (by omega)
  · have hout : l.1 ∉ s.waiters := by
      refine h.not_mem ?_ ?_
      · rcases hc with hc | hc <;> simp [hc]
      · rcases hc with hc | hc <;> simp [hc]
    rcases release_cases h hout with ⟨heq, hnone⟩ | ⟨dead, w, rest, hsplit, hw, hdead, heq⟩
    · rw [heq]
      refine ⟨by simp, ?_, List.nodup_nil, fun _ => rfl⟩
      intro j hj
      by_cases hi : j = l.1
      · rw [hi, AList.lookup_insert] at hj
        cases hj
      · rw [AList.lookup_insert_ne hi] at hj
        exact absurd hj (hnone j)
    · have hnodup := h.nodup
      rw [hsplit] at hnodup
      obtain ⟨_, hrest, _⟩ := List.nodup_append.1 hnodup
      obtain ⟨hwrest, hrest⟩ := List.nodup_cons.1 hrest
      have hin : ∀ j ∈ rest, j ∈ s.waiters := fun j hj => by simp [hsplit, hj]
      rw [heq]
      refine ⟨?_, ?_, hrest, ?_⟩
      · intro j hj
        have hjw : j ≠ w := by
          rintro rfl
          exact hwrest hj
        have hji : j ≠ l.1 := by
          rintro rfl
          exact hout (hin _ hj)
        rw [AList.lookup_insert_ne hjw, AList.lookup_insert_ne hji]
        exact h.waiters j (hin j hj)
      · intro j hj
        by_cases hjw : j = w
        · rw [hjw, AList.lookup_insert] at hj
          cases hj
        rw [AList.lookup_insert_ne hjw] at hj
        by_cases hji : j = l.1
        · rw [hji, AList.lookup_insert] at hj
          cases hj
        rw [AList.lookup_insert_ne hji] at hj
        have hmem := h.parked j hj
        rw [hsplit] at hmem
        rcases List.mem_append.1 hmem with hmem | hmem
        · exact absurd hj (hdead j hmem)
        · exact (List.mem_cons.1 hmem).resolve_left hjw
      · intro hpos
        have hempty := h.idle hpos
        rw [hsplit] at hempty
        simp at hempty

/-! ## The permits -/

/-- Calls with a permit, held or in flight. -/
def inUse (calls : Table ι Call) : Nat :=
  groupCount calls (fun _ c => c.place) .held + groupCount calls (fun _ c => c.place) .inFlight

/-- One when the call has a permit. -/
def permitOf (c : Call) : Nat :=
  (if c.place = some .held then 1 else 0) + if c.place = some .inFlight then 1 else 0

theorem inUse_insert {calls : Table ι Call} {i : ι} {c : Call} (hc : calls.lookup i = some c)
    (c' : Call) : inUse (calls.insert i c') + permitOf c = inUse calls + permitOf c' := by
  have hmove : ∀ p, groupCount (calls.insert i c') (fun _ c => c.place) p +
      (if c.place = some p then 1 else 0) =
        groupCount calls (fun _ c => c.place) p + if c'.place = some p then 1 else 0 :=
    groupCount_replace hc c'
  have hheld := hmove .held
  have hflight := hmove .inFlight
  rw [inUse, inUse, permitOf, permitOf]
  omega

theorem inUse_insert_of_none {calls : Table ι Call} {i : ι} (hc : calls.lookup i = none) (c : Call) :
    inUse (calls.insert i c) = inUse calls + permitOf c := by
  rw [inUse, inUse, permitOf, groupCount_insert_of_none hc, groupCount_insert_of_none hc]
  omega

theorem total_release {i : ι} {c : Call} (h : s.Parking) (hc : s.calls.lookup i = some c)
    (hpermit : permitOf c = 1) (hi : i ∉ s.waiters) :
    inUse (step.release s i).calls + (step.release s i).free = inUse s.calls + s.free := by
  have hgone : inUse (s.calls.insert i .gone) + permitOf c = inUse s.calls + 0 := inUse_insert hc .gone
  rcases release_cases h hi with ⟨heq, _⟩ | ⟨dead, w, rest, hsplit, hw, _, heq⟩
  · rw [heq]
    dsimp only
    omega
  · have hwi : w ≠ i := by
      rintro rfl
      exact hi (by simp [hsplit])
    have hparked : (s.calls.insert i .gone).lookup w = some .parked := by
      rw [AList.lookup_insert_ne hwi, hw]
    have hsent : inUse ((s.calls.insert i .gone).insert w .sent) + 0 =
        inUse (s.calls.insert i .gone) + 1 := inUse_insert hparked .sent
    rw [heq]
    dsimp only
    omega

theorem total_step (h : s.Parking) (hs : s.step l = some s') :
    inUse s'.calls + s'.free = inUse s.calls + s.free := by
  rcases step_cases hs with ⟨_, hfree, hm, hc⟩ | ⟨hfree, hm, hc⟩ | ⟨_, hzero, hc, rfl⟩ |
    ⟨hfree, hc, hm⟩ | ⟨hfree, hc, hm⟩ | ⟨_, hc, rfl⟩
  · have htaken : inUse (s.calls.insert l.1 .holding) = inUse s.calls + 1 := by
      rcases hc with hc | hc
      · exact inUse_insert_of_none hc .holding
      · exact inUse_insert hc .holding
    rw [hm.calls]
    omega
  · rw [hm.calls, hfree, inUse_insert_of_none hc .missed]
    rfl
  · have hparked : inUse (s.calls.insert l.1 .parked) + 0 = inUse s.calls + 0 :=
      inUse_insert hc .parked
    dsimp only
    omega
  · have hgone : inUse (s.calls.insert l.1 .gone) + 0 = inUse s.calls + 0 := inUse_insert hc .gone
    rw [hm.calls]
    omega
  · have hmoved : ∀ c', permitOf c' = 1 → Moves s s' l.1 c' →
        inUse s'.calls + s'.free = inUse s.calls + s.free := by
      intro c' hpermit hm
      have hsent : inUse (s.calls.insert l.1 c') + 1 = inUse s.calls + permitOf c' :=
        inUse_insert hc c'
      rw [hm.calls]
      omega
    rcases hm with hm | hm
    · exact hmoved _ rfl hm
    · exact hmoved _ rfl hm
  · rcases hc with hc | hc
    · exact total_release h hc rfl (h.not_mem (by simp [hc]) (by simp [hc]))
    · exact total_release h hc rfl (h.not_mem (by simp [hc]) (by simp [hc]))

/-! ## The order of parking -/

/-- The calls that reached the section under the lock, oldest first. -/
def parks (ls : List (ι × Action)) : List ι :=
  ls.filterMap fun l => if l.2 = .park then some l.1 else none

/-- The stack is in the order of parking. -/
theorem waiters_sublist {permits : Nat} {ls : List (ι × Action)}
    (hrun : steps LifoPermits.step (new permits) ls = some s) :
    s.Parking ∧ s.waiters.Sublist (parks ls).reverse := by
  refine steps_history (fun ls s => s.Parking ∧ s.waiters.Sublist (parks ls).reverse) hrun
    ⟨parking_new permits, List.Sublist.refl _⟩ ?_
  intro ls s l s' ⟨h, hsub⟩ hs
  refine ⟨h.step hs, ?_⟩
  have hparks : (parks (ls ++ [l])).reverse =
      (if l.2 = .park then [l.1] else []) ++ (parks ls).reverse := by
    rw [parks, List.filterMap_append, List.reverse_append, parks]
    by_cases hl : l.2 = .park <;> simp [hl]
  have hkeep : ∀ {waiters : List ι}, waiters.Sublist s.waiters →
      waiters.Sublist (parks (ls ++ [l])).reverse := by
    intro waiters hw
    rw [hparks]
    exact (hw.trans hsub).trans (List.sublist_append_right _ _)
  rcases step_cases hs with ⟨_, _, hm, _⟩ | ⟨_, hm, _⟩ | ⟨hpark, _, _, rfl⟩ | ⟨_, _, hm⟩ |
    ⟨_, _, hm⟩ | ⟨_, hc, rfl⟩
  · exact hkeep (by rw [hm.waiters])
  · exact hkeep (by rw [hm.waiters])
  · rw [hparks, if_pos hpark]
    exact hsub.cons_cons l.1
  · exact hkeep (by rw [hm.waiters])
  · rcases hm with hm | hm
    · exact hkeep (by rw [hm.waiters])
    · exact hkeep (by rw [hm.waiters])
  · have hout : l.1 ∉ s.waiters := by
      refine h.not_mem ?_ ?_
      · rcases hc with hc | hc <;> simp [hc]
      · rcases hc with hc | hc <;> simp [hc]
    rcases release_cases h hout with ⟨heq, _⟩ | ⟨dead, w, rest, hsplit, _, _, heq⟩
    · rw [heq]
      exact List.nil_sublist _
    · rw [heq]
      refine hkeep ?_
      rw [hsplit]
      exact (List.sublist_cons_self w rest).trans (List.sublist_append_right dead _)

omit [DecidableEq ι] in
/-- A call on the stack parked after those below it. -/
theorem parked_after {ls : List (ι × Action)} {dead rest : List ι} {w : ι}
    (h : (dead ++ w :: rest).Sublist (parks ls).reverse) :
    ∃ before after, ls = before ++ (w, .park) :: after ∧ ∀ j ∈ rest, (j, .park) ∈ before := by
  obtain ⟨newer, older, hsplit, _, hsub⟩ := List.append_sublist_iff.1 h
  obtain ⟨head, tail, hcut, hw, hrest⟩ := List.cons_sublist_iff.1 hsub
  obtain ⟨late, early, hhead⟩ := List.append_of_mem hw
  have horder : parks ls = (tail.reverse ++ early.reverse) ++ w :: (late.reverse ++ newer.reverse) := by
    have hreverse := congrArg List.reverse hsplit
    rw [List.reverse_reverse, hcut, hhead] at hreverse
    simpa using hreverse
  obtain ⟨before, rest', rfl, hbefore, hafter⟩ := List.filterMap_eq_append_iff.1 horder
  obtain ⟨skipped, e, after, rfl, _, he, _⟩ := List.filterMap_eq_cons_iff.1 hafter
  have hlabel : ∀ {e : ι × Action} {j : ι}, (if e.2 = .park then some e.1 else none) = some j →
      e = (j, .park) := by
    intro e j hj
    obtain ⟨hpark, heq⟩ := Option.ite_none_right_eq_some.1 hj
    rw [← hpark, ← Option.some.inj heq]
  refine ⟨before ++ skipped, after, ?_, ?_⟩
  · rw [← hlabel he, List.append_assoc]
  · intro j hj
    have hmem : j ∈ before.filterMap fun l => if l.2 = .park then some l.1 else none := by
      rw [hbefore]
      exact List.mem_append_left _ (List.mem_reverse.2 (hrest.subset hj))
    obtain ⟨e', he', hej⟩ := List.mem_filterMap.1 hmem
    rw [← hlabel hej]
    exact List.mem_append_left _ he'

end LifoPermits

open LifoPermits in
/-- **After any run of calls, cancellations and drops, the permits held, in flight and free are those
there were; no call is parked while one is free; and a permit that is dropped goes to the call that,
of all that are parked, parked last, and back to the pool only when none is.** -/
theorem lifo_permits {ι : Type} [DecidableEq ι] {permits : Nat} {ls : List (ι × Action)}
    {s : LifoPermits ι} (hrun : steps LifoPermits.step (new permits) ls = some s) :
    s.permits .held + s.permits .inFlight + s.free = permits ∧
      (0 < s.free → ∀ i, s.calls.lookup i ≠ some .parked) ∧
      ∀ i s', s.step (i, .release) = some s' →
        ((∀ j, s.calls.lookup j ≠ some .parked) ∧ s'.free = s.free + 1) ∨
          ∃ w before after, s.calls.lookup w = some .parked ∧ s'.calls.lookup w = some .sent ∧
            ls = before ++ (w, .park) :: after ∧
            ∀ j, j ≠ w → s.calls.lookup j = some .parked → (j, .park) ∈ before := by
  obtain ⟨hparking, hsub⟩ := waiters_sublist hrun
  refine ⟨?_, ?_, ?_⟩
  · have htotal : s.Parking ∧ inUse s.calls + s.free = permits :=
      steps_invariant (fun s => s.Parking ∧ inUse s.calls + s.free = permits) hrun
        ⟨parking_new permits, by simp [new, inUse, groupCount]⟩
        fun s l s' h hs => ⟨h.1.step hs, (total_step h.1 hs).trans h.2⟩
    exact htotal.2
  · intro hfree i hi
    have hmem := hparking.parked i hi
    rw [hparking.idle hfree] at hmem
    cases hmem
  · intro i s' hs
    obtain ⟨hc, rfl⟩ : (s.calls.lookup i = some .holding ∨ s.calls.lookup i = some .returning) ∧
        s' = step.release s i := by
      cases hlook : s.calls.lookup i with
      | none => simp [LifoPermits.step, hlook] at hs
      | some c => cases c <;> simp_all [LifoPermits.step]
    have hout : i ∉ s.waiters := by
      refine hparking.not_mem ?_ ?_
      · rcases hc with hc | hc <;> simp [hc]
      · rcases hc with hc | hc <;> simp [hc]
    rcases release_cases hparking hout with ⟨heq, hnone⟩ | ⟨dead, w, rest, hsplit, hw, hdead, heq⟩
    · exact .inl ⟨hnone, by rw [heq]⟩
    · rw [hsplit] at hsub
      obtain ⟨before, after, hls, hbefore⟩ := parked_after hsub
      refine .inr ⟨w, before, after, hw, by rw [heq]; exact AList.lookup_insert _, hls, ?_⟩
      intro j hjw hj
      have hmem := hparking.parked j hj
      rw [hsplit] at hmem
      rcases List.mem_append.1 hmem with hmem | hmem
      · exact absurd hj (hdead j hmem)
      · exact hbefore j ((List.mem_cons.1 hmem).resolve_left hjw)

/-- One permit, a waiter that gives up under a live one. -/
def oneDead : List (Nat × Action) :=
  [(0, .tryAcquire), (1, .tryAcquire), (2, .tryAcquire), (1, .park), (2, .park), (1, .cancel)]

theorem lifo_permits_oneDead : ∃ s, steps LifoPermits.step (LifoPermits.new 1) oneDead = some s ∧
    s.permits .held + s.permits .inFlight + s.free = 1 :=
  ⟨_, rfl, (@lifo_permits Nat _ 1 oneDead _ rfl).1⟩

end ThumbQueue
end Daemon
end Naiad
