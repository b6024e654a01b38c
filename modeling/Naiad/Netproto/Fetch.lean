import Naiad.Lib.Loop
import Naiad.Netproto.Window

/-!
# Naiad.Netproto.Fetch

The adaptive fetch of a key list, window by window. An attempt at a window succeeds with a reply,
fails so that it can be retried on a smaller window, or fails for good; the window size follows
latency and failures, and the position moves on success only.

* `fetchInv_step`: what every attempt preserves.
* `fetch_covers_once`: on success the committed windows tile the list, and the result is made of
  their replies alone; every issued window fits the body budget; the loop ends.
-/

namespace Naiad
namespace Netproto

open Lib

def minWindow : Nat := 32

def floorRetryLimit : Nat := 3

def windowSlowMs : Nat := 5000

def windowFastMs : Nat := 2500

/-- One attempt at a window. A failure carries what it had delivered to its scratch buffer. -/
inductive Attempt
  | ok (reply : Snapshot) (requestMs : Nat)
  | retryable (delivered : Snapshot)
  | fatal (delivered : Snapshot)

def Attempt.reply? : Attempt → Option Snapshot
  | .ok reply _ => some reply
  | .retryable _ => none
  | .fatal _ => none

/-- The loop variables, `stop` for `end`, with the windows issued and committed so far. -/
structure FetchState where
  w : Nat
  start : Nat
  stop : Nat
  attempt : Nat
  floorFailures : Nat
  merged : Snapshot
  issued : List (Nat × Nat)
  committed : List ((Nat × Nat) × Snapshot)

inductive FetchError
  | fatal
  | floor (windowSize start total hashesSoFar : Nat)
deriving DecidableEq

structure FetchEnd where
  result : Except FetchError Snapshot
  state : FetchState

/-- The first window at a position: an empty list is still asked for once. -/
def firstStop (buckets : List String) (w start : Nat) : Nat :=
  if buckets.length = 0 then 0
  else windowEnd buckets none start bucketRequestBodyBudget (max w minWindow)

def openWindow (buckets : List String) (st : FetchState) : FetchState :=
  { st with stop := firstStop buckets st.w st.start, attempt := 0, floorFailures := 0 }

/-- The next window size after a success. -/
def nextWindow (st : FetchState) (requestMs : Nat) : Nat :=
  if st.attempt > 0 then max (st.stop - st.start) minWindow
  else if requestMs > windowSlowMs then max ((st.stop - st.start) / 2) minWindow
  else if requestMs < windowFastMs then min (st.w + minWindow) usizeMax
  else st.w

def commit (buckets : List String) (st : FetchState) (reply : Snapshot) (requestMs : Nat) :
    FetchState :=
  { st with
    merged := st.merged.extend reply
    committed := st.committed ++ [((st.start, st.stop), reply)]
    w := if buckets.length > 0 then nextWindow st requestMs else st.w
    start := st.stop }

/-- Issue the current window and act on the outcome of the attempt. -/
def fetchStep (buckets : List String) (attempts : Nat → Attempt) (st : FetchState) :
    Outcome FetchState FetchEnd :=
  let sent := { st with issued := st.issued ++ [(st.start, st.stop)] }
  match attempts st.issued.length with
  | .ok reply requestMs =>
    let done := commit buckets sent reply requestMs
    if buckets.length = 0 ∨ buckets.length ≤ done.start then .stopped ⟨.ok done.merged, done⟩
    else .running (openWindow buckets done)
  | .fatal _ => .stopped ⟨.error .fatal, sent⟩
  | .retryable _ =>
    if st.stop - st.start ≤ minWindow then
      if st.floorFailures + 1 ≥ floorRetryLimit then
        .stopped ⟨.error (.floor (st.stop - st.start) st.start buckets.length
          st.merged.tags.entries.length), sent⟩
      else
        .running { sent with floorFailures := st.floorFailures + 1, attempt := st.attempt + 1 }
    else
      .running { sent with
        stop := windowEnd buckets none st.start bucketRequestBodyBudget
          (max ((st.stop - st.start) / 2) minWindow)
        attempt := st.attempt + 1 }

/-- `fetch_buckets_inner`, with the window size that the hint seeds (`none` for no usable hint). -/
def fetchBucketsInner (buckets : List String) (seed : Option Nat) (attempts : Nat → Attempt)
    (fuel : Nat) : Option FetchEnd :=
  loop (fetchStep buckets attempts) fuel
    (openWindow buckets ⟨seed.getD usizeMax, 0, 0, 0, 0, .start, [], []⟩)

/-! ## Tilings -/

/-- Windows that follow one another from `a` to `b`, none of them empty. -/
def Tiles : Nat → Nat → List (Nat × Nat) → Prop
  | a, b, [] => a = b
  | a, b, w :: ws => w.1 = a ∧ w.1 < w.2 ∧ Tiles w.2 b ws

theorem Tiles.cons {a b c : Nat} {ws : List (Nat × Nat)} (h : Tiles b c ws) (hab : a < b) :
    Tiles a c ((a, b) :: ws) := ⟨rfl, hab, h⟩

theorem Tiles.snoc {a b c : Nat} {ws : List (Nat × Nat)} (h : Tiles a b ws) (hbc : b < c) :
    Tiles a c (ws ++ [(b, c)]) := by
  induction ws generalizing a with
  | nil =>
    cases h
    exact ⟨rfl, hbc, rfl⟩
  | cons w ws ih => exact ⟨h.1, h.2.1, ih h.2.2⟩

theorem Tiles.le {a b : Nat} {ws : List (Nat × Nat)} (h : Tiles a b ws) : a ≤ b := by
  induction ws generalizing a with
  | nil => exact Nat.le_of_eq h
  | cons w ws ih =>
    obtain ⟨rfl, hlt, hrest⟩ := h
    have := ih hrest
    omega

theorem Tiles.bounds {a b : Nat} {ws : List (Nat × Nat)} (h : Tiles a b ws) :
    ∀ w ∈ ws, a ≤ w.1 ∧ w.1 < w.2 ∧ w.2 ≤ b := by
  induction ws generalizing a with
  | nil => simp
  | cons v ws ih =>
    obtain ⟨rfl, hlt, hrest⟩ := h
    intro w hw
    rcases List.mem_cons.1 hw with rfl | hw
    · exact ⟨Nat.le_refl _, hlt, hrest.le⟩
    · obtain ⟨h1, h2, h3⟩ := ih hrest w hw
      exact ⟨by omega, h2, h3⟩

theorem Tiles.append {a b c : Nat} {ws vs : List (Nat × Nat)} (h : Tiles a b ws)
    (h' : Tiles b c vs) : Tiles a c (ws ++ vs) := by
  induction ws generalizing a with
  | nil =>
    cases h
    exact h'
  | cons w ws ih => exact ⟨h.1, h.2.1, ih h.2.2⟩

/-- The windows of a tiling cut any list into consecutive pieces. -/
theorem Tiles.flatMap_take {α : Type} {l : List α} {a b : Nat} {ws : List (Nat × Nat)}
    (h : Tiles a b ws) :
    (ws.flatMap fun w => (l.drop w.1).take (w.2 - w.1)) = (l.drop a).take (b - a) := by
  induction ws generalizing a with
  | nil =>
    cases h
    simp
  | cons w ws ih =>
    obtain ⟨rfl, hlt, hrest⟩ := h
    have hle := hrest.le
    rw [List.flatMap_cons, ih hrest]
    have hsum : b - w.1 = (w.2 - w.1) + (b - w.2) := by omega
    have hdrop : l.drop w.2 = (l.drop w.1).drop (w.2 - w.1) := by
      rw [List.drop_drop]
      congr 1
      omega
    rw [hsum, List.take_add, hdrop]

theorem Tiles.flatMap_slice {l : List String} {a b : Nat} {ws : List (Nat × Nat)}
    (h : Tiles a b ws) : ws.flatMap (slice l) = slice l (a, b) :=
  h.flatMap_take

/-! ## What an attempt preserves -/

/-- The window costs what the budget leaves for keys, or is one key; a window of bucket keys
serializes within the body budget, whatever the other fields of the request are. -/
structure FitsBudget (buckets : List String) (w : Nat × Nat) : Prop where
  cost : entriesCost (perEntry buckets none) w.1 w.2 ≤
    bucketRequestBodyBudget - bucketRequestEnvelope ∨ w.2 = w.1 + 1
  json : (∀ b ∈ buckets, ∃ h : Hash, b = h.toHex) →
    ∀ prefixBits domain stream resumeAt, prefixBits < 2 ^ 32 →
      (∀ d, domain = some d → jsonEscapedLen d ≤ 6) →
      (∀ k, resumeAt = some k → ∃ h : Hash, k = h.toHex) →
      (windowRequest prefixBits buckets domain stream resumeAt w).jsonLen ≤
        bucketRequestBodyBudget

theorem fitsBudget_windowEnd {buckets : List String} {start maxWindow : Nat}
    (hs : start < buckets.length) (hmax : 0 < maxWindow) :
    FitsBudget buckets
      (start, windowEnd buckets none start bucketRequestBodyBudget maxWindow) where
  cost := windowEnd_fits _ _ _ _ _
  json := fun hkeys _ _ _ _ hbits hdomain hresume =>
    jsonLen_window hs hmax hkeys hbits hdomain hresume

/-- The current window: empty for an empty list, else a non-empty one that fits. -/
structure WindowOk (buckets : List String) (start stop : Nat) : Prop where
  empty : buckets.length = 0 → start = 0 ∧ stop = 0
  bounds : 0 < buckets.length → start < stop ∧ stop ≤ buckets.length
  fits : FitsBudget buckets (start, stop)

theorem fitsBudget_empty : FitsBudget [] (0, 0) where
  cost := .inl (by simp [entriesCost])
  json := by
    intro _ prefixBits domain stream resumeAt hbits hdomain hresume
    have hjson := jsonLen_le (r := windowRequest prefixBits [] domain stream resumeAt (0, 0))
      rfl hbits hdomain hresume
    have hcap : 160 + jsonArrayLen 0 0 ≤ bucketRequestBodyBudget := by decide
    exact hjson.trans hcap

theorem windowOk_windowEnd {buckets : List String} {start maxWindow : Nat}
    (hs : start < buckets.length) (hmax : 0 < maxWindow) :
    WindowOk buckets start (windowEnd buckets none start bucketRequestBodyBudget maxWindow) where
  empty := by omega
  bounds := by
    intro _
    obtain ⟨h1, h2, _⟩ := windowEnd_bounds none bucketRequestBodyBudget
      hs hmax
    exact ⟨h1, h2⟩
  fits := fitsBudget_windowEnd hs hmax

theorem windowOk_firstStop {buckets : List String} {w start : Nat}
    (h0 : buckets.length = 0 → start = 0) (hs : 0 < buckets.length → start < buckets.length) :
    WindowOk buckets start (firstStop buckets w start) := by
  unfold firstStop
  by_cases hlen : buckets.length = 0
  · rw [if_pos hlen]
    have hnil : buckets = [] := List.length_eq_zero_iff.1 hlen
    subst hnil
    rw [h0 rfl]
    exact ⟨fun _ => ⟨rfl, rfl⟩, by simp, fitsBudget_empty⟩
  · rw [if_neg hlen]
    exact windowOk_windowEnd (hs (by omega)) (by simp [minWindow])

section Invariant

variable {buckets : List String} {attempts : Nat → Attempt}

/-- The history of a fetch: what was issued fits, what was committed tiles the list up to `stop`
and is what the successful attempts replied, and the accumulator is made of just that. -/
structure HistoryInv (buckets : List String) (attempts : Nat → Attempt) (st : FetchState) :
    Prop where
  issued : ∀ w ∈ st.issued, FitsBudget buckets w
  merged : st.merged = (st.committed.map Prod.snd).foldl Snapshot.extend .start
  replies : st.committed.map Prod.snd =
    (List.range st.issued.length).filterMap fun i => (attempts i).reply?

structure FetchInv (buckets : List String) (attempts : Nat → Attempt) (st : FetchState) :
    Prop where
  history : HistoryInv buckets attempts st
  window : WindowOk buckets st.start st.stop
  tiles : Tiles 0 st.start (st.committed.map Prod.fst)

theorem historyInv_send {st : FetchState} (h : FetchInv buckets attempts st) :
    (∀ w ∈ st.issued ++ [(st.start, st.stop)], FitsBudget buckets w) ∧
      (List.range (st.issued ++ [(st.start, st.stop)]).length).filterMap
          (fun i => (attempts i).reply?) =
        st.committed.map Prod.snd ++ (attempts st.issued.length).reply?.toList := by
  constructor
  · intro w hw
    rcases List.mem_append.1 hw with hw | hw
    · exact h.history.issued w hw
    · rw [List.mem_singleton] at hw
      rw [hw]
      exact h.window.fits
  · rw [List.length_append, List.length_singleton, List.range_succ, List.filterMap_append,
      ← h.history.replies]
    cases h' : (attempts st.issued.length).reply? <;> simp [h']

/-- What the fuel of a fetch pays for: the positions left, the size of the current window, and
the patience left at the floor. -/
def fetchMeasure (buckets : List String) (st : FetchState) : Nat :=
  (buckets.length - st.start) * (buckets.length + 8) + (st.stop - st.start) +
    (floorRetryLimit - st.floorFailures)

/-- A retry keeps the invariant on a smaller window or with less patience left. -/
theorem fetchInv_retry {st st' : FetchState} (h : FetchInv buckets attempts st)
    {delivered : Snapshot} (ha : attempts st.issued.length = .retryable delivered)
    (hst : fetchStep buckets attempts st = .running st') :
    FetchInv buckets attempts st' ∧ fetchMeasure buckets st' < fetchMeasure buckets st := by
  obtain ⟨hissued, hreplies⟩ := historyInv_send h
  rw [ha, Attempt.reply?, Option.toList_none, List.append_nil] at hreplies
  simp only [fetchStep, ha] at hst
  split at hst
  · split at hst
    · cases hst
    · rename_i hfloor
      cases hst
      refine ⟨⟨⟨hissued, h.history.merged, hreplies.symm⟩, h.window, h.tiles⟩, ?_⟩
      simp only [fetchMeasure]
      omega
  · rename_i hsize
    cases hst
    have hpos : 0 < buckets.length := by
      by_contra hlen
      obtain ⟨h1, h2⟩ := h.window.empty (by omega)
      omega
    obtain ⟨hlt, hle⟩ := h.window.bounds hpos
    have hmax : 0 < max ((st.stop - st.start) / 2) minWindow := by simp [minWindow]
    obtain ⟨hb1, _, hb3⟩ := windowEnd_bounds none bucketRequestBodyBudget
      (lt_of_lt_of_le hlt hle) hmax
    refine ⟨⟨⟨hissued, h.history.merged, hreplies.symm⟩,
      windowOk_windowEnd (lt_of_lt_of_le hlt hle) hmax, h.tiles⟩, ?_⟩
    simp only [fetchMeasure, minWindow] at hsize hb3 ⊢
    omega

theorem fetchInv_commit {st : FetchState} (h : FetchInv buckets attempts st) {reply : Snapshot}
    {ms : Nat} (ha : attempts st.issued.length = .ok reply ms) :
    HistoryInv buckets attempts
      (commit buckets { st with issued := st.issued ++ [(st.start, st.stop)] } reply ms) := by
  obtain ⟨hissued, hreplies⟩ := historyInv_send h
  rw [ha, Attempt.reply?, Option.toList_some] at hreplies
  refine ⟨hissued, ?_, ?_⟩
  · simp only [commit, List.map_append, List.map_cons, List.map_nil, List.foldl_append,
      List.foldl_cons, List.foldl_nil]
    rw [h.history.merged]
  · simp only [commit, List.map_append, List.map_cons, List.map_nil]
    exact hreplies.symm

/-- A success that leaves keys to fetch moves the position to the end of its window. -/
theorem fetchInv_success {st st' : FetchState} (h : FetchInv buckets attempts st)
    {reply : Snapshot} {ms : Nat} (ha : attempts st.issued.length = .ok reply ms)
    (hst : fetchStep buckets attempts st = .running st') :
    FetchInv buckets attempts st' ∧ fetchMeasure buckets st' < fetchMeasure buckets st := by
  have hhist := fetchInv_commit h ha
  simp only [fetchStep, ha] at hst
  split at hst
  · cases hst
  · rename_i hmore
    cases hst
    simp only [commit] at hmore
    have hpos : 0 < buckets.length := by omega
    obtain ⟨hlt, hle⟩ := h.window.bounds hpos
    have hwin : WindowOk buckets st.stop (firstStop buckets
        (commit buckets { st with issued := st.issued ++ [(st.start, st.stop)] } reply ms).w st.stop) :=
      windowOk_firstStop (by omega) (by omega)
    refine ⟨⟨⟨hhist.issued, hhist.merged, hhist.replies⟩, hwin, ?_⟩, ?_⟩
    · simp only [openWindow, commit, List.map_append, List.map_cons, List.map_nil]
      exact h.tiles.snoc hlt
    · obtain ⟨_, hle'⟩ := hwin.bounds hpos
      have hmul := Nat.mul_le_mul_right (buckets.length + 8)
        (show buckets.length - st.stop + 1 ≤ buckets.length - st.start by omega)
      rw [Nat.add_mul, Nat.one_mul] at hmul
      simp only [fetchMeasure, openWindow, floorRetryLimit]
      change (buckets.length - st.stop) * (buckets.length + 8) +
        (firstStop buckets _ st.stop - st.stop) + 3 < _
      omega

theorem fetchInv_step {st st' : FetchState} (h : FetchInv buckets attempts st)
    (hst : fetchStep buckets attempts st = .running st') :
    FetchInv buckets attempts st' ∧ fetchMeasure buckets st' < fetchMeasure buckets st := by
  cases ha : attempts st.issued.length with
  | ok reply ms => exact fetchInv_success h ha hst
  | retryable delivered => exact fetchInv_retry h ha hst
  | fatal delivered =>
    simp only [fetchStep, ha] at hst
    cases hst

end Invariant

/-! ## The end of a fetch -/

/-- What a successful fetch has done: its committed windows tile the key list (an empty list is
one empty window), and its result is made of their replies and nothing else. -/
structure Covered (buckets : List String) (attempts : Nat → Attempt) (st : FetchState)
    (result : Snapshot) : Prop where
  empty : buckets = [] → st.committed.map Prod.fst = [(0, 0)]
  tiles : buckets ≠ [] → Tiles 0 buckets.length (st.committed.map Prod.fst)
  keys : (st.committed.map Prod.fst).flatMap (slice buckets) = buckets
  replies : st.committed.map Prod.snd =
    (List.range st.issued.length).filterMap fun i => (attempts i).reply?
  cursor : IsLeast { c | ∃ r ∈ st.committed.map Prod.snd, r.cursor = c } result.cursor
  tags : ∀ h, (result.tags.lookup h).getD [] =
    (st.committed.map Prod.snd).flatMap fun r => (r.tags.lookup h).getD []

theorem foldl_extend_tags (replies : List Snapshot) (acc : Snapshot) (h : Hash) :
    ((replies.foldl Snapshot.extend acc).tags.lookup h).getD [] =
      (acc.tags.lookup h).getD [] ++ replies.flatMap fun r => (r.tags.lookup h).getD [] := by
  induction replies generalizing acc with
  | nil => simp
  | cons r replies ih =>
    rw [List.foldl_cons, ih, Snapshot.lookup_extend, List.flatMap_cons, List.append_assoc]

/-- Taking minima from `a` on ends below all of a list, at `a` or in the list. -/
theorem foldl_min_spec (cursors : List U64) (a : U64) :
    cursors.foldl min a ≤ a ∧ (∀ c ∈ cursors, cursors.foldl min a ≤ c) ∧
      (cursors.foldl min a = a ∨ cursors.foldl min a ∈ cursors) := by
  induction cursors generalizing a with
  | nil => simp
  | cons c cursors ih =>
    obtain ⟨h1, h2, h3⟩ := ih (min a c)
    rw [List.foldl_cons]
    refine ⟨h1.trans (min_le_left _ _), ?_, ?_⟩
    · intro c' hc'
      rcases List.mem_cons.1 hc' with rfl | hc'
      · exact h1.trans (min_le_right _ _)
      · exact h2 c' hc'
    · rcases h3 with h3 | h3
      · rcases min_choice a c with hc | hc
        · exact .inl (h3.trans hc)
        · exact .inr (List.mem_cons.2 (.inl (h3.trans hc)))
      · exact .inr (List.mem_cons_of_mem _ h3)

/-- From the widest cursor on, the minimum of some cursors. -/
theorem isLeast_foldl_min {cursors : List U64} (h : cursors ≠ []) :
    IsLeast { c | c ∈ cursors } (cursors.foldl min (Fin.last _)) := by
  obtain ⟨_, hall, hattained⟩ := foldl_min_spec cursors (Fin.last _)
  refine ⟨?_, hall⟩
  rcases hattained with htop | hmem
  · obtain ⟨c, hc⟩ := List.exists_mem_of_ne_nil _ h
    have heq : cursors.foldl min (Fin.last _) = c :=
      le_antisymm (hall c hc) (by rw [htop]; exact Fin.le_last c)
    exact Set.mem_ofPred_eq ▸ heq ▸ hc
  · exact hmem

theorem foldl_extend_cursor (replies : List Snapshot) (acc : Snapshot) :
    (replies.foldl Snapshot.extend acc).cursor = (replies.map (·.cursor)).foldl min acc.cursor := by
  induction replies generalizing acc with
  | nil => rfl
  | cons r replies ih => exact ih (acc.extend r)

theorem Tiles.nil_of_zero {ws : List (Nat × Nat)} (h : Tiles 0 0 ws) : ws = [] := by
  cases ws with
  | nil => rfl
  | cons w ws =>
    obtain ⟨h1, h2, h3⟩ := h
    have := h3.le
    omega

section End

variable {buckets : List String} {attempts : Nat → Attempt}

/-- The success that reaches the end of the list. -/
theorem covered_of_success {st : FetchState} (h : FetchInv buckets attempts st)
    {reply : Snapshot} {ms : Nat} (ha : attempts st.issued.length = .ok reply ms)
    (hend : buckets.length = 0 ∨ buckets.length ≤ st.stop) :
    let done := commit buckets { st with issued := st.issued ++ [(st.start, st.stop)] } reply ms
    Covered buckets attempts done done.merged := by
  intro done
  have hhist : HistoryInv buckets attempts done := fetchInv_commit h ha
  have hempty : buckets = [] → done.committed.map Prod.fst = [(0, 0)] := by
    intro hnil
    obtain ⟨h1, h2⟩ := h.window.empty (by rw [hnil]; rfl)
    have htiles := h.tiles
    rw [h1] at htiles
    change (st.committed ++ [((st.start, st.stop), reply)]).map Prod.fst = _
    rw [List.map_append, htiles.nil_of_zero, h1, h2]
    rfl
  have htiles : buckets ≠ [] → Tiles 0 buckets.length (done.committed.map Prod.fst) := by
    intro hne
    have hpos : 0 < buckets.length := List.length_pos_of_ne_nil hne
    obtain ⟨hlt, hle⟩ := h.window.bounds hpos
    have hstop : st.stop = buckets.length := by omega
    change Tiles 0 buckets.length ((st.committed ++ [((st.start, st.stop), reply)]).map Prod.fst)
    rw [List.map_append, ← hstop]
    exact h.tiles.snoc hlt
  have hlast : reply ∈ done.committed.map Prod.snd := by
    change reply ∈ (st.committed ++ [((st.start, st.stop), reply)]).map Prod.snd
    simp
  refine ⟨hempty, htiles, ?_, hhist.replies, ?_, ?_⟩
  · by_cases hne : buckets = []
    · rw [hempty hne, hne]
      rfl
    · rw [(htiles hne).flatMap_slice]
      simp [slice]
  · have hne : (done.committed.map Prod.snd).map (·.cursor) ≠ [] :=
      List.ne_nil_of_mem (List.mem_map_of_mem hlast)
    have hleast := isLeast_foldl_min hne
    have hcursor := foldl_extend_cursor (done.committed.map Prod.snd) Snapshot.start
    rw [← hhist.merged] at hcursor
    rw [hcursor]
    change IsLeast _ (List.foldl min (Fin.last _) _)
    simpa only [List.mem_map] using hleast
  · intro x
    rw [hhist.merged, foldl_extend_tags]
    simp [Snapshot.start]

/-- What any end of a fetch has done. -/
theorem fetchEnd_post {st : FetchState} {fin : FetchEnd} (h : FetchInv buckets attempts st)
    (hst : fetchStep buckets attempts st = .stopped fin) :
    (∀ w ∈ fin.state.issued, FitsBudget buckets w) ∧
      ∀ result, fin.result = .ok result → Covered buckets attempts fin.state result := by
  obtain ⟨hissued, _⟩ := historyInv_send h
  cases ha : attempts st.issued.length with
  | ok reply ms =>
    simp only [fetchStep, ha] at hst
    split at hst
    · rename_i hend
      cases hst
      refine ⟨hissued, fun result hres => ?_⟩
      cases hres
      exact covered_of_success h ha hend
    · cases hst
  | retryable delivered =>
    simp only [fetchStep, ha] at hst
    split at hst
    · split at hst
      · cases hst
        exact ⟨hissued, fun result hres => by cases hres⟩
      · cases hst
    · cases hst
  | fatal delivered =>
    simp only [fetchStep, ha] at hst
    cases hst
    exact ⟨hissued, fun result hres => by cases hres⟩

theorem fetchInv_init (buckets : List String) (seed : Option Nat) (attempts : Nat → Attempt) :
    FetchInv buckets attempts
      (openWindow buckets ⟨seed.getD usizeMax, 0, 0, 0, 0, .start, [], []⟩) where
  history := ⟨by simp [openWindow], rfl, rfl⟩
  window := windowOk_firstStop (fun _ => rfl) fun h => h
  tiles := rfl

/-- Fuel that is enough for a list of `n` keys. -/
def fetchFuel (n : Nat) : Nat := n * (n + 8) + n + 4

/-- **The adaptive fetch covers everything exactly once.** For every key list, seed of the window
size and sequence of attempts, the fetch ends; every window it issued fits the request-body
budget; and if it succeeded, its windows tile the list and its result is that of their replies. -/
theorem fetch_covers_once (buckets : List String) (seed : Option Nat)
    (attempts : Nat → Attempt) :
    (∃ fin, fetchBucketsInner buckets seed attempts (fetchFuel buckets.length) = some fin) ∧
    ∀ fuel fin, fetchBucketsInner buckets seed attempts fuel = some fin →
      (∀ w ∈ fin.state.issued, FitsBudget buckets w) ∧
      ∀ result, fin.result = .ok result → Covered buckets attempts fin.state result := by
  have hinit := fetchInv_init buckets seed attempts
  constructor
  · apply loop_terminates (FetchInv buckets attempts) (fetchMeasure buckets)
      (fun _ _ h hst => fetchInv_step h hst) hinit
    have hwin : (firstStop buckets (seed.getD usizeMax) 0) ≤ buckets.length := by
      by_cases hpos : 0 < buckets.length
      · exact (hinit.window.bounds hpos).2
      · obtain ⟨_, h2⟩ := hinit.window.empty (by omega)
        change firstStop buckets (seed.getD usizeMax) 0 = 0 at h2
        omega
    simp only [fetchMeasure, openWindow, fetchFuel, floorRetryLimit, Nat.sub_zero]
    omega
  · intro fuel fin h
    exact loop_post (FetchInv buckets attempts)
      (fun _ _ h hst => (fetchInv_step h hst).1) (fun _ _ h hst => fetchEnd_post h hst) hinit h

end End

end Netproto
end Naiad
