import Naiad.Lib.Fallible
import Naiad.Netproto.Chunks
import Naiad.Netproto.Sign

/-!
# Naiad.Netproto.DeltaFetch

The incremental fetch of a key list with a cursor for each key. The list goes out in chunks; a chunk
that the server finds too large is cut in two, keys and cursors at the same place, down to a single
key.

* `fetchDeltaChunk_served`, `fetchDeltaChunk_tiles`: what one chunk does, by its bisections.
* `fetchBucketDelta_keeps_cursors`: **a fetch that succeeds asked for each key with its cursor**.
-/

namespace Naiad
namespace Netproto

structure MappingDelta where
  version : Nat
  cursor : U64
  changes : List DeltaMapping
deriving DecidableEq

/-- How a request ends: with a decoded reply and the length of its body, a body that cannot be read
or decoded, the status of a reply that would be too large, or any other failure. -/
inductive DeltaAnswer
  | ok (delta : MappingDelta) (bodyLen : Nat)
  | undecodable
  | status413
  | failed

/-- Errors name the chunk they are about, or the key. -/
inductive DeltaError
  | decoding (chunk total lo hi : Nat)
  | unsupported (message : String)
  | mergedCap (chunk total : Nat)
  | bucketTooLarge (key : String) (prefixBits : Nat)
  | request (chunk total : Nat)
deriving DecidableEq

structure DeltaQuery where
  prefixBits : Nat
  buckets : List String
  since : List U64
  domain : Option HashDomain
  mergedCap : Nat

namespace DeltaQuery

def request (q : DeltaQuery) (w : Nat × Nat) : BucketRequest :=
  chunkRequest q.prefixBits q.buckets (some q.since) (q.domain.map HashDomain.asStr) false none w

/-- The key an error names. -/
def key (q : DeltaQuery) (lo : Nat) : String := (q.buckets[lo]?).getD "<none>"

end DeltaQuery

/-- The accumulators, and each request made with how it ended. -/
structure DeltaState where
  cursor : U64
  changes : List DeltaMapping
  bytes : Nat
  log : List ((Nat × Nat) × DeltaAnswer)

namespace DeltaState

def start : DeltaState := ⟨Fin.last _, [], 0, []⟩

/-- Take in a reply, after the checks of its version and of the size of all replies. -/
def receive (q : DeltaQuery) (chunk total : Nat) (delta : MappingDelta) (bodyLen : Nat)
    (st : DeltaState) : DeltaState × Except DeltaError Unit :=
  match ensureSupported delta.version with
  | .error message => (st, .error (.unsupported message))
  | .ok () =>
    let bytes := min (st.bytes + bodyLen) usizeMax
    if bytes > q.mergedCap then ({ st with bytes := bytes }, .error (.mergedCap (chunk + 1) total))
    else
      ({ st with
          bytes := bytes
          cursor := min st.cursor delta.cursor
          changes := st.changes ++ delta.changes }, .ok ())

end DeltaState

/-- `fetch_bucket_delta_chunk_bisecting`: the request for `lo..hi` is answered by the server's next
answer; if that is 413, the halves are fetched one after the other. -/
def fetchDeltaChunk (q : DeltaQuery) (answers : Nat → DeltaAnswer) (chunk total lo hi : Nat)
    (st : DeltaState) : DeltaState × Except DeltaError Unit :=
  let sent := { st with log := st.log ++ [((lo, hi), answers st.log.length)] }
  match answers st.log.length with
  | .ok delta bodyLen => sent.receive q chunk total delta bodyLen
  | .undecodable => (sent, .error (.decoding (chunk + 1) total lo hi))
  | .status413 =>
    if hi - lo ≤ 1 then (sent, .error (.bucketTooLarge (q.key lo) q.prefixBits))
    else
      match fetchDeltaChunk q answers chunk total lo (lo + (hi - lo) / 2) sent with
      | (st', .error e) => (st', .error e)
      | (st', .ok ()) => fetchDeltaChunk q answers chunk total (lo + (hi - lo) / 2) hi st'
  | .failed => (sent, .error (.request (chunk + 1) total))
termination_by hi - lo
decreasing_by all_goals omega

/-- The loop over the chunks, with the number of the first. -/
def fetchDeltaChunks (q : DeltaQuery) (answers : Nat → DeltaAnswer) (total : Nat) :
    Nat → List (Nat × Nat) → DeltaState → DeltaState × Except DeltaError Unit
  | _, [], st => (st, .ok ())
  | chunk, w :: ws, st =>
    match fetchDeltaChunk q answers chunk total w.1 w.2 st with
    | (st', .error e) => (st', .error e)
    | (st', .ok ()) => fetchDeltaChunks q answers total (chunk + 1) ws st'

/-- All chunks of the list, from empty accumulators on. -/
def fetchDeltaList (q : DeltaQuery) (answers : Nat → DeltaAnswer) :
    DeltaState × Except DeltaError Unit :=
  let chunks := bucketChunks q.buckets (some q.since) bucketRequestBodyBudget
  fetchDeltaChunks q answers chunks.length 0 chunks .start

/-- `fetch_bucket_delta_inner`, with the state at its end. -/
def fetchBucketDelta (q : DeltaQuery) (answers : Nat → DeltaAnswer) :
    DeltaState × Except DeltaError MappingDelta :=
  let (st, res) := fetchDeltaList q answers
  (st, res.map fun _ => ⟨protocolVersion, st.cursor, st.changes⟩)

/-! ## What requests do -/

/-- The windows that got a reply, with their replies. -/
def answered (log : List ((Nat × Nat) × DeltaAnswer)) : List ((Nat × Nat) × MappingDelta) :=
  log.filterMap fun e =>
    match e.2 with
    | .ok delta _ => some (e.1, delta)
    | _ => none

theorem answered_append (a b : List ((Nat × Nat) × DeltaAnswer)) :
    answered (a ++ b) = answered a ++ answered b :=
  List.filterMap_append

/-- What the requests of a part of a fetch do, `new` being what they add to the log. -/
structure Served (q : DeltaQuery) (answers : Nat → DeltaAnswer)
    (new : List ((Nat × Nat) × DeltaAnswer)) (st st' : DeltaState) (res : Except DeltaError Unit) :
    Prop where
  log : st'.log = st.log ++ new
  logged : ∀ i (hi : i < new.length), new[i].2 = answers (st.log.length + i)
  gathered : res = .ok () →
    st'.cursor = ((answered new).map fun d => d.2.cursor).foldl min st.cursor ∧
      st'.changes = st.changes ++ (answered new).flatMap fun d => d.2.changes
  refused : ∀ e ∈ new, e.2 = .status413 → e.1.2 - e.1.1 ≤ 1 →
    res = .error (.bucketTooLarge (q.key e.1.1) q.prefixBits)

section

variable {q : DeltaQuery} {answers : Nat → DeltaAnswer} {st st₁ st₂ : DeltaState}
  {new new₁ new₂ : List ((Nat × Nat) × DeltaAnswer)} {res : Except DeltaError Unit}

namespace Served

theorem nil (q : DeltaQuery) (answers : Nat → DeltaAnswer) (st : DeltaState) :
    Served q answers [] st st (.ok ()) where
  log := by simp
  logged := by simp
  gathered := by simp [answered]
  refused := by simp

theorem append (h₁ : Served q answers new₁ st st₁ (.ok ())) (h₂ : Served q answers new₂ st₁ st₂ res) :
    Served q answers (new₁ ++ new₂) st st₂ res where
  log := by rw [h₂.log, h₁.log, List.append_assoc]
  logged := by
    intro i hi
    by_cases hfirst : i < new₁.length
    · rw [List.getElem_append_left hfirst]
      exact h₁.logged i hfirst
    · have hlength : st₁.log.length = st.log.length + new₁.length := by
        rw [h₁.log, List.length_append]
      rw [List.length_append] at hi
      rw [List.getElem_append_right (by omega), h₂.logged _ (by omega), hlength]
      congr 1
      omega
  gathered := by
    intro hres
    obtain ⟨hcursor₁, hchanges₁⟩ := h₁.gathered rfl
    obtain ⟨hcursor₂, hchanges₂⟩ := h₂.gathered hres
    rw [answered_append]
    constructor
    · rw [hcursor₂, hcursor₁, List.map_append, List.foldl_append]
    · rw [hchanges₂, hchanges₁, List.flatMap_append, List.append_assoc]
  refused := by
    intro e he h413 hsingle
    rcases List.mem_append.1 he with he | he
    · have habsurd := h₁.refused e he h413 hsingle
      cases habsurd
    · exact h₂.refused e he h413 hsingle

/-- A request that is sent again in halves. -/
theorem resent {w : Nat × Nat} (hanswer : answers st.log.length = .status413)
    (hlarge : ¬ w.2 - w.1 ≤ 1) :
    Served q answers [(w, answers st.log.length)] st
      { st with log := st.log ++ [(w, answers st.log.length)] } (.ok ()) where
  log := rfl
  logged := by
    intro i hi
    rw [List.length_singleton] at hi
    obtain rfl : i = 0 := by omega
    rfl
  gathered := by simp [answered, hanswer]
  refused := by
    intro e he _ hsmall
    rw [List.mem_singleton.1 he] at hsmall
    exact absurd hsmall hlarge

/-- One request that is not sent again in halves. -/
theorem single {w : Nat × Nat} {st' : DeltaState}
    (hlog : st'.log = st.log ++ [(w, answers st.log.length)])
    (hgathered : res = .ok () → ∃ delta bodyLen, answers st.log.length = .ok delta bodyLen ∧
      st'.cursor = min st.cursor delta.cursor ∧ st'.changes = st.changes ++ delta.changes)
    (hrefused : answers st.log.length = .status413 → w.2 - w.1 ≤ 1 →
      res = .error (.bucketTooLarge (q.key w.1) q.prefixBits)) :
    Served q answers [(w, answers st.log.length)] st st' res where
  log := hlog
  logged := by
    intro i hi
    rw [List.length_singleton] at hi
    obtain rfl : i = 0 := by omega
    rfl
  gathered := by
    intro hres
    obtain ⟨delta, bodyLen, hanswer, hcursor, hchanges⟩ := hgathered hres
    simp [answered, hanswer, hcursor, hchanges]
  refused := by
    intro e he
    rw [List.mem_singleton.1 he]
    exact hrefused

end Served

theorem receive_ok {chunk total bodyLen : Nat} {delta : MappingDelta}
    (h : (st.receive q chunk total delta bodyLen).2 = .ok ()) :
    (st.receive q chunk total delta bodyLen).1.cursor = min st.cursor delta.cursor ∧
      (st.receive q chunk total delta bodyLen).1.changes = st.changes ++ delta.changes := by
  unfold DeltaState.receive at h ⊢
  cases hversion : ensureSupported delta.version with
  | error message =>
    simp only [hversion] at h
    cases h
  | ok _ =>
    simp only [hversion] at h ⊢
    split
    · rename_i hcap
      rw [if_pos hcap] at h
      cases h
    · exact ⟨rfl, rfl⟩

theorem receive_log (st : DeltaState) (q : DeltaQuery) (chunk total : Nat) (delta : MappingDelta)
    (bodyLen : Nat) : (st.receive q chunk total delta bodyLen).1.log = st.log := by
  unfold DeltaState.receive
  cases ensureSupported delta.version with
  | error message => rfl
  | ok _ =>
    simp only
    split <;> rfl

/-- Windows that cover a range: a tiling of it, or the range itself where it is empty. -/
structure Covers (lo hi : Nat) (ws : List (Nat × Nat)) : Prop where
  tiles : lo < hi → Tiles lo hi ws
  empty : ¬ lo < hi → ws = [(lo, hi)]

theorem Covers.ne_nil {lo hi : Nat} {ws : List (Nat × Nat)} (h : Covers lo hi ws) : ws ≠ [] := by
  by_cases hlt : lo < hi
  · rintro rfl
    have heq : lo = hi := h.tiles hlt
    omega
  · simp [h.empty hlt]

theorem Covers.le {hi : Nat} {ws : List (Nat × Nat)} (h : Covers 0 hi ws) : ∀ w ∈ ws, w.2 ≤ hi := by
  intro w hw
  by_cases hlt : 0 < hi
  · exact ((h.tiles hlt).bounds w hw).2.2
  · rw [h.empty hlt, List.mem_singleton] at hw
    rw [hw]

theorem Covers.single (lo hi : Nat) : Covers lo hi [(lo, hi)] where
  tiles := fun hlt => Tiles.cons (b := hi) rfl hlt
  empty := fun _ => rfl

/-- One chunk, through all its bisections: on success the requests that got a reply cover it. -/
theorem fetchDeltaChunk_served (q : DeltaQuery) (answers : Nat → DeltaAnswer)
    (chunk total lo hi : Nat) (st : DeltaState) : ∃ new,
      Served q answers new st (fetchDeltaChunk q answers chunk total lo hi st).1
        (fetchDeltaChunk q answers chunk total lo hi st).2 ∧
      ((fetchDeltaChunk q answers chunk total lo hi st).2 = .ok () →
        Covers lo hi ((answered new).map Prod.fst)) := by
  fun_induction fetchDeltaChunk q answers chunk total lo hi st with
  | case1 lo hi st sent delta bodyLen hanswer =>
    refine ⟨[((lo, hi), answers st.log.length)], .single ?_ ?_ ?_, fun _ => ?_⟩
    · exact receive_log sent q chunk total delta bodyLen
    · intro hres
      obtain ⟨hcursor, hchanges⟩ := receive_ok hres
      exact ⟨delta, bodyLen, hanswer, hcursor, hchanges⟩
    · intro h413
      rw [hanswer] at h413
      cases h413
    · simpa [answered, hanswer] using Covers.single lo hi
  | case2 lo hi st sent hanswer =>
    refine ⟨[((lo, hi), answers st.log.length)], .single rfl (by simp) ?_, by simp⟩
    intro h413
    rw [hanswer] at h413
    cases h413
  | case3 lo hi st sent hanswer hsmall =>
    exact ⟨[((lo, hi), answers st.log.length)], .single rfl (by simp) fun _ _ => rfl, by simp⟩
  | case4 lo hi st sent hanswer hlarge st' e hfirst ih =>
    obtain ⟨new, hserved, _⟩ := ih
    rw [hfirst] at hserved
    exact ⟨_, (Served.resent (w := (lo, hi)) hanswer hlarge).append hserved, by simp⟩
  | case5 lo hi st sent hanswer hlarge st' hfirst ih₁ ih₂ =>
    obtain ⟨new₁, hserved₁, hcovers₁⟩ := ih₁
    obtain ⟨new₂, hserved₂, hcovers₂⟩ := ih₂
    rw [hfirst] at hserved₁ hcovers₁
    refine ⟨_, (Served.resent (w := (lo, hi)) hanswer hlarge).append (hserved₁.append hserved₂),
      fun hres => ?_⟩
    -- both halves are ranges of at least one key
    have hlow := (hcovers₁ rfl).tiles (by omega)
    have hhigh := (hcovers₂ hres).tiles (by omega)
    have hnone : answered [((lo, hi), answers st.log.length)] = [] := by
      simp [answered, hanswer]
    rw [answered_append, hnone, List.nil_append, answered_append, List.map_append]
    exact ⟨fun _ => hlow.append hhigh, fun hempty => absurd hlarge (by omega)⟩
  | case6 lo hi st sent hanswer =>
    refine ⟨[((lo, hi), answers st.log.length)], .single rfl (by simp) ?_, by simp⟩
    intro h413
    rw [hanswer] at h413
    cases h413

/-- The chunks of a tiling, one after the other. -/
theorem fetchDeltaChunks_served (q : DeltaQuery) (answers : Nat → DeltaAnswer) (total chunk : Nat)
    {lo hi : Nat} {ws : List (Nat × Nat)} (hws : Tiles lo hi ws) (st : DeltaState) : ∃ new,
      Served q answers new st (fetchDeltaChunks q answers total chunk ws st).1
        (fetchDeltaChunks q answers total chunk ws st).2 ∧
      ((fetchDeltaChunks q answers total chunk ws st).2 = .ok () →
        Tiles lo hi ((answered new).map Prod.fst)) := by
  induction ws generalizing lo chunk st with
  | nil => exact ⟨[], .nil q answers st, fun _ => hws⟩
  | cons w ws ih =>
    obtain ⟨rfl, hlt, hrest⟩ := hws
    obtain ⟨new₁, hserved₁, hcovers₁⟩ := fetchDeltaChunk_served q answers chunk total w.1 w.2 st
    cases hfirst : fetchDeltaChunk q answers chunk total w.1 w.2 st with
    | mk st' res =>
      rw [hfirst] at hserved₁ hcovers₁
      cases res with
      | error e =>
        simp only [fetchDeltaChunks, hfirst]
        exact ⟨new₁, hserved₁, by simp⟩
      | ok _ =>
        obtain ⟨new₂, hserved₂, htiles₂⟩ := ih (chunk + 1) hrest st'
        simp only [fetchDeltaChunks, hfirst]
        refine ⟨new₁ ++ new₂, hserved₁.append hserved₂, fun hres => ?_⟩
        rw [answered_append, List.map_append]
        exact ((hcovers₁ rfl).tiles hlt).append (htiles₂ hres)

/-- The whole list; a list of no keys is one request. -/
theorem fetchDeltaList_served (q : DeltaQuery) (answers : Nat → DeltaAnswer) : ∃ new,
    Served q answers new .start (fetchDeltaList q answers).1 (fetchDeltaList q answers).2 ∧
      ((fetchDeltaList q answers).2 = .ok () →
        Covers 0 q.buckets.length ((answered new).map Prod.fst)) := by
  unfold fetchDeltaList
  generalize hchunks : bucketChunks q.buckets (some q.since) bucketRequestBodyBudget = chunks
  by_cases hnil : q.buckets = []
  · rw [bucketChunks, if_pos hnil] at hchunks
    subst hchunks
    obtain ⟨new, hserved, hcovers⟩ := fetchDeltaChunk_served q answers 0 1 0 0 .start
    refine ⟨new, ?_⟩
    rw [hnil]
    cases hfirst : fetchDeltaChunk q answers 0 1 0 0 .start with
    | mk st' res =>
      rw [hfirst] at hserved hcovers
      cases res with
      | error e => simpa [fetchDeltaChunks, hfirst] using hserved
      | ok _ => simpa [fetchDeltaChunks, hfirst] using ⟨hserved, hcovers rfl⟩
  · rw [bucketChunks, if_neg hnil] at hchunks
    have htiles : Tiles 0 q.buckets.length chunks := by
      rw [← hchunks]
      exact tiles_bucketChunksFrom _ _ (Nat.zero_le _)
    have hpos := List.length_pos_iff.2 hnil
    obtain ⟨new, hserved, hcovers⟩ :=
      fetchDeltaChunks_served q answers chunks.length 0 htiles .start
    exact ⟨new, hserved, fun hres => ⟨fun _ => hcovers hres, fun h => absurd hpos h⟩⟩

/-! ## Keys and their cursors -/

/-- The pairs of a request, each key with the cursor it is asked from. -/
def BucketRequest.pairs (r : BucketRequest) : List (String × U64) := r.buckets.zip (r.since.getD [])

theorem request_since (hsince : q.since.length = q.buckets.length) {w : Nat × Nat}
    (hw : w.2 ≤ q.buckets.length) :
    (q.request w).since = some ((q.since.drop w.1).take (w.2 - w.1)) := by
  simp [DeltaQuery.request, chunkRequest, sinceSlice, hsince, hw]

theorem pairs_request (hsince : q.since.length = q.buckets.length) {w : Nat × Nat}
    (hw : w.2 ≤ q.buckets.length) :
    (q.request w).pairs = ((q.buckets.zip q.since).drop w.1).take (w.2 - w.1) := by
  rw [BucketRequest.pairs, request_since hsince hw, Option.getD_some, List.zip_eq_zipWith, List.zip_eq_zipWith,
    List.drop_zipWith, List.take_zipWith]
  rfl

theorem Covers.flatMap_pairs (hsince : q.since.length = q.buckets.length) {ws : List (Nat × Nat)}
    (h : Covers 0 q.buckets.length ws) :
    (ws.flatMap fun w => (q.request w).pairs) = q.buckets.zip q.since := by
  by_cases hpos : 0 < q.buckets.length
  · have htiles := h.tiles hpos
    have hslices : (ws.flatMap fun w => (q.request w).pairs) =
        ws.flatMap fun w => ((q.buckets.zip q.since).drop w.1).take (w.2 - w.1) := by
      apply List.flatMap_congr
      intro w hw
      exact pairs_request hsince (htiles.bounds w hw).2.2
    rw [hslices, htiles.flatMap_take]
    simp [hsince]
  · have hnil : q.buckets = [] := List.length_eq_zero_iff.1 (by omega)
    rw [h.empty hpos]
    simp [BucketRequest.pairs, DeltaQuery.request, chunkRequest, slice, hnil]

/-- **A fetch that succeeds asked for each key with its cursor.** Whatever the server answers, the
requests that got a reply on a successful fetch cover the keys once and in order, each key with its
own cursor; the changes are those of the replies in order, and the cursor is the least of theirs.
A single key that gets 413 fails the fetch. -/
theorem fetchBucketDelta_keeps_cursors (q : DeltaQuery) (answers : Nat → DeltaAnswer)
    (hsince : q.since.length = q.buckets.length) :
    let (st, res) := fetchBucketDelta q answers
    (∀ i (hi : i < st.log.length), st.log[i].2 = answers i) ∧
    (∀ delta, res = .ok delta →
      (∀ i, i < q.buckets.length → ∃! w, w ∈ (answered st.log).map Prod.fst ∧ w.1 ≤ i ∧ i < w.2) ∧
      (∀ d ∈ answered st.log, ∃ since, (q.request d.1).since = some since ∧
        since.length = (q.request d.1).buckets.length) ∧
      ((answered st.log).flatMap fun d => (q.request d.1).pairs) = q.buckets.zip q.since ∧
      delta.changes = ((answered st.log).flatMap fun d => d.2.changes) ∧
      IsLeast { c | ∃ d ∈ answered st.log, d.2.cursor = c } delta.cursor) ∧
    ∀ e ∈ st.log, e.2 = .status413 → e.1.2 - e.1.1 ≤ 1 →
      res = .error (.bucketTooLarge (q.key e.1.1) q.prefixBits) := by
  obtain ⟨new, hserved, hcovers⟩ := fetchDeltaList_served q answers
  unfold fetchBucketDelta
  cases hlist : fetchDeltaList q answers with
  | mk st res =>
    rw [hlist] at hserved hcovers
    have hlog : st.log = new := by simpa [DeltaState.start] using hserved.log
    subst hlog
    refine ⟨?_, ?_, ?_⟩
    · intro i hi
      simpa [DeltaState.start] using hserved.logged i hi
    · intro delta hdelta
      obtain ⟨_, rfl, rfl⟩ := Lib.map_eq_ok_iff.1 hdelta
      have hcover := hcovers rfl
      obtain ⟨hcursor, hchanges⟩ := hserved.gathered rfl
      refine ⟨?_, ?_, ?_, hchanges, ?_⟩
      · intro i hi
        exact (hcover.tiles (by omega)).existsUnique (Nat.zero_le i) hi
      · intro d hd
        have hle : d.1.2 ≤ q.buckets.length := hcover.le d.1 (List.mem_map_of_mem hd)
        refine ⟨_, request_since hsince hle, ?_⟩
        simp [DeltaQuery.request, chunkRequest, slice, hsince]
      · rw [← hcover.flatMap_pairs hsince, List.flatMap_map]
      · have hne : (answered st.log).map (fun d => d.2.cursor) ≠ [] := by
          have := hcover.ne_nil
          simpa using this
        have hleast := isLeast_foldl_min hne
        change IsLeast _ st.cursor
        rw [hcursor]
        change IsLeast _ (List.foldl min (Fin.last _) _)
        simpa only [List.mem_map] using hleast
    · intro e he h413 hsmall
      have herror := hserved.refused e he h413 hsmall
      simp only at herror ⊢
      rw [herror]
      rfl

/-- Two keys that are too much for one reply. -/
def twoKeys : DeltaQuery := ⟨24, ["a", "b"], [5, 9], none, 100⟩

def secondTry : Nat → DeltaAnswer
  | 0 => .status413
  | 1 => .ok ⟨8, 7, []⟩ 10
  | _ => .ok ⟨8, 6, []⟩ 10

theorem fetchBucketDelta_twoKeys :
    (fetchBucketDelta twoKeys secondTry).1.log.length = 3 ∧
      ((answered (fetchBucketDelta twoKeys secondTry).1.log).flatMap fun d =>
        (twoKeys.request d.1).pairs) = [("a", 5), ("b", 9)] := by
  have hok : (fetchBucketDelta twoKeys secondTry).2 = .ok ⟨protocolVersion, 6, []⟩ := by
    decide +kernel
  refine ⟨by decide +kernel, ?_⟩
  obtain ⟨_, hsuccess, _⟩ := fetchBucketDelta_keeps_cursors twoKeys secondTry rfl
  exact (hsuccess _ hok).2.2.1

end
end Netproto
end Naiad
