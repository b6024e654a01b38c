import Mathlib.Data.List.Dedup
import Naiad.Netproto.Sign
import Naiad.Server.Body
import Naiad.Server.Write

/-!
# Naiad.Server.Charge

The handler of a bucket request, the charge its reads add up to, and the length of the body it
answers with. Rows are charged at the raw length of their tags; the body escapes them.

* `answer_json`: a plain answer is given exactly when its reads fit the budget.
* `body_within_budget_iff`: **every answer stays within its budget exactly when the escapes of the
  tags take no more than the charge has to spare**.
-/

namespace Naiad
namespace Netproto

/-- `str::parse::<HashDomain>`, after trimming. -/
def HashDomain.parse (s : List Char) : Option HashDomain :=
  if String.ofList (s.map Char.toLower) = "blake3" then some .blake3
  else if String.ofList (s.map Char.toLower) = "sha256" then some .sha256
  else none

inductive DomainError
  | unrecognized (requested : String) (served : List HashDomain)
  | notServed (requested : HashDomain) (served : List HashDomain)
deriving DecidableEq

/-- The domain a request asks for; a missing or blank one is the fallback. -/
def resolveDomain (u : Unicode) (requested : Option String) (served : List HashDomain)
    (fallback : HashDomain) : Except DomainError HashDomain :=
  match requested with
  | none => .ok fallback
  | some raw =>
    if u.trim raw.toList = [] then .ok fallback
    else
      match HashDomain.parse (u.trim raw.toList) with
      | none => .error (.unrecognized (String.ofList (u.trim raw.toList)) served)
      | some domain =>
        if domain ∈ served then .ok domain else .error (.notServed domain served)

end Netproto

namespace Server

open Lib Netproto

/-! ## The handler -/

inductive Sha256Backend
  | snapshot (backend : SnapshotBackend)
  | sidecar (backend : Sidecar)

def Sha256Backend.source (maxQueryBits : Nat) : Sha256Backend → BucketSource
  | .snapshot backend => .snapshot backend maxQueryBits
  | .sidecar backend => .sidecar backend maxQueryBits

/-- What a request is served from, with the store as its read transaction finds it. -/
structure RepoState where
  unicode : Unicode
  store : RepoStore
  native : HashDomain
  addedSha256 : Option Sha256Backend
  minQueryBits : Nat
  maxQueryBits : Nat
  bucketBudget : Nat

/-- The domains served, native first. -/
def RepoState.served (st : RepoState) : List HashDomain :=
  st.native :: if st.addedSha256.isSome ∧ st.native ≠ .sha256 then [.sha256] else []

inductive HandlerError
  | unsupportedVersion (message : String)
  | sinceLength
  | domain (e : DomainError)
  | belowFloor (minQueryBits maxQueryBits got : Nat)
  | sinceUnsupported (domain : HashDomain)
  | keys (e : BucketsError)
  | budgetExceeded
  | internal
deriving DecidableEq

/-- What a valid request reads. -/
inductive Asked
  | snapshot (src : BucketSource) (bits : Nat) (keys : List String)
  | stream (src : BucketSource) (bits : Nat) (keys : List String) (resumeAt : Option String)
  | delta (store : RepoStore) (bits : Nat) (buckets : List (Hash × Nat))

/-- A request to an added domain. -/
def routeAdded (st : RepoState) (domain : HashDomain) (req : BucketRequest) :
    Except HandlerError Asked :=
  match st.addedSha256 with
  | none => .error (.domain (.notServed domain st.served))
  | some backend =>
    if req.since.isSome then .error (.sinceUnsupported domain)
    else
      match parseBuckets req.buckets with
      | .error e => .error (.keys e)
      | .ok los =>
        let src := backend.source st.maxQueryBits
        let bits := src.queryBits req.prefixBits
        .ok (if req.stream then .stream src bits (maskedBuckets bits los) req.resumeAt
          else .snapshot src bits (materializedKeys src bits los))

/-- A request to the native domain; a delta is never streamed. -/
def routeNative (st : RepoState) (req : BucketRequest) : Except HandlerError Asked :=
  match parseBuckets req.buckets with
  | .error e => .error (.keys e)
  | .ok los =>
    let src := BucketSource.native st.store
    let bits := src.queryBits req.prefixBits
    match req.since with
    | none =>
      .ok (if req.stream then .stream src bits (maskedBuckets bits los) req.resumeAt
        else .snapshot src bits (materializedKeys src bits los))
    | some since => .ok (.delta st.store bits (los.zip (since.map Fin.val)))

/-- The checks of `buckets_handler`, and what is then read. -/
def route (st : RepoState) (version : Nat) (req : BucketRequest) : Except HandlerError Asked :=
  match ensureSupported version with
  | .error message => .error (.unsupportedVersion message)
  | .ok () =>
    if req.since.any (fun l => l.length ≠ req.buckets.length) then .error .sinceLength
    else
      match resolveDomain st.unicode req.domain st.served st.native with
      | .error e => .error (.domain e)
      | .ok domain =>
        if domain = .sha256 ∧ req.prefixBits < st.minQueryBits then
          .error (.belowFloor st.minQueryBits st.maxQueryBits req.prefixBits)
        else if domain ≠ st.native then routeAdded st domain req
        else routeNative st req

inductive BucketsBody
  | json (r : BucketsResponse)
  | stream (r : StreamResponse)

/-- The reads, under one budget. -/
def answer (budget : Nat) : Asked → Except HandlerError BucketsBody
  | .snapshot src bits keys =>
    match materialize src bits budget ∅ keys with
    | .error (.budgetExceeded _) => .error .budgetExceeded
    | .error .internal => .error .internal
    | .ok tags => .ok (.json (.snapshot src.cursor.val tags))
  | .stream src bits keys resumeAt =>
    let out := serve src bits budget false (resumeFrom resumeAt keys)
    .ok (.stream ⟨⟨src.cursor⟩, out.1, out.2⟩)
  | .delta store bits buckets =>
    match store.deltaBuckets bits budget [] buckets with
    | .error _ => .error .budgetExceeded
    | .ok changes => .ok (.json (.delta (BucketSource.native store).cursor.val changes))

/-- `POST /repo/buckets` -/
def bucketsHandler (st : RepoState) (version : Nat) (req : BucketRequest) :
    Except HandlerError BucketsBody :=
  match route st version req with
  | .error e => .error e
  | .ok asked => answer st.bucketBudget asked

/-! ## Charges -/

/-- The least budget that a run of buckets fits, each with the budget it fits alone and what it
then takes from the budget. -/
def need : List (Nat × Nat) → Nat
  | [] => 0
  | b :: bs => max b.1 (if need bs = 0 then 0 else b.2 + need bs)

theorem need_cons_le {b : Nat × Nat} {bs : List (Nat × Nat)} {n : Nat} :
    need (b :: bs) ≤ n ↔ b.1 ≤ n ∧ need bs ≤ n - b.2 := by
  rw [need, Nat.max_le]
  split <;> omega

/-- The buckets up to the last one that has rows. -/
def usedLen : List (List Nat) → Nat
  | [] => 0
  | costs :: rest => if costs = [] ∧ usedLen rest = 0 then 0 else usedLen rest + 1

/-- What buckets charge with so much for the envelope of each. -/
def charges (envelope : Nat) (buckets : List (List Nat)) : List (Nat × Nat) :=
  buckets.map fun costs => (threshold envelope costs, envelope + costs.sum)

theorem sum_pos {costs : List Nat} (hpos : ∀ c ∈ costs, 0 < c) (hne : costs ≠ []) :
    0 < costs.sum := by
  obtain ⟨c, hc⟩ := List.exists_mem_of_ne_nil costs hne
  exact lt_of_lt_of_le (hpos c hc) (List.single_le_sum (fun _ _ => Nat.zero_le _) c hc)

/-- No bucket has rows exactly when nothing is charged for any. -/
theorem usedLen_eq_zero {buckets : List (List Nat)}
    (hpos : ∀ costs ∈ buckets, ∀ c ∈ costs, 0 < c) :
    usedLen buckets = 0 ↔ (buckets.map List.sum).sum = 0 := by
  induction buckets with
  | nil => simp [usedLen]
  | cons costs rest ih =>
    have hrest := ih fun l hl => hpos l (List.mem_cons_of_mem _ hl)
    rw [usedLen, List.map_cons, List.sum_cons, Nat.add_eq_zero_iff, ← hrest]
    by_cases hnil : costs = []
    · simp [hnil]
    · have := sum_pos (hpos costs (by simp)) hnil
      simp [hnil]
      omega

/-- The charge of rows that cost something. -/
theorem need_charges (envelope : Nat) {buckets : List (List Nat)}
    (hpos : ∀ costs ∈ buckets, ∀ c ∈ costs, 0 < c) :
    need (charges envelope buckets) =
      envelope * usedLen buckets + (buckets.map List.sum).sum := by
  induction buckets with
  | nil => rfl
  | cons costs rest ih =>
    have htail := fun l hl => hpos l (List.mem_cons_of_mem costs hl)
    have hzero := usedLen_eq_zero htail
    have hneed := ih htail
    change max (threshold envelope costs) (if need (charges envelope rest) = 0 then 0
      else envelope + costs.sum + need (charges envelope rest)) = _
    rw [usedLen, List.map_cons, List.sum_cons, hneed]
    by_cases hused : usedLen rest = 0
    · rw [hused, hzero.1 hused]
      by_cases hnil : costs = []
      · simp [hnil, threshold]
      · simp [hnil, threshold]
    · have htotal : (rest.map List.sum).sum ≠ 0 := fun h => hused (hzero.2 h)
      have hle : threshold envelope costs ≤ envelope + costs.sum := by
        rw [threshold]
        split <;> omega
      rw [if_neg (by omega), if_neg (by simp [hused]), Nat.mul_succ]
      omega

/-! ## What the sources charge -/

/-- Every tag that the sidecar defines is the text of a parsed tag. -/
def Sidecar.Parsed (u : Unicode) (sc : Sidecar) : Prop :=
  ∀ e ∈ sc.defsTags.entries, ∃ text tag, Tag.parse u text = .ok tag ∧ e.2 = tag.display

def RepoState.Parsed (st : RepoState) : Prop :=
  ∀ sc, st.addedSha256 = some (.sidecar sc) → sc.Parsed st.unicode

theorem byteLen_pos {s : String} (h : s ≠ "") : 0 < byteLen s := by
  have hne : s.toList ≠ [] := fun hnil => h (String.toList_eq_nil_iff.1 hnil)
  obtain ⟨c, hc⟩ := List.exists_mem_of_ne_nil _ hne
  have hmem : c.utf8Size ∈ s.toList.map Char.utf8Size := List.mem_map.2 ⟨c, hc, rfl⟩
  exact lt_of_lt_of_le c.utf8Size_pos (List.single_le_sum (fun _ _ => Nat.zero_le _) _ hmem)

theorem display_ne_empty {u : Unicode} {text : String} {tag : Tag} (h : Tag.parse u text = .ok tag) :
    tag.display ≠ "" := by
  obtain ⟨hsub, rfl⟩ := Tag.parse_eq_ok h
  unfold Tag.display
  split
  · split
    · simp
    · exact hsub
  · simp

namespace BucketSource

/-- Charged once for each bucket of the store, and not at all by the added backends. -/
def envelope : BucketSource → Nat
  | .native _ => responseEnvelopeOverhead
  | .snapshot _ _ => 0
  | .sidecar _ _ => 0

/-- The costs of the rows that a read of a bucket charges. -/
def rowCosts (src : BucketSource) (bits : Nat) (key : String) : List Nat :=
  match src with
  | .native store => (nativeRows store bits key).map fun r => rowCost r.2.tag r.2.origin
  | .snapshot backend _ => (bucketPairs backend.pairs bits key).map pairCost
  | .sidecar backend _ => (bucketPairs backend.pairs bits key).map pairCost

/-- No tag is the empty text. -/
def NoEmpty : BucketSource → Prop
  | .native _ => True
  | .snapshot _ _ => True
  | .sidecar backend _ => ∀ p ∈ backend.pairs, p.2 ≠ ""

theorem rowCosts_pos {src : BucketSource} {bits : Nat} {key : String} :
    ∀ c ∈ src.rowCosts bits key, 0 < c := by
  have hrow : ∀ k n, 0 < approxRowCost k n := by
    intro k n
    simp [approxRowCost, bucketRowOverhead]
  intro c hc
  cases src with
  | native store =>
    obtain ⟨r, _, rfl⟩ := List.mem_map.1 hc
    exact hrow _ _
  | snapshot backend maxQueryBits =>
    obtain ⟨p, _, rfl⟩ := List.mem_map.1 hc
    exact hrow _ _
  | sidecar backend maxQueryBits =>
    obtain ⟨p, _, rfl⟩ := List.mem_map.1 hc
    exact hrow _ _

theorem spent_eq (src : BucketSource) (bits : Nat) (key : String) :
    src.spent bits key = src.envelope + (src.rowCosts bits key).sum := by
  cases src <;> rfl

/-- The first pass of a sidecar never charges more than the second. -/
theorem cost_eq {src : BucketSource} (hsrc : src.NoEmpty) (bits : Nat) (key : String) :
    src.cost bits key = threshold src.envelope (src.rowCosts bits key) := by
  cases src with
  | native store => rfl
  | snapshot backend maxQueryBits => rfl
  | sidecar backend maxQueryBits =>
    refine max_eq_right ?_
    have hpairs : ∀ p ∈ bucketPairs backend.pairs bits key, approxRowCost 64 1 ≤ pairCost p := by
      intro p hp
      have := byteLen_pos (hsrc p (List.mem_filter.1 hp).1)
      rw [pairCost, approxRowCost, approxRowCost]
      omega
    have hsum := List.sum_le_sum hpairs
    unfold threshold
    by_cases hnil : bucketPairs backend.pairs bits key = []
    · simp [hnil]
    · simpa [hnil] using hsum

theorem charges_eq {src : BucketSource} (hsrc : src.NoEmpty) (bits : Nat) (keys : List String) :
    keys.map (fun b => (src.cost bits b, src.spent bits b)) =
      charges src.envelope (keys.map (src.rowCosts bits)) := by
  rw [charges, List.map_map]
  apply List.map_congr_left
  intro b _
  rw [cost_eq hsrc, spent_eq]
  rfl

end BucketSource

theorem Sidecar.Parsed.noEmpty {u : Unicode} {sc : Sidecar} (h : sc.Parsed u) :
    ∀ p ∈ sc.pairs, p.2 ≠ "" := by
  intro p hp
  obtain ⟨e, _, hp⟩ := List.mem_flatMap.1 hp
  obtain ⟨id, _, hp⟩ := List.mem_filterMap.1 hp
  obtain ⟨tag, htag, rfl⟩ := Option.map_eq_some_iff.1 hp
  obtain ⟨text, t, hparse, heq⟩ := h _ (Table.mem_entries.2 htag)
  have hne := display_ne_empty hparse
  rwa [← heq] at hne

/-- The reads of a snapshot succeed exactly when the budget holds what they need. -/
theorem materialize_ok_iff {src : BucketSource} {bits : Nat} {bs : List String}
    (hbs : ∀ b ∈ bs, ∃ lo, b = bucketKey lo bits) (n : Nat) (tags : Table Hash (List OriginTag)) :
    (∃ out, materialize src bits n tags bs = .ok out) ↔
      need (bs.map fun b => (src.cost bits b, src.spent bits b)) ≤ n := by
  induction bs generalizing n tags with
  | nil => simp [materialize, need]
  | cons b bs ih =>
    obtain ⟨lo, rfl⟩ := hbs b (by simp)
    have hread := src.read_lawful lo bits n
    rw [List.map_cons, need_cons_le]
    by_cases hfits : src.cost bits (bucketKey lo bits) ≤ n
    · rw [if_pos hfits] at hread
      simp only [materialize, hread]
      rw [ih (fun b hb => hbs b (List.mem_cons_of_mem _ hb))]
      simp [hfits]
    · rw [if_neg hfits] at hread
      simp [materialize, hread, hfits]

/-- The changes of one bucket past its cursor. -/
def changesOf (store : RepoStore) (bits : Nat) (b : Hash × Nat) : List DeltaMapping :=
  store.deltaRows (bucketKey b.1 bits) (bucketUpper b.1 bits) b.2

def changeCosts (store : RepoStore) (bits : Nat) (b : Hash × Nat) : List Nat :=
  (changesOf store bits b).map fun d => rowCost d.tag d.origin

/-- The reads of a delta give all changes, exactly when the budget holds what they need. -/
theorem deltaBuckets_ok_iff (store : RepoStore) (bits : Nat) (bs : List (Hash × Nat)) (n : Nat)
    (changes out : List DeltaMapping) :
    store.deltaBuckets bits n changes bs = .ok out ↔
      out = changes ++ bs.flatMap (changesOf store bits) ∧
        need (charges responseEnvelopeOverhead (bs.map (changeCosts store bits))) ≤ n := by
  induction bs generalizing n changes with
  | nil => simp [RepoStore.deltaBuckets, charges, need, eq_comm]
  | cons b bs ih =>
    obtain ⟨lo, since⟩ := b
    have hread : store.bucketDelta (bucketKey lo bits) (bucketUpper lo bits) since n =
        if threshold responseEnvelopeOverhead (changeCosts store bits (lo, since)) ≤ n then
          .ok (changesOf store bits (lo, since),
            responseEnvelopeOverhead + (changeCosts store bits (lo, since)).sum)
        else .error ⟨n⟩ := by
      have hcosts : (store.deltaRows (bucketKey lo bits) (bucketUpper lo bits) since).map
          (fun r => rowCost r.tag r.origin) = changeCosts store bits (lo, since) := rfl
      rw [RepoStore.bucketDelta, hcosts, drain_eq_if]
      by_cases hfits : threshold responseEnvelopeOverhead (changeCosts store bits (lo, since)) ≤ n
      · rw [if_pos hfits, if_pos hfits]
        rfl
      · rw [if_neg hfits, if_neg hfits]
    rw [RepoStore.deltaBuckets, hread, List.map_cons, charges, List.map_cons, need_cons_le,
      ← charges]
    by_cases hfits : threshold responseEnvelopeOverhead (changeCosts store bits (lo, since)) ≤ n
    · simp only [if_pos hfits]
      rw [ih]
      simp [hfits]
    · simp [hfits]

/-! ## The rows of an answer -/

def tagCount (rows : List StreamRow) : Nat := (rows.map fun row => row.t.length).sum

/-- What rows cost, each charged once. -/
def answeredCost (rows : List StreamRow) : Nat :=
  (rows.map fun row => (row.t.map fun o => rowCost o.tag o.origin).sum).sum

theorem rowCost_eq (tag : String) (origin : Option String) :
    rowCost tag origin = 131 + byteLen tag + originCost origin := by
  rw [rowCost, approxRowCost, bucketRowOverhead]
  omega

theorem rowLen_add (row : StreamRow) (hne : row.t ≠ []) :
    rowLen byteLen row + 1 + 120 * row.t.length =
      69 + (row.t.map fun o => rowCost o.tag o.origin).sum := by
  have hsum : ∀ l : List OriginTag,
      (l.map fun o => 10 + byteLen o.tag + originCost o.origin).sum + 121 * l.length =
        (l.map fun o => rowCost o.tag o.origin).sum := by
    intro l
    induction l with
    | nil => rfl
    | cons o l ih =>
      simp only [List.map_cons, List.sum_cons, List.length_cons, rowCost_eq o.tag]
      omega
  have hpos := List.length_pos_iff.2 hne
  rw [rowLen, ← hsum]
  omega

/-- The length of a snapshot without escapes, from the cost of its rows. -/
theorem snapshotLen_add (cursor : Nat) {rows : List StreamRow} (hrows : rows ≠ [])
    (hne : ∀ row ∈ rows, row.t ≠ []) :
    snapshotLen byteLen cursor rows + 120 * tagCount rows =
      32 + decimalWidth cursor + 69 * rows.length + answeredCost rows := by
  have hsum : (rows.map (rowLen byteLen)).sum + rows.length + 120 * tagCount rows =
      69 * rows.length + answeredCost rows := by
    clear hrows
    induction rows with
    | nil => rfl
    | cons row rows ih =>
      have hrow := rowLen_add row (hne row (by simp))
      have hrest := ih fun r hr => hne r (List.mem_cons_of_mem _ hr)
      simp only [tagCount, answeredCost, List.map_cons, List.sum_cons, List.length_cons] at hrest ⊢
      omega
  have hpos := List.length_pos_iff.2 hrows
  rw [snapshotLen]
  omega

theorem deltaLen_add (cursor : Nat) {changes : List DeltaMapping} (hne : changes ≠ []) :
    deltaLen byteLen cursor changes + 20 * changes.length =
      35 + decimalWidth cursor + (changes.map fun d => decimalWidth d.seq).sum +
        (changes.map fun d => rowCost d.tag d.origin).sum := by
  have hsum : ∀ l : List DeltaMapping, (l.map (changeLen byteLen)).sum + 21 * l.length =
      (l.map fun d => decimalWidth d.seq).sum + (l.map fun d => rowCost d.tag d.origin).sum := by
    intro l
    induction l with
    | nil => rfl
    | cons d l ih =>
      simp only [List.map_cons, List.sum_cons, List.length_cons, changeLen, rowCost_eq d.tag]
      omega
  have hpos := List.length_pos_iff.2 hne
  have := hsum changes
  rw [deltaLen]
  omega

section

variable {src : BucketSource} {bits : Nat}

theorem mem_rowsOf {keys : List String} {row : StreamRow} :
    row ∈ rowsOf src bits keys ↔
      bucketKey row.h bits ∈ keys ∧
        (src.content bits (bucketKey row.h bits)).lookup row.h = some row.t := by
  rw [rowsOf, List.mem_flatMap]
  constructor
  · intro h
    obtain ⟨b, hb, hrow⟩ := h
    have hl := mem_streamRows.1 hrow
    have hin : row.h ∈ src.content bits b := AList.lookup_isSome.1 (by rw [hl]; rfl)
    have hkey : bucketKey row.h bits = b :=
      of_decide_eq_true (BucketSource.inBucket_of_mem_content hin)
    rw [hkey]
    exact ⟨hb, hl⟩
  · intro h
    exact ⟨_, h.1, mem_streamRows.2 h.2⟩

/-- The merged answer holds the rows of the buckets, each bucket once. -/
theorem perm_streamRows {keys : List String} {tags : Table Hash (List OriginTag)}
    (htags : ∀ h, tags.lookup h =
      if bucketKey h bits ∈ keys then (src.content bits (bucketKey h bits)).lookup h else none) :
    (streamRows tags).Perm (rowsOf src bits keys.dedup) := by
  have hleft : (streamRows tags).Nodup := List.Nodup.of_map _ (nodup_streamRows tags)
  have hright : (rowsOf src bits keys.dedup).Nodup :=
    List.Nodup.of_map _ (nodup_rowsOf keys.nodup_dedup)
  refine (List.perm_ext_iff_of_nodup hleft hright).2 fun row => ?_
  rw [mem_streamRows, mem_rowsOf, List.mem_dedup, htags]
  by_cases hk : bucketKey row.h bits ∈ keys
  · simp [hk]
  · simp [hk]

theorem sum_rows {V : Type} (t : Table Hash (List V)) (f : Hash × V → Nat) :
    ((Table.rows t).map f).sum = (t.entries.map fun e => (e.2.map fun v => f (e.1, v)).sum).sum := by
  rw [Table.rows, List.map_flatMap]
  induction t.entries with
  | nil => rfl
  | cons e l ih =>
    rw [List.flatMap_cons, List.sum_append, List.map_cons, List.sum_cons, ih, List.map_map]
    rfl

theorem answeredCost_streamRows (part : Table Hash (List OriginTag)) :
    answeredCost (streamRows part) =
      ((Table.rows part).map fun p => rowCost p.2.tag p.2.origin).sum := by
  have hperm := (perm_orderBy Sigma.fst part.entries).map
    fun e => (e.2.map fun o => rowCost o.tag o.origin).sum
  rw [answeredCost, streamRows, List.map_map, sum_rows]
  exact hperm.sum_nat

/-- Sorting and removing duplicates only takes rows away. -/
theorem groupSorted_cost_le (pairs : List (Hash × String)) :
    ((Table.rows (BucketSource.plain (groupSorted pairs))).map
        fun p => rowCost p.2.tag p.2.origin).sum ≤ (pairs.map pairCost).sum := by
  have hall := (Table.perm_rows_groupOnto (∅ : Table Hash (List String)) pairs).map pairCost
  have hpairs : ((Table.rows (Table.groupOnto ∅ pairs)).map pairCost).sum =
      (pairs.map pairCost).sum := hall.sum_nat
  rw [sum_rows] at hpairs ⊢
  rw [← hpairs]
  change (((((Table.groupOnto ∅ pairs).entries.map _).map _).map _).sum) ≤ _
  rw [List.map_map, List.map_map]
  refine List.sum_le_sum fun e _ => ?_
  have hle := sum_map_le (sortDedup_nodup e.2) (fun a ha => mem_sortDedup.1 ha)
    fun tag => rowCost tag none
  have hcost : ∀ tag, pairCost (e.1, tag) = rowCost tag none := fun _ => rfl
  simpa [Function.comp_def, hcost] using hle

/-- The rows of a bucket cost no more than its read charges. -/
theorem answeredCost_le (src : BucketSource) (bits : Nat) (key : String) :
    answeredCost (streamRows (src.content bits key)) ≤ (src.rowCosts bits key).sum := by
  rw [answeredCost_streamRows]
  cases src with
  | native store =>
    have hperm := (Table.perm_rows_groupOnto ∅ (BucketSource.nativeRows store bits key)).map
      fun p => rowCost p.2.tag p.2.origin
    exact le_of_eq hperm.sum_nat
  | snapshot backend maxQueryBits => exact groupSorted_cost_le _
  | sidecar backend maxQueryBits => exact groupSorted_cost_le _

theorem answeredCost_append (rows rows' : List StreamRow) :
    answeredCost (rows ++ rows') = answeredCost rows + answeredCost rows' := by
  simp [answeredCost]

theorem answeredCost_rowsOf_le (src : BucketSource) (bits : Nat) (keys : List String) :
    answeredCost (rowsOf src bits keys.dedup) ≤
      ((keys.map (src.rowCosts bits)).map List.sum).sum := by
  have hle : ∀ ks : List String, answeredCost (rowsOf src bits ks) ≤
      (ks.map fun k => (src.rowCosts bits k).sum).sum := by
    intro ks
    induction ks with
    | nil => exact le_refl _
    | cons k ks ih =>
      have hsplit : rowsOf src bits (k :: ks) =
        streamRows (src.content bits k) ++ rowsOf src bits ks := rfl
      rw [hsplit, answeredCost_append, List.map_cons, List.sum_cons]
      exact Nat.add_le_add (answeredCost_le src bits k) ih
  rw [List.map_map]
  exact (hle _).trans (sum_map_le keys.nodup_dedup (List.dedup_subset keys) _)

theorem content_ne_nil {key : String} {h : Hash} {os : List OriginTag}
    (hl : (src.content bits key).lookup h = some os) : os ≠ [] := by
  have hsorted : ∀ pairs, (BucketSource.plain (groupSorted pairs)).lookup h = some os → os ≠ [] := by
    intro pairs hl
    rw [BucketSource.lookup_plain, groupSorted, Table.lookup_modify] at hl
    simp only [Option.map_map, Option.map_eq_some_iff, Function.comp_apply] at hl
    obtain ⟨tags, htags, rfl⟩ := hl
    obtain ⟨tag, htag⟩ := List.exists_mem_of_ne_nil _ (Table.groupOnto_ne_nil htags)
    have hmem := mem_sortDedup.2 htag
    intro hnil
    rw [List.map_eq_nil_iff.1 hnil] at hmem
    cases hmem
  cases src with
  | native store => exact Table.groupOnto_ne_nil hl
  | snapshot backend maxQueryBits => exact hsorted _ hl
  | sidecar backend maxQueryBits => exact hsorted _ hl

end

/-! ## Answers within their budget -/

/-- The escapes of the answered tags take no more than the charge has to spare. Each tag of a
snapshot leaves 120 bytes, of which its hash takes 69; each row of a delta leaves 20, of which its
sequence number takes its digits; the store adds an envelope for each bucket up to the last one
with rows; what is charged again for rows that the answer has once is left over whole. -/
def Asked.Fits : Asked → Prop
  | .snapshot src bits keys =>
    let rows := rowsOf src bits keys.dedup
    let costs := keys.map (src.rowCosts bits)
    rowEscapes rows + (32 + decimalWidth src.cursor.val + 69 * rows.length) ≤
      120 * tagCount rows + src.envelope * usedLen costs +
        ((costs.map List.sum).sum - answeredCost rows)
  | .stream _ _ _ _ => True
  | .delta store bits buckets =>
    let changes := buckets.flatMap (changesOf store bits)
    (changes.map fun d => escapes d.tag).sum +
        (35 + decimalWidth (BucketSource.native store).cursor.val +
          (changes.map fun d => decimalWidth d.seq).sum) ≤
      20 * changes.length +
        responseEnvelopeOverhead * usedLen (buckets.map (changeCosts store bits))

/-- What a route makes sure of: masked keys, each of them once for an added domain. -/
def Asked.Lawful : Asked → Prop
  | .snapshot src bits keys =>
    src.NoEmpty ∧ (∀ b ∈ keys, ∃ lo, b = bucketKey lo bits) ∧
      ((∃ store, src = .native store) ∨ keys.Nodup)
  | .stream _ _ _ _ => True
  | .delta _ _ _ => True

section

variable {src : BucketSource} {bits : Nat}

/-- A bucket without rows charges nothing. -/
theorem rowCosts_eq_nil {keys : List String} (h : rowsOf src bits keys.dedup = []) :
    ∀ costs ∈ keys.map (src.rowCosts bits), costs = [] := by
  intro costs hcosts
  obtain ⟨key, hkey, rfl⟩ := List.mem_map.1 hcosts
  have hempty : ∀ h, h ∉ src.content bits key := by
    intro hash hmem
    obtain ⟨os, hos⟩ := Option.isSome_iff_exists.1 (AList.lookup_isSome.2 hmem)
    have hrow : (⟨hash, os⟩ : StreamRow) ∈ rowsOf src bits keys.dedup :=
      List.mem_flatMap.2 ⟨key, List.mem_dedup.2 hkey, mem_streamRows.2 hos⟩
    rw [h] at hrow
    cases hrow
  have hpairs : ∀ pairs, (∀ h, h ∉ BucketSource.plain (groupSorted pairs)) → pairs = [] := by
    intro pairs hnone
    refine List.eq_nil_iff_forall_not_mem.2 fun p hp => hnone p.1 ?_
    exact BucketSource.mem_groupSorted.2 ⟨p.2, hp⟩
  cases src with
  | native store =>
    refine List.map_eq_nil_iff.2 (List.eq_nil_iff_forall_not_mem.2 fun r hr => hempty r.1 ?_)
    exact (Table.mem_groupOnto _ _ _).2 (.inr ⟨r.2, hr⟩)
  | snapshot backend maxQueryBits => exact List.map_eq_nil_iff.2 (hpairs _ hempty)
  | sidecar backend maxQueryBits => exact List.map_eq_nil_iff.2 (hpairs _ hempty)

theorem fits_snapshot_iff (src : BucketSource) (bits : Nat) (keys : List String) :
    (Asked.snapshot src bits keys).Fits ↔
      snapshotLen jsonEscapedLen src.cursor.val (rowsOf src bits keys.dedup) ≤
        need (charges src.envelope (keys.map (src.rowCosts bits))) := by
  have hpos : ∀ costs ∈ keys.map (src.rowCosts bits), ∀ c ∈ costs, 0 < c := by
    intro costs hcosts
    obtain ⟨key, _, rfl⟩ := List.mem_map.1 hcosts
    exact BucketSource.rowCosts_pos
  rw [snapshotLen_escaped, need_charges _ hpos]
  simp only [Asked.Fits]
  by_cases hrows : rowsOf src bits keys.dedup = []
  · have hnil := rowCosts_eq_nil hrows
    have hsum : ((keys.map (src.rowCosts bits)).map List.sum).sum = 0 := by
      rw [List.sum_eq_zero_iff]
      intro n hn
      obtain ⟨costs, hcosts, rfl⟩ := List.mem_map.1 hn
      rw [hnil costs hcosts]
      rfl
    have hused := (usedLen_eq_zero hpos).2 hsum
    rw [hused, hsum, hrows]
    simp [snapshotLen, rowEscapes, tagCount]
  · have hne : ∀ row ∈ rowsOf src bits keys.dedup, row.t ≠ [] := fun row hrow =>
      content_ne_nil (mem_rowsOf.1 hrow).2
    have hlen := snapshotLen_add src.cursor.val hrows hne
    have hcost := answeredCost_rowsOf_le src bits keys
    omega

theorem fits_delta_iff (store : RepoStore) (bits : Nat) (buckets : List (Hash × Nat)) :
    (Asked.delta store bits buckets).Fits ↔
      deltaLen jsonEscapedLen (BucketSource.native store).cursor.val
          (buckets.flatMap (changesOf store bits)) ≤
        need (charges responseEnvelopeOverhead (buckets.map (changeCosts store bits))) := by
  have hpos : ∀ costs ∈ buckets.map (changeCosts store bits), ∀ c ∈ costs, 0 < c := by
    intro costs hcosts c hc
    obtain ⟨b, _, rfl⟩ := List.mem_map.1 hcosts
    obtain ⟨d, _, rfl⟩ := List.mem_map.1 hc
    rw [rowCost_eq]
    omega
  have hsum : ((buckets.map (changeCosts store bits)).map List.sum).sum =
      ((buckets.flatMap (changesOf store bits)).map fun d => rowCost d.tag d.origin).sum := by
    clear hpos
    induction buckets with
    | nil => rfl
    | cons b buckets ih =>
      rw [List.map_cons, List.map_cons, List.sum_cons, ih, List.flatMap_cons, List.map_append,
        List.sum_append]
      rfl
  rw [deltaLen_escaped, need_charges _ hpos]
  simp only [Asked.Fits]
  by_cases hnil : buckets.flatMap (changesOf store bits) = []
  · have hzero : ((buckets.map (changeCosts store bits)).map List.sum).sum = 0 := by
      rw [hsum, hnil]
      rfl
    have hused := (usedLen_eq_zero hpos).2 hzero
    rw [hused, hzero, hnil]
    simp [deltaLen]
  · have hlen := deltaLen_add (BucketSource.native store).cursor.val hnil
    omega

end

/-- A plain answer is given exactly when its reads fit the budget; then its length is known. -/
theorem answer_json {asked : Asked} (hasked : asked.Lawful) :
    (∀ budget r, answer budget asked = .ok (.json r) → textLen r.json ≤ budget) ↔ asked.Fits := by
  cases asked with
  | stream src bits keys resumeAt => simp [answer, Asked.Fits]
  | snapshot src bits keys =>
    obtain ⟨hsrc, hkeys, hmask⟩ := hasked
    have hok : ∀ n, (∃ out, materialize src bits n ∅ keys = .ok out) ↔
        need (charges src.envelope (keys.map (src.rowCosts bits))) ≤ n := by
      intro n
      rw [materialize_ok_iff hkeys, BucketSource.charges_eq hsrc]
    have hlen : ∀ {n out}, materialize src bits n ∅ keys = .ok out →
        textLen (BucketsResponse.snapshot src.cursor.val out).json =
          snapshotLen jsonEscapedLen src.cursor.val (rowsOf src bits keys.dedup) := by
      intro n out hout
      have hspec := materialize_spec [] hkeys hmask (fun h => by simp) hout
      have hperm : (streamRows out).Perm (rowsOf src bits keys.dedup) := perm_streamRows hspec
      rw [textLen_snapshot, snapshotLen, snapshotLen, (hperm.map _).sum_nat, hperm.length_eq]
    rw [fits_snapshot_iff]
    constructor
    · intro hall
      obtain ⟨out, hout⟩ := (hok (need (charges src.envelope (keys.map (src.rowCosts bits))))).2
        (le_refl _)
      have hle := hall _ _ (by rw [answer, hout])
      rwa [hlen hout] at hle
    · intro hfits budget r hr
      simp only [answer] at hr
      split at hr
      · cases hr
      · cases hr
      · rename_i out hout
        cases hr
        rw [hlen hout]
        exact hfits.trans ((hok _).1 ⟨out, hout⟩)
  | delta store bits buckets =>
    have hok := fun n => deltaBuckets_ok_iff store bits buckets n []
    rw [fits_delta_iff]
    constructor
    · intro hall
      have hout := (hok _ _).2 ⟨rfl, le_refl _⟩
      have hle := hall _ _ (by rw [answer, hout])
      rwa [textLen_delta, List.nil_append] at hle
    · intro hfits budget r hr
      simp only [answer] at hr
      split at hr
      · cases hr
      · rename_i out hout
        cases hr
        obtain ⟨rfl, hneed⟩ := (hok budget out).1 hout
        rw [textLen_delta, List.nil_append]
        exact hfits.trans hneed

theorem materializedKeys_lawful (src : BucketSource) (hsrc : src.NoEmpty) (bits : Nat)
    (los : List Hash) : (Asked.snapshot src bits (materializedKeys src bits los)).Lawful := by
  obtain ⟨hmem, hmask⟩ := materializedKeys_spec src bits los
  refine ⟨hsrc, ?_, hmask⟩
  intro b hb
  obtain ⟨lo, _, heq⟩ := mem_maskedBuckets.1 ((hmem b).1 hb)
  exact ⟨lo, heq.symm⟩

theorem routeAdded_lawful {st : RepoState} (hst : st.Parsed) {domain : HashDomain}
    {req : BucketRequest} {asked : Asked} (h : routeAdded st domain req = .ok asked) :
    asked.Lawful := by
  unfold routeAdded at h
  split at h
  · cases h
  · rename_i backend hbackend
    have hsrc : (backend.source st.maxQueryBits).NoEmpty := by
      cases backend with
      | snapshot backend => trivial
      | sidecar backend => exact (hst _ hbackend).noEmpty
    split at h
    · cases h
    · split at h
      · cases h
      · cases h
        split
        · trivial
        · exact materializedKeys_lawful _ hsrc _ _

theorem routeNative_lawful {st : RepoState} {req : BucketRequest} {asked : Asked}
    (h : routeNative st req = .ok asked) : asked.Lawful := by
  unfold routeNative at h
  split at h
  · cases h
  · simp only at h
    split at h
    · cases h
      split
      · trivial
      · exact materializedKeys_lawful (.native st.store) trivial _ _
    · cases h
      trivial

theorem route_lawful {st : RepoState} (hst : st.Parsed) {version : Nat} {req : BucketRequest}
    {asked : Asked} (h : route st version req = .ok asked) : asked.Lawful := by
  unfold route at h
  split at h
  · cases h
  · split at h
    · cases h
    · split at h
      · cases h
      · split at h
        · cases h
        · split at h
          · exact routeAdded_lawful hst h
          · exact routeNative_lawful h

/-- **When answers stay within their budget.** The body of a plain answer is no longer than any
budget it is given under exactly when the JSON escapes of the answered tags take no more bytes than
the charge has to spare. -/
theorem body_within_budget_iff (st : RepoState) (hst : st.Parsed) (version : Nat)
    (req : BucketRequest) :
    (∀ budget r, bucketsHandler { st with bucketBudget := budget } version req = .ok (.json r) →
        textLen r.json ≤ budget) ↔
      ∀ asked, route st version req = .ok asked → asked.Fits := by
  have hroute : ∀ budget, route { st with bucketBudget := budget } version req =
      route st version req := fun _ => rfl
  simp only [bucketsHandler, hroute]
  cases hr : route st version req with
  | error e => simp
  | ok asked =>
    simp only [Except.ok.injEq, forall_eq']
    exact answer_json (route_lawful hst hr)

/-! ## Answers without escapes -/

theorem decimalWidth_le {n : Nat} (h : n < 2 ^ 64) : decimalWidth n ≤ 20 := by
  rw [decimalWidth]
  split
  · omega
  · rename_i hpos
    have hlog : Nat.log 10 n < 20 := (Nat.log_lt_iff_lt_pow (by decide) hpos).2 (by omega)
    omega

theorem usedLen_pos {buckets : List (List Nat)} {costs : List Nat} (hmem : costs ∈ buckets)
    (hne : costs ≠ []) : 0 < usedLen buckets := by
  induction buckets with
  | nil => cases hmem
  | cons first rest ih =>
    rw [usedLen]
    rcases List.mem_cons.1 hmem with rfl | hmem
    · simp [hne]
    · have := ih hmem
      rw [if_neg (by omega)]
      omega

/-- A delta with changes, none of whose tags needs an escape, stays within its budget. -/
theorem fits_delta_plain (store : RepoStore) (bits : Nat) (buckets : List (Hash × Nat))
    (hne : buckets.flatMap (changesOf store bits) ≠ [])
    (hseq : ∀ d ∈ buckets.flatMap (changesOf store bits), d.seq < 2 ^ 64)
    (hplain : ∀ d ∈ buckets.flatMap (changesOf store bits), escapes d.tag = 0) :
    (Asked.delta store bits buckets).Fits := by
  have hcursor := decimalWidth_le (BucketSource.native store).cursor.isLt
  have hzero : ((buckets.flatMap (changesOf store bits)).map fun d => escapes d.tag).sum = 0 := by
    rw [List.sum_eq_zero_iff]
    intro n hn
    obtain ⟨d, hd, rfl⟩ := List.mem_map.1 hn
    exact hplain d hd
  have hdigits : ((buckets.flatMap (changesOf store bits)).map fun d => decimalWidth d.seq).sum ≤
      20 * (buckets.flatMap (changesOf store bits)).length := by
    refine (List.sum_le_sum fun d hd => decimalWidth_le (hseq d hd)).trans (le_of_eq ?_)
    simp [Nat.mul_comm]
  have hused : 0 < usedLen (buckets.map (changeCosts store bits)) := by
    obtain ⟨d, hd⟩ := List.exists_mem_of_ne_nil _ hne
    obtain ⟨b, hb, hd⟩ := List.mem_flatMap.1 hd
    refine usedLen_pos (List.mem_map.2 ⟨b, hb, rfl⟩) fun hnil => ?_
    rw [List.map_eq_nil_iff.1 hnil] at hd
    cases hd
  simp only [Asked.Fits, hzero, responseEnvelopeOverhead]
  omega

theorem length_le_tagCount {rows : List StreamRow} (hne : ∀ row ∈ rows, row.t ≠ []) :
    rows.length ≤ tagCount rows := by
  induction rows with
  | nil => exact le_refl _
  | cons row rows ih =>
    have hrow := List.length_pos_iff.2 (hne row (by simp))
    have hrest := ih fun r hr => hne r (List.mem_cons_of_mem _ hr)
    simp only [tagCount, List.map_cons, List.sum_cons, List.length_cons] at hrest ⊢
    omega

/-- So does a snapshot with rows, none of whose tags needs an escape. -/
theorem fits_snapshot_plain (src : BucketSource) (bits : Nat) (keys : List String)
    (hne : rowsOf src bits keys.dedup ≠ [])
    (hplain : ∀ row ∈ rowsOf src bits keys.dedup, ∀ o ∈ row.t, escapes o.tag = 0) :
    (Asked.snapshot src bits keys).Fits := by
  have hlists : ∀ row ∈ rowsOf src bits keys.dedup, row.t ≠ [] := fun row hrow =>
    content_ne_nil (mem_rowsOf.1 hrow).2
  have hlen := length_le_tagCount hlists
  have hpos := List.length_pos_iff.2 hne
  have hzero : rowEscapes (rowsOf src bits keys.dedup) = 0 := by
    rw [rowEscapes, List.sum_eq_zero_iff]
    intro n hn
    obtain ⟨row, hrow, rfl⟩ := List.mem_map.1 hn
    rw [List.sum_eq_zero_iff]
    intro m hm
    obtain ⟨o, ho, rfl⟩ := List.mem_map.1 hm
    exact hplain row hrow o ho
  have hcursor : decimalWidth src.cursor.val ≤
      1 + src.envelope * usedLen (keys.map (src.rowCosts bits)) := by
    cases src with
    | native store =>
      obtain ⟨row, hrow⟩ := List.exists_mem_of_ne_nil _ hne
      obtain ⟨hkey, hl⟩ := mem_rowsOf.1 hrow
      have hcosts : (BucketSource.native store).rowCosts bits (bucketKey row.h bits) ≠ [] := by
        intro hnil
        have hmem := AList.lookup_isSome.1 (Option.isSome_of_mem hl)
        rcases (Table.mem_groupOnto _ _ _).1 hmem with hempty | ⟨o, ho⟩
        · cases hempty
        · rw [List.map_eq_nil_iff.1 hnil] at ho
          cases ho
      have hused := usedLen_pos (List.mem_map.2 ⟨_, List.mem_dedup.1 hkey, rfl⟩) hcosts
      have hwidth := decimalWidth_le (BucketSource.native store).cursor.isLt
      simp only [BucketSource.envelope, responseEnvelopeOverhead]
      omega
    | snapshot backend maxQueryBits => exact Nat.le_add_right 1 _
    | sidecar backend maxQueryBits => exact Nat.le_add_right 1 _
  simp only [Asked.Fits, hzero]
  omega

/-! ## A tag of quotation marks -/

def quotedTag : String := String.ofList (List.replicate 50 '"')

def quotedState (budget : Nat) : RepoState where
  unicode := .plainText
  store :=
    match RepoStore.empty.applyMappingsBulk [((Hash.fill 1).toHex, quotedTag, false)] with
    | .ok st => st.store
    | .error _ => .empty
  native := .blake3
  addedSha256 := none
  minQueryBits := 8
  maxQueryBits := 32
  bucketBudget := budget

def quotedRequest : BucketRequest := ⟨8, [(Hash.fill 1).toHex], some [0], none, false, none⟩

/-- The tag is a tag, and the delta that carries it is longer than the budget it was given under. -/
theorem body_over_budget :
    Tag.parse .plainText quotedTag = .ok ⟨"", quotedTag⟩ ∧
      ∃ r, bucketsHandler (quotedState 245) 8 quotedRequest = .ok (.json r) ∧
        245 < textLen r.json := by
  exact ⟨by decide +kernel, _, rfl, by decide +kernel⟩

theorem body_within_budget_quoted :
    (∀ budget r, bucketsHandler { quotedState 245 with bucketBudget := budget } 8 quotedRequest =
        .ok (.json r) → textLen r.json ≤ budget) ↔
      ∀ asked, route (quotedState 245) 8 quotedRequest = .ok asked → asked.Fits :=
  body_within_budget_iff (quotedState 245) (fun sc h => by simp [quotedState] at h) 8 quotedRequest

end Server
end Naiad
