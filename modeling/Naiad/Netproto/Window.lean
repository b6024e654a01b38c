import Naiad.Core.Bucket
import Naiad.Netproto.Wire

/-!
# Naiad.Netproto.Window

How much of a key list one bucket request takes.

* `windowEnd_bounds`: a window is never empty, stays in the list and respects its cap.
* `windowEnd_fits`: it costs at most the budget, unless it is a single key too large for it.
* `jsonLen_window`: a window of bucket keys serializes within the request-body budget.
-/

namespace Naiad
namespace Netproto

def usizeMax : Nat := 2 ^ 64 - 1

def bucketRequestBodyBudget : Nat := 56 * 1024

def bucketRequestEnvelope : Nat := 256

/-- The cost of an entry: its key with two quotes and a comma, and its cursor with a comma. -/
def perEntry (buckets : List String) (since : Option (List U64)) (i : Nat) : Nat :=
  byteLen (buckets.getD i "") + 3 +
    match since with
    | none => 0
    | some s =>
      match s[i]? with
      | none => 21
      | some v => decimalWidth v.val + 1

/-- The loop of `window_end` over the `n` entries from `i` on: the entry the window closes before,
if there is one. -/
def windowScan (cost : Nat → Nat) (available start : Nat) : Nat → Nat → Nat → Option Nat
  | _, _, 0 => none
  | i, used, n + 1 =>
    if used + cost i > available ∧ i > start then some i
    else windowScan cost available start (i + 1) (used + cost i) n

def windowEnd (buckets : List String) (since : Option (List U64))
    (start budget maxWindow : Nat) : Nat :=
  let endCap := min (min (start + maxWindow) usizeMax) buckets.length
  match windowScan (perEntry buckets since) (budget - bucketRequestEnvelope) start start 0
      (endCap - start) with
  | some i => i
  | none => max endCap (start + 1)

/-- The summed cost of the entries from `i` to before `e`. -/
def entriesCost (cost : Nat → Nat) (i e : Nat) : Nat := ((List.range' i (e - i)).map cost).sum

theorem entriesCost_self (cost : Nat → Nat) (i : Nat) : entriesCost cost i i = 0 := by
  simp [entriesCost]

theorem entriesCost_succ (cost : Nat → Nat) {i e : Nat} (h : i ≤ e) :
    entriesCost cost i (e + 1) = entriesCost cost i e + cost e := by
  have : e + 1 - i = e - i + 1 := by omega
  rw [entriesCost, this, List.range'_concat, List.map_append, List.sum_append, entriesCost]
  simp [Nat.add_sub_cancel' h]

theorem windowScan_some {cost : Nat → Nat} {available start : Nat} {n i used j : Nat}
    (h : windowScan cost available start i used n = some j) : j < i + n ∧ start < j := by
  induction n generalizing i used with
  | zero => cases h
  | succ n ih =>
    rw [windowScan] at h
    split at h
    · rename_i hc
      cases h
      exact ⟨by omega, hc.2⟩
    · have := ih h
      omega

/-- The scan closes a window before the first entry that would pass what is available, but never
before its second. -/
theorem windowScan_fits (cost : Nat → Nat) (available start : Nat) {n i : Nat} (hi : start ≤ i)
    (hfit : entriesCost cost start i ≤ available ∨ i ≤ start + 1) :
    let e := (windowScan cost available start i (entriesCost cost start i) n).getD (i + n)
    entriesCost cost start e ≤ available ∨ e ≤ start + 1 := by
  induction n generalizing i with
  | zero => simpa [windowScan] using hfit
  | succ n ih =>
    intro e
    by_cases hc : entriesCost cost start i + cost i > available ∧ i > start
    · have he : e = i := by simp [e, windowScan, hc]
      rw [he]
      exact hfit
    · have he : e = (windowScan cost available start (i + 1) (entriesCost cost start (i + 1)) n).getD
          (i + 1 + n) := by
        simp only [e, windowScan, if_neg hc, entriesCost_succ cost hi]
        congr 1
        omega
      rw [he]
      apply ih (by omega)
      rw [entriesCost_succ cost hi]
      by_cases hgt : i > start
      · exact .inl (by omega)
      · exact .inr (by omega)

section Bounds

variable {buckets : List String} {since : Option (List U64)} {start budget maxWindow : Nat}

/-- A window is never empty, ends in the list and holds at most `maxWindow` entries. -/
theorem windowEnd_bounds (since : Option (List U64)) (budget : Nat) (hs : start < buckets.length) (hw : 0 < maxWindow) :
    start < windowEnd buckets since start budget maxWindow ∧
      windowEnd buckets since start budget maxWindow ≤ buckets.length ∧
      windowEnd buckets since start budget maxWindow ≤ start + maxWindow := by
  unfold windowEnd
  simp only
  split
  · rename_i i h
    have := windowScan_some h
    omega
  · omega

/-- A window costs at most what the budget leaves for entries, unless it is a single key. -/
theorem windowEnd_fits (buckets : List String) (since : Option (List U64))
    (start budget maxWindow : Nat) :
    entriesCost (perEntry buckets since) start
        (windowEnd buckets since start budget maxWindow) ≤ budget - bucketRequestEnvelope ∨
      windowEnd buckets since start budget maxWindow = start + 1 := by
  have hscan := windowScan_fits (perEntry buckets since) (budget - bucketRequestEnvelope) start
    (n := min (min (start + maxWindow) usizeMax) buckets.length - start) (le_refl start)
    (.inr (by omega))
  rw [entriesCost_self] at hscan
  unfold windowEnd
  simp only
  split
  · rename_i i h
    have := windowScan_some h
    rw [h, Option.getD_some] at hscan
    rcases hscan with hfit | hle
    · exact .inl hfit
    · exact .inr (by omega)
  · rename_i h
    rw [h, Option.getD_none] at hscan
    by_cases hcap : min (min (start + maxWindow) usizeMax) buckets.length ≤ start
    · exact .inr (by omega)
    · have hmax : max (min (min (start + maxWindow) usizeMax) buckets.length) (start + 1) =
          start + (min (min (start + maxWindow) usizeMax) buckets.length - start) := by omega
      rw [hmax]
      rcases hscan with hfit | hle
      · exact .inl hfit
      · exact .inr (by omega)

end Bounds

/-! ## Windows as requests -/

/-- The keys of a window. -/
def slice (buckets : List String) (w : Nat × Nat) : List String :=
  (buckets.drop w.1).take (w.2 - w.1)

theorem slice_length (buckets : List String) {w : Nat × Nat} (h : w.2 ≤ buckets.length) :
    (slice buckets w).length = w.2 - w.1 := by
  simp [slice]
  omega

/-- The request a snapshot fetch sends for a window. -/
def windowRequest (prefixBits : Nat) (buckets : List String) (domain : Option String)
    (stream : Bool) (resumeAt : Option String) (w : Nat × Nat) : BucketRequest :=
  ⟨prefixBits, slice buckets w, none, domain, stream, resumeAt⟩

theorem entriesCost_const {cost : Nat → Nat} {c s e : Nat}
    (h : ∀ i, s ≤ i → i < e → cost i = c) : entriesCost cost s e = (e - s) * c := by
  have hmap : (List.range' s (e - s)).map cost = (List.range' s (e - s)).map fun _ => c := by
    apply List.map_congr_left
    intro i hi
    rw [List.mem_range'_1] at hi
    exact h i hi.1 (by omega)
  rw [entriesCost, hmap]
  simp

theorem decimalWidth_le {v k : Nat} (h : v < 10 ^ (k + 1)) : decimalWidth v ≤ k + 1 := by
  unfold decimalWidth
  split
  · omega
  · rename_i h0
    have := Nat.log_lt_of_lt_pow h0 h
    omega

theorem elim_le_of {α : Type} {f : α → Nat} {n : Nat} {o : Option α}
    (h : ∀ a, o = some a → f a ≤ n) : o.elim 0 f ≤ n := by
  cases o with
  | none => exact Nat.zero_le n
  | some a => exact h a rfl

/-- Everything but the key array and the cursors fits in 160 bytes. -/
theorem jsonLen_le_of_fields {r : BucketRequest} (hbits : r.prefixBits < 2 ^ 32)
    (hdomain : ∀ d, r.domain = some d → jsonEscapedLen d ≤ 6)
    (hresume : ∀ k, r.resumeAt = some k → ∃ h : Hash, k = h.toHex) :
    r.jsonLen ≤
      160 + jsonArrayLen (r.buckets.map fun b => jsonEscapedLen b + 2).sum r.buckets.length +
        r.since.elim 0 fun l => 9 + jsonArrayLen (l.map fun v => decimalWidth v.val).sum l.length := by
  have hv : decimalWidth protocolVersion ≤ 1 := decimalWidth_le (by decide)
  have hp : decimalWidth r.prefixBits ≤ 10 := decimalWidth_le (by omega)
  have hd := elim_le_of (f := fun d => 12 + jsonEscapedLen d) (n := 18) (o := r.domain)
    fun d hdom => by have := hdomain d hdom; omega
  have hr := elim_le_of (f := fun k => 15 + jsonEscapedLen k) (n := 79) (o := r.resumeAt)
    fun k hk => by obtain ⟨h, rfl⟩ := hresume k hk; rw [jsonEscapedLen_toHex]
  have hst := Bool.toNat_le r.stream
  simp only [BucketRequest.jsonLen]
  omega

theorem jsonLen_le {r : BucketRequest} (hsince : r.since = none) (hbits : r.prefixBits < 2 ^ 32)
    (hdomain : ∀ d, r.domain = some d → jsonEscapedLen d ≤ 6)
    (hresume : ∀ k, r.resumeAt = some k → ∃ h : Hash, k = h.toHex) :
    r.jsonLen ≤
      160 + jsonArrayLen (r.buckets.map fun b => jsonEscapedLen b + 2).sum r.buckets.length := by
  have hfields := jsonLen_le_of_fields hbits hdomain hresume
  rwa [hsince, Option.elim_none, Nat.add_zero] at hfields

theorem slice_sum_keys {buckets : List String} (hkeys : ∀ b ∈ buckets, ∃ h : Hash, b = h.toHex)
    {w : Nat × Nat} (hw : w.2 ≤ buckets.length) :
    ((slice buckets w).map fun b => jsonEscapedLen b + 2).sum = (w.2 - w.1) * 66 := by
  have hmap : ((slice buckets w).map fun b => jsonEscapedLen b + 2) =
      (slice buckets w).map fun _ => 66 := by
    apply List.map_congr_left
    intro b hb
    obtain ⟨h, rfl⟩ := hkeys b (List.mem_of_mem_drop (List.mem_of_mem_take hb))
    rw [jsonEscapedLen_toHex]
  rw [hmap, List.map_const', List.sum_replicate_nat, slice_length buckets hw]

/-- A window of bucket keys serializes within the request-body budget: the keys cost what was
estimated, and the other fields fit the envelope. -/
theorem jsonLen_window {buckets : List String} {start maxWindow prefixBits : Nat}
    {domain resumeAt : Option String} {stream : Bool} (hs : start < buckets.length)
    (hmax : 0 < maxWindow) (hkeys : ∀ b ∈ buckets, ∃ h : Hash, b = h.toHex)
    (hbits : prefixBits < 2 ^ 32) (hdomain : ∀ d, domain = some d → jsonEscapedLen d ≤ 6)
    (hresume : ∀ k, resumeAt = some k → ∃ h : Hash, k = h.toHex) :
    (windowRequest prefixBits buckets domain stream resumeAt
      (start, windowEnd buckets none start bucketRequestBodyBudget maxWindow)).jsonLen ≤
        bucketRequestBodyBudget := by
  generalize hend : windowEnd buckets none start bucketRequestBodyBudget maxWindow = e
  have hfit := windowEnd_fits buckets none start bucketRequestBodyBudget maxWindow
  obtain ⟨hlt, hle, _⟩ := windowEnd_bounds none bucketRequestBodyBudget
    hs hmax
  rw [hend] at hfit hlt hle
  have hcost : entriesCost (perEntry buckets none) start e = (e - start) * 67 := by
    apply entriesCost_const
    intro i _ hi
    have hlen : i < buckets.length := by omega
    obtain ⟨h, hb⟩ := hkeys buckets[i] (List.getElem_mem hlen)
    rw [perEntry, List.getD_eq_getElem?_getD, List.getElem?_eq_getElem hlen, Option.getD_some,
      hb, byteLen_toHex]
  have hn : (e - start) * 67 ≤ bucketRequestBodyBudget - bucketRequestEnvelope := by
    rcases hfit with hfit | h1
    · rwa [hcost] at hfit
    · subst h1
      rw [Nat.add_sub_cancel_left]
      decide
  have hjson := jsonLen_le (r := windowRequest prefixBits buckets domain stream resumeAt (start, e))
    rfl hbits hdomain hresume
  simp only [windowRequest, jsonArrayLen] at hjson ⊢
  rw [slice_sum_keys hkeys hle, slice_length buckets hle] at hjson
  have henv : bucketRequestBodyBudget - bucketRequestEnvelope + 256 = bucketRequestBodyBudget :=
    rfl
  omega

end Netproto
end Naiad
