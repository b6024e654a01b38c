import Mathlib.Algebra.BigOperators.Group.List.Basic
import Naiad.Netproto.Fetch

/-!
# Naiad.Netproto.Chunks

A key list cut into bucket requests that fit a body budget, with a cursor for each key or without.

* `tiles_bucketChunksFrom`: the chunks follow one another up to the end of the list.
* `jsonLen_chunk`: a chunk of two keys or more serializes within the budget, cursors and all.
* `bucketChunks_partition`: **chunks partition the list within the budget**.
-/

namespace Naiad
namespace Netproto

theorem HashDomain.jsonEscapedLen_asStr (d : HashDomain) : jsonEscapedLen d.asStr = 6 := by
  cases d <;> decide

theorem usizeMax_pos : 0 < usizeMax := by
  rw [usizeMax]
  omega

/-- The loop of `bucket_chunks`. -/
def bucketChunksFrom (buckets : List String) (since : Option (List U64)) (budget start : Nat) :
    List (Nat × Nat) :=
  if start < buckets.length then
    (start, windowEnd buckets since start budget usizeMax) ::
      bucketChunksFrom buckets since budget (windowEnd buckets since start budget usizeMax)
  else []
termination_by buckets.length - start
decreasing_by
  rename_i h
  obtain ⟨hlt, _, _⟩ := windowEnd_bounds since budget h usizeMax_pos
  omega

/-- An empty list is still one request. -/
def bucketChunks (buckets : List String) (since : Option (List U64)) (budget : Nat) :
    List (Nat × Nat) :=
  if buckets = [] then [(0, 0)] else bucketChunksFrom buckets since budget 0

/-- `since.get(lo..hi).unwrap_or(since)` -/
def sinceSlice (since : List U64) (w : Nat × Nat) : List U64 :=
  if w.2 ≤ since.length then (since.drop w.1).take (w.2 - w.1) else since

/-- The request for a chunk, with every field the message has. -/
def chunkRequest (prefixBits : Nat) (buckets : List String) (since : Option (List U64))
    (domain : Option String) (stream : Bool) (resumeAt : Option String) (w : Nat × Nat) :
    BucketRequest :=
  ⟨prefixBits, slice buckets w, since.map (sinceSlice · w), domain, stream, resumeAt⟩

section

variable {buckets : List String} {since : Option (List U64)} {budget start : Nat}

theorem tiles_bucketChunksFrom (since : Option (List U64)) (budget : Nat)
    (h : start ≤ buckets.length) :
    Tiles start buckets.length (bucketChunksFrom buckets since budget start) := by
  fun_induction bucketChunksFrom buckets since budget start with
  | case1 start hlt ih =>
    obtain ⟨hnext, hend, _⟩ := windowEnd_bounds since budget hlt usizeMax_pos
    exact (ih hend).cons hnext
  | case2 start hlt => exact Nat.le_antisymm h (Nat.le_of_not_lt hlt)

/-- A chunk is the window at its start. -/
theorem mem_bucketChunksFrom {w : Nat × Nat}
    (h : w ∈ bucketChunksFrom buckets since budget start) :
    w.1 < buckets.length ∧ w.2 = windowEnd buckets since w.1 budget usizeMax := by
  fun_induction bucketChunksFrom buckets since budget start with
  | case1 start hlt ih =>
    rcases List.mem_cons.1 h with rfl | h
    · exact ⟨hlt, rfl⟩
    · exact ih h
  | case2 start hlt => simp at h

/-- Each position lies in one window of a tiling. -/
theorem Tiles.existsUnique {a b i : Nat} {ws : List (Nat × Nat)} (h : Tiles a b ws) (ha : a ≤ i)
    (hb : i < b) : ∃! w, w ∈ ws ∧ w.1 ≤ i ∧ i < w.2 := by
  induction ws generalizing a with
  | nil =>
    have hab : a = b := h
    omega
  | cons w ws ih =>
    obtain ⟨rfl, hlt, hrest⟩ := h
    by_cases hi : i < w.2
    · refine ⟨w, ⟨by simp, ha, hi⟩, ?_⟩
      intro v ⟨hv, hv1, _⟩
      rcases List.mem_cons.1 hv with rfl | hv
      · rfl
      · have := hrest.bounds v hv
        omega
    · obtain ⟨v, ⟨hv, hv1, hv2⟩, huniq⟩ := ih hrest (by omega)
      refine ⟨v, ⟨List.mem_cons_of_mem _ hv, hv1, hv2⟩, ?_⟩
      intro v' ⟨hv', hv1', hv2'⟩
      rcases List.mem_cons.1 hv' with rfl | hv'
      · omega
      · exact huniq v' ⟨hv', hv1', hv2'⟩

/-! ## Chunks as requests -/

theorem entriesCost_add (f g : Nat → Nat) (i e : Nat) :
    entriesCost (fun k => f k + g k) i e = entriesCost f i e + entriesCost g i e :=
  List.sum_map_add

/-- The cost of the entries of a list, read by their positions. -/
theorem entriesCost_getElem {α : Type} (f : Option α → Nat) {l : List α} {w : Nat × Nat}
    (hw : w.2 ≤ l.length) : entriesCost (fun i => f l[i]?) w.1 w.2 =
      (((l.drop w.1).take (w.2 - w.1)).map fun a => f (some a)).sum := by
  rw [entriesCost]
  congr 1
  refine List.ext_getElem (by simp; omega) ?_
  intro i hi _
  simp only [List.length_map, List.length_range'] at hi
  have hlt : w.1 + i < l.length := by omega
  simp [List.getElem?_eq_getElem hlt]

/-- What the estimate of a window charges its cursors with. -/
def cursorCost (since : Option (List U64)) (i : Nat) : Nat :=
  match since with
  | none => 0
  | some s =>
    match s[i]? with
    | none => 21
    | some v => decimalWidth v.val + 1

theorem entriesCost_perEntry {keys : List Hash} {w : Nat × Nat} (hw : w.2 ≤ keys.length) :
    entriesCost (perEntry (keys.map Hash.toHex) since) w.1 w.2 =
      (w.2 - w.1) * 67 + entriesCost (cursorCost since) w.1 w.2 := by
  have hkeys : entriesCost (fun i => byteLen ((keys.map Hash.toHex).getD i "") + 3) w.1 w.2 =
      (w.2 - w.1) * 67 := by
    apply entriesCost_const
    intro i _ hi
    have hlt : i < keys.length := by omega
    rw [List.getD_eq_getElem?_getD, List.getElem?_map, List.getElem?_eq_getElem hlt,
      Option.map_some, Option.getD_some, byteLen_toHex]
  rw [← hkeys]
  exact entriesCost_add _ _ _ _

/-- The cursors of a chunk take what they are charged with, and the brackets of their array. -/
theorem cursors_jsonLen {w : Nat × Nat} (hsince : ∀ s, since = some s → w.2 ≤ s.length) :
    ((since.map (sinceSlice · w)).elim 0 fun l =>
      9 + jsonArrayLen (l.map fun v => decimalWidth v.val).sum l.length) ≤
        11 + entriesCost (cursorCost since) w.1 w.2 := by
  cases since with
  | none => simp
  | some s =>
    have hw := hsince s rfl
    have hcost : entriesCost (cursorCost (some s)) w.1 w.2 =
        (((s.drop w.1).take (w.2 - w.1)).map fun v => decimalWidth v.val + 1).sum :=
      entriesCost_getElem (fun o : Option U64 => match o with
        | none => 21
        | some v => decimalWidth v.val + 1) hw
    rw [hcost, List.sum_map_add]
    simp only [Option.map_some, Option.elim_some, sinceSlice, if_pos hw, jsonArrayLen,
      List.map_const', List.sum_replicate_nat]
    omega

/-- A chunk of more than one key serializes within the budget: keys and cursors cost what was
estimated, and everything else fits the envelope. -/
theorem jsonLen_chunk {keys : List Hash} {w : Nat × Nat} {prefixBits : Nat}
    {domain : Option HashDomain} {stream : Bool} {resumeAt : Option Hash}
    (hw : w ∈ bucketChunksFrom (keys.map Hash.toHex) since budget start) (hmore : 1 < w.2 - w.1)
    (hsince : ∀ s, since = some s → w.2 ≤ s.length) (hbits : prefixBits < 2 ^ 32) :
    (chunkRequest prefixBits (keys.map Hash.toHex) since (domain.map HashDomain.asStr) stream
      (resumeAt.map Hash.toHex) w).jsonLen ≤ budget := by
  obtain ⟨hstart, hend⟩ := mem_bucketChunksFrom hw
  have hle : w.2 ≤ (keys.map Hash.toHex).length := by
    rw [hend]
    exact (windowEnd_bounds since budget hstart usizeMax_pos).2.1
  have hfit : entriesCost (perEntry (keys.map Hash.toHex) since) w.1 w.2 ≤
      budget - bucketRequestEnvelope := by
    rcases windowEnd_fits (keys.map Hash.toHex) since w.1 budget usizeMax with hfit | hone
    · rwa [← hend] at hfit
    · rw [← hend] at hone
      omega
  rw [entriesCost_perEntry (by simpa using hle)] at hfit
  have hhex : ∀ b ∈ keys.map Hash.toHex, ∃ h : Hash, b = h.toHex := by
    intro b hb
    obtain ⟨h, _, rfl⟩ := List.mem_map.1 hb
    exact ⟨h, rfl⟩
  have hkeys := slice_sum_keys hhex hle
  have hcursors := cursors_jsonLen hsince
  have hjson := jsonLen_le_of_fields (r := chunkRequest prefixBits (keys.map Hash.toHex) since
      (domain.map HashDomain.asStr) stream (resumeAt.map Hash.toHex) w) hbits
    (by simp [chunkRequest, HashDomain.jsonEscapedLen_asStr])
    (by simp [chunkRequest])
  simp only [chunkRequest, jsonArrayLen] at hjson hcursors ⊢
  rw [hkeys, slice_length _ hle] at hjson
  rw [bucketRequestEnvelope] at hfit
  omega

/-- **Chunks partition the list within the budget.** Whatever the cursors and the budget, the
chunks follow one another from the first key to the last and none is empty, so that each position
lies in one of them; a list of no keys is one empty chunk. The request for a chunk of two keys or
more, with its cursors and every other field, is no longer than the budget. -/
theorem bucketChunks_partition (keys : List Hash) (since : Option (List U64)) (budget : Nat) :
    let buckets := keys.map Hash.toHex
    let chunks := bucketChunks buckets since budget
    (keys = [] → chunks = [(0, 0)]) ∧
    (keys ≠ [] → Tiles 0 keys.length chunks) ∧
    (∀ i, i < keys.length → ∃! w, w ∈ chunks ∧ w.1 ≤ i ∧ i < w.2) ∧
    chunks.flatMap (slice buckets) = buckets ∧
    ∀ w ∈ chunks, 1 < w.2 - w.1 → (∀ s, since = some s → w.2 ≤ s.length) →
      ∀ (prefixBits : Fin (2 ^ 32)) (domain : Option HashDomain) (stream : Bool)
        (resumeAt : Option Hash),
        (chunkRequest prefixBits buckets since (domain.map HashDomain.asStr) stream
          (resumeAt.map Hash.toHex) w).jsonLen ≤ budget := by
  intro buckets chunks
  have hlength : buckets.length = keys.length := List.length_map _
  by_cases hnil : keys = []
  · subst hnil
    have hchunks : chunks = [(0, 0)] := if_pos rfl
    refine ⟨fun _ => hchunks, fun h => absurd rfl h, by simp, by simp [hchunks, slice, buckets], ?_⟩
    intro w hw hmore
    rw [hchunks, List.mem_singleton] at hw
    simp [hw] at hmore
  · have hchunks : chunks = bucketChunksFrom buckets since budget 0 :=
      if_neg (by simpa [buckets] using hnil)
    have htiles : Tiles 0 keys.length chunks := by
      rw [hchunks, ← hlength]
      exact tiles_bucketChunksFrom since budget (Nat.zero_le _)
    refine ⟨fun h => absurd h hnil, fun _ => htiles, ?_, ?_, ?_⟩
    · intro i hi
      exact htiles.existsUnique (Nat.zero_le i) hi
    · rw [htiles.flatMap_slice, ← hlength]
      simp [slice]
    · intro w hw hmore hsince prefixBits domain stream resumeAt
      rw [hchunks] at hw
      exact jsonLen_chunk hw hmore hsince prefixBits.isLt

end
end Netproto
end Naiad
