import Naiad.Core.Relations

/-!
# Naiad.Core.RelationLaws

What the two closures of the relation graph compute, for maps of any shape.

* `canonicalize_laws`: the walk along the siblings ends; its result is the end of a chain, or the
  least id of the cycle a chain runs into.
* `effectiveTags_laws`: the least set that holds the canonical raw tags and that the parent edges do
  not leave.
-/

namespace Naiad
namespace Core

open Lib Relation

variable {α : Type} [LinearOrder α]

/-! ## Siblings -/

def canonicalizeInStep (fuel : Nat) (siblings : SiblingEdges α) (s : α × Finset α) :
    Outcome (α × Finset α) (Option α) :=
  match siblings.lookup s.1 with
  | none => .stopped (some s.1)
  | some next =>
    if s.1 ∈ s.2 then .stopped (loop (cycleMinStep siblings s.1) fuel (s.1, s.1))
    else .running (next, insert s.1 s.2)

/-- `canonicalize` with its two loops bounded; `none` when one of them would go on. -/
def canonicalizeIn (fuel : Nat) (tagId : α) (siblings : SiblingEdges α) : Option α :=
  (loop (canonicalizeInStep fuel siblings) fuel (tagId, ∅)).join

variable {siblings : SiblingEdges α}

theorem canonicalizeInStep_running {fuel : Nat} {s s' : α × Finset α}
    (h : canonicalizeInStep fuel siblings s = .running s') :
    canonicalizeStep siblings s = .running s' := by
  unfold canonicalizeInStep at h
  unfold canonicalizeStep
  cases hl : siblings.lookup s.1 with
  | none =>
    rw [hl] at h
    cases h
  | some next =>
    rw [hl] at h
    by_cases hseen : s.1 ∈ s.2
    · simp [hseen] at h
    · simp only [if_neg hseen] at h ⊢
      cases h
      rfl

/-- The inner loop is only entered on a cycle, where it stops. -/
theorem canonicalizeInStep_stopped {fuel : Nat} (hfuel : siblings.keys.length < fuel) {t : α}
    {n : Nat} {s : α × Finset α} {r : Option α} (hwalk : ChainWalk siblings t n s)
    (h : canonicalizeInStep fuel siblings s = .stopped r) :
    ∃ c, r = some c ∧ Chain.Represents siblings.lookup t c := by
  unfold canonicalizeInStep at h
  split at h
  · rename_i hend
    cases h
    exact ⟨s.1, rfl, hwalk.reaches, .inl hend⟩
  · by_cases hseen : s.1 ∈ s.2
    · rw [if_pos hseen] at h
      have hc : Chain.OnCycle siblings.lookup s.1 := hwalk.visited _ hseen
      obtain ⟨m, hm, hreach, hmin⟩ := loop_cycleMin hc hfuel
      rw [hm] at h
      cases h
      exact ⟨m, rfl, hwalk.reaches.trans hreach, .inr ⟨hc.of_reaches hreach,
        fun d hd => hmin d (hreach.trans hd)⟩⟩
    · rw [if_neg hseen] at h
      cases h

/-- As many steps as there are siblings are enough for each loop. -/
theorem canonicalizeIn_eq (t : α) {fuel : Nat} (hfuel : siblings.keys.length < fuel) :
    canonicalizeIn fuel t siblings = some (canonicalize t siblings) := by
  have hinit : ChainWalk siblings t siblings.keys.length (t, ∅) :=
    ⟨.refl, by simp, by simp, by simp⟩
  obtain ⟨_, hr, c, rfl, hc⟩ := loop_ranked _
    (fun _ _ _ h hs => ChainWalk.step h (canonicalizeInStep_running hs))
    (fun _ _ _ h hs => canonicalizeInStep_stopped hfuel h hs) hinit hfuel
  rw [canonicalizeIn, hr, hc.unique (canonicalize_represents t siblings)]
  rfl

/-- **Sibling canonicalization.** For every sibling map and tag: the walk ends within as many steps
as there are siblings; it is idempotent; a tag has the canonical form of its sibling; the chain of
the tag ends or runs into a cycle, and the canonical form is its end, or the least tag of that
cycle, wherever the chain enters it. -/
theorem canonicalize_laws (siblings : SiblingEdges α) (t : α) :
    (∀ fuel, siblings.keys.length < fuel →
      canonicalizeIn fuel t siblings = some (canonicalize t siblings)) ∧
    canonicalize (canonicalize t siblings) siblings = canonicalize t siblings ∧
    (∀ next, siblings.lookup t = some next →
      canonicalize t siblings = canonicalize next siblings) ∧
    ((∃ last, Chain.Reaches siblings.lookup t last ∧ siblings.lookup last = none) ∨
      ∃ c, Chain.Reaches siblings.lookup t c ∧ Chain.OnCycle siblings.lookup c) ∧
    (∀ last, Chain.Reaches siblings.lookup t last → siblings.lookup last = none →
      canonicalize t siblings = last) ∧
    ∀ c, Chain.Reaches siblings.lookup t c → Chain.OnCycle siblings.lookup c →
      IsLeast (Chain.cycle siblings.lookup c) (canonicalize t siblings) := by
  have hrep := canonicalize_represents t siblings
  refine ⟨fun _ => canonicalizeIn_eq t, canonicalize_canonicalize t siblings, ?_, ?_, ?_, ?_⟩
  · intro next hnext
    exact hrep.unique ((canonicalize_represents next siblings).of_next hnext)
  · rcases hrep.2 with hend | ⟨hcyc, _⟩
    · exact .inl ⟨_, hrep.1, hend⟩
    · exact .inr ⟨_, hrep.1, hcyc⟩
  · intro last hreach hend
    exact hrep.eq_end hreach hend
  · intro c hreach hcyc
    exact hrep.isLeast hreach hcyc

-- a tail that enters a cycle above its least tag
example : canonicalize 9 ([⟨9, 7⟩, ⟨7, 8⟩, ⟨8, 3⟩, ⟨3, 7⟩] : List (Sigma fun _ : Nat => Nat)).toAList =
    3 := by decide

/-! ## Parents -/

/-- Taking the parents of a member and canonicalizing them stays in the set. -/
def ParentClosed (siblings : SiblingEdges α) (parents : ParentEdges α) (s : Set α) : Prop :=
  ∀ a ∈ s, ∀ ps, parents.lookup a = some ps → ∀ p ∈ ps, canonicalize p siblings ∈ s

/-- `effective_tags` with its worklist bounded; `none` when the worklist would go on. -/
def effectiveTagsIn (fuel : Nat) (raw : List α) (siblings : SiblingEdges α)
    (parents : ParentEdges α) : Option (Finset α) :=
  loop (Reach.reachStep Reach.stack (implied siblings parents)) fuel
    (Reach.visitAll Reach.stack (∅, []) (raw.map fun t => canonicalize t siblings))

variable {parents : ParentEdges α}

theorem parentClosed_iff {s : Set α} :
    ParentClosed siblings parents s ↔ ∀ a ∈ s, ∀ b, b ∈ implied siblings parents a → b ∈ s := by
  constructor
  · intro h a ha b hb
    obtain ⟨ps, hps, p, hp, rfl⟩ := mem_implied.1 hb
    exact h a ha ps hps p hp
  · intro h a ha ps hps p hp
    exact h a ha _ (mem_implied.2 ⟨ps, hps, p, hp, rfl⟩)

theorem isLeast_effectiveTags (raw : List α) (siblings : SiblingEdges α) (parents : ParentEdges α) :
    IsLeast {s : Set α | (∀ t ∈ raw, canonicalize t siblings ∈ s) ∧ ParentClosed siblings parents s}
      (effectiveTags raw siblings parents) := by
  have hleast := Reach.isLeast_reachable (fun a b => b ∈ implied siblings parents a)
    (fun a => ∃ t ∈ raw, canonicalize t siblings = a)
  have hsets : {s : Set α | (∀ t ∈ raw, canonicalize t siblings ∈ s) ∧
      ParentClosed siblings parents s} = {s | (∀ a, (∃ t ∈ raw, canonicalize t siblings = a) →
        a ∈ s) ∧ ∀ a ∈ s, ∀ b, b ∈ implied siblings parents a → b ∈ s} := by
    ext s
    simp only [Set.mem_ofPred_eq, parentClosed_iff, forall_exists_index, and_imp,
      forall_apply_eq_imp_iff₂]
  have hvalue : (effectiveTags raw siblings parents : Set α) = {b | ∃ a,
      (∃ t ∈ raw, canonicalize t siblings = a) ∧
        ReflTransGen (fun a b => b ∈ implied siblings parents a) a b} := by
    ext b
    rw [Finset.mem_coe, mem_effectiveTags, Set.mem_ofPred_eq]
    constructor
    · rintro ⟨t, ht, hpath⟩
      exact ⟨_, ⟨t, ht, rfl⟩, hpath⟩
    · rintro ⟨_, ⟨t, ht, rfl⟩, hpath⟩
      exact ⟨t, ht, hpath⟩
  rw [hsets, hvalue]
  exact hleast

/-- The tags of a file are canonical. -/
theorem canonicalize_of_mem_effectiveTags {raw : List α} {a : α}
    (h : a ∈ effectiveTags raw siblings parents) : canonicalize a siblings = a := by
  obtain ⟨t, _, hpath⟩ := mem_effectiveTags.1 h
  rcases ReflTransGen.cases_tail hpath with rfl | ⟨b, _, hb⟩
  · simp
  · exact canonicalize_of_mem_implied hb

theorem effectiveTags_mono {raw raw' : List α} (h : raw ⊆ raw') :
    effectiveTags raw siblings parents ⊆ effectiveTags raw' siblings parents := by
  intro x hx
  obtain ⟨t, ht, hpath⟩ := mem_effectiveTags.1 hx
  exact mem_effectiveTags.2 ⟨t, h ht, hpath⟩

theorem effectiveTags_congr {raw raw' : List α} (h : ∀ t, t ∈ raw ↔ t ∈ raw') :
    effectiveTags raw siblings parents = effectiveTags raw' siblings parents := by
  ext x
  simp only [mem_effectiveTags, h]

theorem effectiveTagsIn_eq (raw : List α) {fuel : Nat}
    (hfuel : raw.length + (parents.entries.flatMap Sigma.snd).length < fuel) :
    effectiveTagsIn fuel raw siblings parents = some (effectiveTags raw siblings parents) := by
  obtain ⟨result, hr, hmem⟩ := @loop_effectiveTags _ _ siblings parents raw _ hfuel
  rw [effectiveTagsIn, hr, Option.some_inj]
  ext x
  rw [hmem, mem_effectiveTags]

/-- **Effective tags are a closure.** For every sibling map and parent map: the worklist ends; the
result is the least set that holds the canonical form of every raw tag and that taking parents and
canonicalizing them does not leave; so it is idempotent and monotone, it depends on the set of raw
tags only, and of a union it is the union. -/
theorem effectiveTags_laws (siblings : SiblingEdges α) (parents : ParentEdges α) :
    (∀ raw fuel, raw.length + (parents.entries.flatMap Sigma.snd).length < fuel →
      effectiveTagsIn fuel raw siblings parents = some (effectiveTags raw siblings parents)) ∧
    (∀ raw, IsLeast {s : Set α | (∀ t ∈ raw, canonicalize t siblings ∈ s) ∧
      ParentClosed siblings parents s} (effectiveTags raw siblings parents)) ∧
    (∀ raw again, (∀ t, t ∈ again ↔ t ∈ effectiveTags raw siblings parents) →
      effectiveTags again siblings parents = effectiveTags raw siblings parents) ∧
    (∀ raw raw' : List α, raw ⊆ raw' →
      effectiveTags raw siblings parents ⊆ effectiveTags raw' siblings parents) ∧
    (∀ raw raw', (∀ t, t ∈ raw ↔ t ∈ raw') →
      effectiveTags raw siblings parents = effectiveTags raw' siblings parents) ∧
    ∀ raw raw' both, (∀ t, t ∈ both ↔ t ∈ raw ∨ t ∈ raw') →
      effectiveTags both siblings parents =
        effectiveTags raw siblings parents ∪ effectiveTags raw' siblings parents := by
  refine ⟨fun raw _ => effectiveTagsIn_eq raw, fun raw => isLeast_effectiveTags raw siblings parents,
    ?_, fun _ _ => effectiveTags_mono, fun _ _ => effectiveTags_congr, ?_⟩
  · intro raw again h
    ext x
    constructor
    · intro hx
      -- what a member leads to was reached before
      obtain ⟨t, ht, hpath⟩ := mem_effectiveTags.1 hx
      have hmem := (h t).1 ht
      rw [canonicalize_of_mem_effectiveTags hmem] at hpath
      obtain ⟨t₀, ht₀, hpath₀⟩ := mem_effectiveTags.1 hmem
      exact mem_effectiveTags.2 ⟨t₀, ht₀, hpath₀.trans hpath⟩
    · intro hx
      refine mem_effectiveTags.2 ⟨x, (h x).2 hx, ?_⟩
      rw [canonicalize_of_mem_effectiveTags hx]
  · intro raw raw' both h
    ext x
    rw [Finset.mem_union]
    constructor
    · intro hx
      obtain ⟨t, ht, hpath⟩ := mem_effectiveTags.1 hx
      rcases (h t).1 ht with hraw | hraw
      · exact .inl (mem_effectiveTags.2 ⟨t, hraw, hpath⟩)
      · exact .inr (mem_effectiveTags.2 ⟨t, hraw, hpath⟩)
    · rintro (hx | hx)
      · exact effectiveTags_mono (fun t ht => (h t).2 (.inl ht)) hx
      · exact effectiveTags_mono (fun t ht => (h t).2 (.inr ht)) hx

-- a parent of an alias does not fire, a parent cycle through an alias does
example : effectiveTags [1, 4] ([⟨1, 2⟩, ⟨3, 2⟩] : List (Sigma fun _ : Nat => Nat)).toAList
    ([⟨1, [9]⟩, ⟨2, [5]⟩, ⟨5, [3]⟩] : List (Sigma fun _ : Nat => List Nat)).toAList = {2, 4, 5} := by
  decide

end Core
end Naiad
