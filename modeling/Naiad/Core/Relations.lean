import Mathlib.Data.Finset.Union
import Naiad.Lib.Chain
import Naiad.Lib.Reach
import Naiad.Lib.Table

/-!
# Naiad.Core.Relations

Query-time application of tag relations: canonicalize raw tags through siblings (aliases), then
expand through parents (implications). The maps are hash maps over tag ids; a `Table` lists one in
some iteration order.

* `canonicalize_represents`: the end of a sibling chain, or the least id of the cycle it runs into.
* `mem_effectiveTags`, `mem_matchSet`: the forward closure and its inverse as reachability.
* `search_display_adjunction`: a file shows a tag exactly when a search for the tag finds it.
-/

namespace Naiad
namespace Core

open Lib Relation

variable {α : Type} [LinearOrder α]

/-- Sibling edges: `bad_tag_id -> ideal_tag_id`. -/
abbrev SiblingEdges (α : Type) := Table α α

/-- Parent edges: `child_tag_id -> [parent_tag_id, ...]`. -/
abbrev ParentEdges (α : Type) := Table α (List α)

def cycleMinStep (siblings : SiblingEdges α) (start : α) (s : α × α) : Outcome (α × α) α :=
  match siblings.lookup s.1 with
  | none => .stopped s.2
  | some next => if next = start then .stopped s.2 else .running (next, min s.2 next)

/-- Lowest id on the cycle that `start` lies on. -/
def cycleMin (start : α) (siblings : SiblingEdges α) : α :=
  (loop (cycleMinStep siblings start) (siblings.keys.length + 1) (start, start)).getD start

def canonicalizeStep (siblings : SiblingEdges α) (s : α × Finset α) : Outcome (α × Finset α) α :=
  match siblings.lookup s.1 with
  | none => .stopped s.1
  | some next =>
    if s.1 ∈ s.2 then .stopped (cycleMin s.1 siblings) else .running (next, insert s.1 s.2)

/-- Follow the `bad -> ideal` sibling chain to its terminal ideal. -/
def canonicalize (tagId : α) (siblings : SiblingEdges α) : α :=
  (loop (canonicalizeStep siblings) (siblings.keys.length + 1) (tagId, ∅)).getD tagId

/-- The canonical tags that the parent edges of a tag add. -/
def implied (siblings : SiblingEdges α) (parents : ParentEdges α) (tag : α) : List α :=
  ((parents.lookup tag).getD []).map fun p => canonicalize p siblings

/-- The worklist is a `Vec` popped at its end. -/
def effectiveTags (raw : List α) (siblings : SiblingEdges α) (parents : ParentEdges α) : Finset α :=
  Reach.closure Reach.stack (implied siblings parents)
    (raw.length + (parents.entries.flatMap Sigma.snd).length + 1)
    (raw.map fun t => canonicalize t siblings)

def reverseEdges (siblings : SiblingEdges α) (parents : ParentEdges α) : List (α × α) :=
  parents.entries.flatMap fun e =>
    -- only keys that are already canonical are looked up in the forward direction
    if canonicalize e.1 siblings ≠ e.1 then []
    else e.2.map fun ancestor => (canonicalize ancestor siblings, canonicalize e.1 siblings)

/-- canonical parent -> canonical children that imply it. -/
def reverseParentsOf (siblings : SiblingEdges α) (parents : ParentEdges α) : Table α (List α) :=
  Table.groupOnto ∅ (reverseEdges siblings parents)

def aliasEdges (siblings : SiblingEdges α) : List (α × α) :=
  siblings.keys.filterMap fun bad =>
    if canonicalize bad siblings ≠ bad then some (canonicalize bad siblings, bad) else none

/-- canonical terminal -> all bad tags that canonicalize to it. -/
def siblingPreimageOf (siblings : SiblingEdges α) : Table α (List α) :=
  Table.groupOnto ∅ (aliasEdges siblings)

/-- Canonical tags from which `qc` is reachable by parent edges, breadth first. -/
def sourcesOf (reverseParents : Table α (List α)) (parents : ParentEdges α) (qc : α) : Finset α :=
  Reach.closure Reach.queue (fun tag => (reverseParents.lookup tag).getD [])
    (parents.keys.length + 2) [qc]

def withAliases (siblingPreimage : Table α (List α)) (sources : Finset α) : Finset α :=
  sources.biUnion fun source => insert source ((siblingPreimage.lookup source).getD []).toFinset

/-- All raw tag ids whose presence on a file makes `query` appear in its effective tag set. -/
def matchSet (query : α) (siblings : SiblingEdges α) (parents : ParentEdges α) : Finset α :=
  withAliases (siblingPreimageOf siblings)
    (sourcesOf (reverseParentsOf siblings parents) parents (canonicalize query siblings))

/-- A merged relation graph with its reverse indexes, which `new` alone can fill. -/
structure RelationGraph (α : Type) [LinearOrder α] where
  siblings : SiblingEdges α
  parents : ParentEdges α
  reverseParents : Table α (List α)
  siblingPreimage : Table α (List α)
  reverse_built : reverseParents = reverseParentsOf siblings parents
  preimage_built : siblingPreimage = siblingPreimageOf siblings

namespace RelationGraph

def new (siblings : SiblingEdges α) (parents : ParentEdges α) : RelationGraph α :=
  ⟨siblings, parents, reverseParentsOf siblings parents, siblingPreimageOf siblings, rfl, rfl⟩

/-- An empty graph: `matchSet` degenerates to the singleton query id. -/
def empty : RelationGraph α := new ∅ ∅

def matchSet (g : RelationGraph α) (query : α) : Finset α :=
  withAliases g.siblingPreimage
    (sourcesOf g.reverseParents g.parents (canonicalize query g.siblings))

end RelationGraph

section Canonicalize

variable {siblings : SiblingEdges α}

theorem mem_keys_of_lookup {t next : α} (h : siblings.lookup t = some next) :
    t ∈ siblings.keys.toFinset := by
  rw [List.mem_toFinset, ← AList.mem_keys, ← AList.lookup_isSome, h]
  rfl

theorem card_keys (siblings : SiblingEdges α) :
    siblings.keys.toFinset.card = siblings.keys.length :=
  List.toFinset_card_of_nodup siblings.keys_nodup

/-- The walk round a cycle after `k` steps, with `n` to go: the minimum is over the ids so far. -/
structure CycleWalk (siblings : SiblingEdges α) (start : α) (n : Nat) (s : α × α) : Prop where
  steps : ∃ k, k + 1 + n = Chain.period siblings.lookup start ∧
    s.1 = Chain.walk siblings.lookup k start ∧
    ∀ i ≤ k, s.2 ≤ Chain.walk siblings.lookup i start
  reaches : Chain.Reaches siblings.lookup start s.2

theorem CycleWalk.step {start : α} (hc : Chain.OnCycle siblings.lookup start) {n : Nat}
    {s s' : α × α} (h : CycleWalk siblings start n s)
    (hs : cycleMinStep siblings start s = .running s') :
    ∃ m < n, CycleWalk siblings start m s' := by
  obtain ⟨⟨k, hk, hcur, hle⟩, hm⟩ := h
  rw [cycleMinStep, hcur, hc.next_walk k] at hs
  by_cases hstart : Chain.walk siblings.lookup (k + 1) start = start
  · simp [hstart] at hs
  · simp only [if_neg hstart] at hs
    cases hs
    -- the walk is back at `start` after a whole period, which this is not
    have hn : n ≠ 0 := by
      rintro rfl
      apply hstart
      rw [show k + 1 = Chain.period siblings.lookup start by omega]
      exact Chain.walk_period _ _
    refine ⟨n - 1, by omega, ⟨k + 1, by omega, rfl, ?_⟩, ?_⟩
    · intro i hi
      rcases Nat.lt_or_ge i (k + 1) with hlt | hge
      · exact (min_le_left _ _).trans (hle i (by omega))
      · rw [show i = k + 1 by omega]
        exact min_le_right _ _
    · rcases min_choice s.2 (Chain.walk siblings.lookup (k + 1) start) with h | h
      · rw [h]
        exact hm
      · rw [h]
        exact hc.reaches_walk (k + 1)

theorem CycleWalk.stop {start : α} (hc : Chain.OnCycle siblings.lookup start) {n : Nat}
    {s : α × α} {r : α} (h : CycleWalk siblings start n s)
    (hs : cycleMinStep siblings start s = .stopped r) :
    Chain.Reaches siblings.lookup start r ∧
      ∀ d, Chain.Reaches siblings.lookup start d → r ≤ d := by
  obtain ⟨⟨k, hk, hcur, hle⟩, hm⟩ := h
  rw [cycleMinStep, hcur, hc.next_walk k] at hs
  by_cases hstart : Chain.walk siblings.lookup (k + 1) start = start
  · simp only [if_pos hstart] at hs
    cases hs
    refine ⟨hm, fun d hd => ?_⟩
    obtain ⟨j, rfl⟩ := hd.walk
    rw [← Chain.walk_mod hstart j]
    exact hle _ (Nat.lt_succ_iff.1 (Nat.mod_lt _ (Nat.succ_pos k)))
  · simp [if_neg hstart] at hs

/-- On a cycle the walk stops after one round, with the least id. -/
theorem loop_cycleMin {start : α} (hc : Chain.OnCycle siblings.lookup start) {fuel : Nat}
    (hfuel : siblings.keys.length < fuel) :
    ∃ r, loop (cycleMinStep siblings start) fuel (start, start) = some r ∧
      Chain.Reaches siblings.lookup start r ∧
        ∀ d, Chain.Reaches siblings.lookup start d → r ≤ d := by
  have hperiod : Chain.period siblings.lookup start ≤ siblings.keys.length := by
    rw [← card_keys]
    exact hc.period_le fun _ _ h => mem_keys_of_lookup h
  have hpos := hc.period_pos
  have hinit : CycleWalk siblings start (Chain.period siblings.lookup start - 1) (start, start) := by
    refine ⟨⟨0, by omega, rfl, ?_⟩, .refl⟩
    intro i hi
    rw [Nat.le_zero.1 hi]
    rfl
  exact loop_ranked _ (fun _ _ _ h hs => h.step hc hs) (fun _ _ _ h hs => h.stop hc hs) hinit
    (by omega)

theorem cycleMin_spec {start : α} (hc : Chain.OnCycle siblings.lookup start) :
    Chain.Reaches siblings.lookup start (cycleMin start siblings) ∧
      ∀ d, Chain.Reaches siblings.lookup start d → cycleMin start siblings ≤ d := by
  obtain ⟨r, hr, hpost⟩ := loop_cycleMin hc (Nat.lt_succ_self _)
  rw [cycleMin, hr]
  exact hpost

/-- The walk along a chain: every id visited leads to the current one. -/
structure ChainWalk (siblings : SiblingEdges α) (t : α) (n : Nat) (s : α × Finset α) : Prop where
  reaches : Chain.Reaches siblings.lookup t s.1
  visited : ∀ v ∈ s.2, TransGen (fun a b => siblings.lookup a = some b) v s.1
  within : s.2 ⊆ siblings.keys.toFinset
  rank : s.2.card + n = siblings.keys.length

theorem ChainWalk.step {t : α} {n : Nat} {s s' : α × Finset α} (h : ChainWalk siblings t n s)
    (hs : canonicalizeStep siblings s = .running s') : ∃ m < n, ChainWalk siblings t m s' := by
  unfold canonicalizeStep at hs
  split at hs
  · cases hs
  · rename_i next hnext
    by_cases hseen : s.1 ∈ s.2
    · simp [hseen] at hs
    · simp only [if_neg hseen] at hs
      cases hs
      have hwithin : insert s.1 s.2 ⊆ siblings.keys.toFinset :=
        Finset.insert_subset (mem_keys_of_lookup hnext) h.within
      have hcard := Finset.card_le_card hwithin
      have hrank := h.rank
      rw [card_keys, Finset.card_insert_of_notMem hseen] at hcard
      refine ⟨n - 1, by omega, h.reaches.tail hnext, ?_, hwithin, ?_⟩
      · intro v hv
        rcases Finset.mem_insert.1 hv with rfl | hv
        · exact .single hnext
        · exact (h.visited v hv).tail hnext
      · rw [Finset.card_insert_of_notMem hseen]
        omega

theorem ChainWalk.stop {t : α} {n : Nat} {s : α × Finset α} {r : α}
    (h : ChainWalk siblings t n s) (hs : canonicalizeStep siblings s = .stopped r) :
    Chain.Represents siblings.lookup t r := by
  unfold canonicalizeStep at hs
  split at hs
  · rename_i hend
    cases hs
    exact ⟨h.reaches, .inl hend⟩
  · by_cases hseen : s.1 ∈ s.2
    · simp only [if_pos hseen] at hs
      cases hs
      have hc : Chain.OnCycle siblings.lookup s.1 := h.visited _ hseen
      obtain ⟨hreach, hmin⟩ := cycleMin_spec hc
      refine ⟨h.reaches.trans hreach, .inr ⟨hc.of_reaches hreach, ?_⟩⟩
      intro d hd
      exact hmin d (hreach.trans hd)
    · simp [hseen] at hs

/-- What `canonicalize` returns. -/
theorem canonicalize_represents (t : α) (siblings : SiblingEdges α) :
    Chain.Represents siblings.lookup t (canonicalize t siblings) := by
  have hinit : ChainWalk siblings t siblings.keys.length (t, ∅) :=
    ⟨.refl, by simp, by simp, by simp⟩
  obtain ⟨r, hr, hpost⟩ := loop_ranked _ (fun _ _ _ h hs => ChainWalk.step h hs)
    (fun _ _ _ h hs => ChainWalk.stop h hs) hinit (Nat.lt_succ_self _)
  rw [canonicalize, hr]
  exact hpost

@[simp] theorem canonicalize_canonicalize (t : α) (siblings : SiblingEdges α) :
    canonicalize (canonicalize t siblings) siblings = canonicalize t siblings :=
  (canonicalize_represents _ siblings).unique (canonicalize_represents t siblings).self

theorem canonicalize_of_not_mem {t : α} (h : siblings.lookup t = none) :
    canonicalize t siblings = t :=
  (canonicalize_represents t siblings).unique (.of_end h)

theorem mem_keys_of_canonicalize_ne {t : α} (h : canonicalize t siblings ≠ t) :
    t ∈ siblings.keys := by
  rw [← AList.mem_keys]
  by_contra hkey
  exact h (canonicalize_of_not_mem (AList.lookup_eq_none.2 hkey))

/-- The iteration order of the map does not matter. -/
theorem canonicalize_of_perm {siblings' : SiblingEdges α}
    (h : siblings'.entries.Perm siblings.entries) (t : α) :
    canonicalize t siblings' = canonicalize t siblings := by
  have hlookup : (fun a => siblings'.lookup a) = fun a => siblings.lookup a :=
    funext fun a => AList.perm_lookup h
  have hrep := canonicalize_represents t siblings'
  rw [show siblings'.lookup = fun a => siblings'.lookup a from rfl, hlookup] at hrep
  exact hrep.unique (canonicalize_represents t siblings)

end Canonicalize

section Closure

variable {siblings : SiblingEdges α} {parents : ParentEdges α}

theorem mem_implied {a b : α} :
    b ∈ implied siblings parents a ↔
      ∃ ps, parents.lookup a = some ps ∧ ∃ p ∈ ps, canonicalize p siblings = b := by
  unfold implied
  cases parents.lookup a <;> simp

theorem implied_of_perm {siblings' : SiblingEdges α} {parents' : ParentEdges α}
    (hs : siblings'.entries.Perm siblings.entries) (hp : parents'.entries.Perm parents.entries) :
    implied siblings' parents' = implied siblings parents := by
  funext a
  simp only [implied, AList.perm_lookup hp, canonicalize_of_perm hs]

theorem canonicalize_of_mem_implied {a b : α} (h : b ∈ implied siblings parents a) :
    canonicalize b siblings = b := by
  obtain ⟨_, _, p, _, rfl⟩ := mem_implied.1 h
  simp

/-- The worklist ends once every canonical raw tag and every canonical parent was seen. -/
theorem loop_effectiveTags {raw : List α} {fuel : Nat}
    (hfuel : raw.length + (parents.entries.flatMap Sigma.snd).length < fuel) :
    ∃ result, loop (Reach.reachStep Reach.stack (implied siblings parents)) fuel
        (Reach.visitAll Reach.stack (∅, []) (raw.map fun t => canonicalize t siblings)) =
          some result ∧
      ∀ x, x ∈ result ↔ ∃ t ∈ raw, ReflTransGen (fun a b => b ∈ implied siblings parents a)
        (canonicalize t siblings) x := by
  have hseeds : ∀ c ∈ raw.map fun t => canonicalize t siblings,
      c ∈ (raw.map fun t => canonicalize t siblings).toFinset ∪
        ((parents.entries.flatMap Sigma.snd).map fun t => canonicalize t siblings).toFinset := by
    intro c hc
    exact Finset.mem_union_left _ (List.mem_toFinset.2 hc)
  have huniv : ∀ a ∈ (raw.map fun t => canonicalize t siblings).toFinset ∪
        ((parents.entries.flatMap Sigma.snd).map fun t => canonicalize t siblings).toFinset,
      ∀ b ∈ implied siblings parents a,
        b ∈ (raw.map fun t => canonicalize t siblings).toFinset ∪
          ((parents.entries.flatMap Sigma.snd).map fun t => canonicalize t siblings).toFinset := by
    intro a _ b hb
    obtain ⟨ps, hps, p, hp, rfl⟩ := mem_implied.1 hb
    have hmem : p ∈ parents.entries.flatMap Sigma.snd :=
      List.mem_flatMap.2 ⟨_, Table.mem_entries.2 hps, hp⟩
    exact Finset.mem_union_right _ (List.mem_toFinset.2 (List.mem_map_of_mem hmem))
  have hcard : ((raw.map fun t => canonicalize t siblings).toFinset ∪
      ((parents.entries.flatMap Sigma.snd).map fun t => canonicalize t siblings).toFinset).card ≤
      raw.length + (parents.entries.flatMap Sigma.snd).length := by
    refine (Finset.card_union_le _ _).trans (Nat.add_le_add ?_ ?_)
    · exact (List.toFinset_card_le _).trans (by simp)
    · exact (List.toFinset_card_le _).trans_eq (List.length_map ..)
  obtain ⟨result, hr, hmem⟩ := Reach.loop_closure Reach.pushes_stack hseeds huniv
    (show _ < fuel by omega)
  refine ⟨result, hr, fun x => ?_⟩
  rw [hmem]
  simp

theorem mem_effectiveTags {raw : List α} {x : α} :
    x ∈ effectiveTags raw siblings parents ↔
      ∃ t ∈ raw, ReflTransGen (fun a b => b ∈ implied siblings parents a)
        (canonicalize t siblings) x := by
  obtain ⟨result, hr, hmem⟩ := @loop_effectiveTags _ _ siblings parents raw _ (Nat.lt_succ_self _)
  rw [effectiveTags, Reach.closure, hr, Option.getD_some]
  exact hmem x

/-- The reverse index holds the edges that fire, turned round. -/
theorem mem_reverseParentsOf {b c : α} :
    c ∈ ((reverseParentsOf siblings parents).lookup b).getD [] ↔
      canonicalize c siblings = c ∧ b ∈ implied siblings parents c := by
  rw [reverseParentsOf, Table.lookup_groupOnto, mem_implied]
  simp only [AList.lookup_empty, Option.getD_none, List.nil_append, List.mem_map,
    List.mem_filter, decide_eq_true_eq, reverseEdges, List.mem_flatMap]
  constructor
  · rintro ⟨⟨b', c'⟩, ⟨⟨⟨k, ps⟩, hentry, hedge⟩, rfl⟩, rfl⟩
    by_cases hcanon : canonicalize k siblings = k
    · simp only [hcanon, ne_eq, not_true_eq_false, if_false, List.mem_map, Prod.mk.injEq] at hedge
      obtain ⟨p, hp, rfl, rfl⟩ := hedge
      exact ⟨hcanon, ps, Table.mem_entries.1 hentry, p, hp, rfl⟩
    · simp [hcanon] at hedge
  · rintro ⟨hcanon, ps, hps, p, hp, rfl⟩
    refine ⟨(canonicalize p siblings, c), ⟨⟨⟨c, ps⟩, Table.mem_entries.2 hps, ?_⟩, rfl⟩, rfl⟩
    simp only [hcanon, ne_eq, not_true_eq_false, if_false]
    exact List.mem_map.2 ⟨p, hp, rfl⟩

theorem mem_siblingPreimageOf {c t : α} :
    t ∈ ((siblingPreimageOf siblings).lookup c).getD [] ↔
      t ∈ siblings.keys ∧ canonicalize t siblings = c ∧ c ≠ t := by
  rw [siblingPreimageOf, Table.lookup_groupOnto]
  simp only [AList.lookup_empty, Option.getD_none, List.nil_append, List.mem_map,
    List.mem_filter, decide_eq_true_eq, aliasEdges, List.mem_filterMap]
  constructor
  · rintro ⟨⟨c', t'⟩, ⟨⟨k, hk, hedge⟩, rfl⟩, rfl⟩
    by_cases hcanon : canonicalize k siblings = k
    · simp [hcanon] at hedge
    · simp only [ne_eq, hcanon, not_false_eq_true, if_true, Option.some.injEq,
        Prod.mk.injEq] at hedge
      obtain ⟨rfl, rfl⟩ := hedge
      exact ⟨hk, rfl, hcanon⟩
  · rintro ⟨hk, rfl, hne⟩
    exact ⟨(canonicalize t siblings, t), ⟨⟨t, hk, by simp [hne]⟩, rfl⟩, rfl⟩

theorem siblingPreimageOf_nodup (siblings : SiblingEdges α) (c : α) :
    (((siblingPreimageOf siblings).lookup c).getD []).Nodup := by
  have hbads : (aliasEdges siblings).map Prod.snd =
      siblings.keys.filter fun bad => canonicalize bad siblings ≠ bad := by
    rw [aliasEdges, List.map_filterMap, ← List.filterMap_eq_filter]
    congr 1
    funext bad
    by_cases h : canonicalize bad siblings = bad
    · simp [Option.guard, h]
    · simp [Option.guard, h]
  have hnodup : ((aliasEdges siblings).map Prod.snd).Nodup := by
    rw [hbads]
    exact siblings.keys_nodup.filter _
  rw [siblingPreimageOf, Table.lookup_groupOnto]
  exact hnodup.sublist (List.filter_sublist.map Prod.snd)

/-- Backward search over the reverse index is forward reachability. -/
theorem mem_sourcesOf {qc x : α} :
    x ∈ sourcesOf (reverseParentsOf siblings parents) parents qc ↔
      ReflTransGen (fun a b => canonicalize a siblings = a ∧ b ∈ implied siblings parents a)
        x qc := by
  have hseeds : ∀ c ∈ [qc], c ∈ insert qc parents.keys.toFinset := by
    intro c hc
    rw [List.mem_singleton.1 hc]
    exact Finset.mem_insert_self _ _
  have huniv : ∀ a ∈ insert qc parents.keys.toFinset,
      ∀ b ∈ ((reverseParentsOf siblings parents).lookup a).getD [],
        b ∈ insert qc parents.keys.toFinset := by
    intro a _ b hb
    obtain ⟨_, hb⟩ := mem_reverseParentsOf.1 hb
    obtain ⟨ps, hps, _⟩ := mem_implied.1 hb
    refine Finset.mem_insert_of_mem (List.mem_toFinset.2 ?_)
    rw [← AList.mem_keys, ← AList.lookup_isSome, hps]
    rfl
  have hcard : (insert qc parents.keys.toFinset).card < parents.keys.length + 2 := by
    have := Finset.card_insert_le qc parents.keys.toFinset
    have := List.toFinset_card_le parents.keys
    omega
  rw [sourcesOf, Reach.mem_closure Reach.pushes_queue hseeds huniv hcard,
    ← reflTransGen_swap]
  simp only [List.mem_singleton, exists_eq_left, mem_reverseParentsOf]

theorem mem_withAliases {sources : Finset α}
    (hcanon : ∀ c ∈ sources, canonicalize c siblings = c) {x : α} :
    x ∈ withAliases (siblingPreimageOf siblings) sources ↔ canonicalize x siblings ∈ sources := by
  simp only [withAliases, Finset.mem_biUnion, Finset.mem_insert, List.mem_toFinset,
    mem_siblingPreimageOf]
  constructor
  · rintro ⟨c, hc, rfl | ⟨_, rfl, _⟩⟩
    · rwa [hcanon x hc]
    · exact hc
  · intro hx
    refine ⟨canonicalize x siblings, hx, ?_⟩
    by_cases hself : canonicalize x siblings = x
    · exact .inl hself.symm
    · exact .inr ⟨mem_keys_of_canonicalize_ne hself, rfl, hself⟩

/-- A raw tag matches when its canonical form leads to the canonical query. -/
theorem mem_matchSet {q x : α} :
    x ∈ matchSet q siblings parents ↔
      ReflTransGen (fun a b => b ∈ implied siblings parents a)
        (canonicalize x siblings) (canonicalize q siblings) := by
  have hcanon : ∀ c ∈ sourcesOf (reverseParentsOf siblings parents) parents
      (canonicalize q siblings), canonicalize c siblings = c := by
    intro c hc
    rcases ReflTransGen.cases_head (mem_sourcesOf.1 hc) with rfl | ⟨_, ⟨hc, _⟩, _⟩
    · simp
    · exact hc
  rw [matchSet, mem_withAliases hcanon, mem_sourcesOf]
  refine Reach.reflTransGen_restrict ?_ (canonicalize_canonicalize x siblings)
  intro a b _ hb
  exact canonicalize_of_mem_implied hb

theorem RelationGraph.matchSet_eq (g : RelationGraph α) (q : α) :
    g.matchSet q = Core.matchSet q g.siblings g.parents := by
  rw [RelationGraph.matchSet, Core.matchSet, g.reverse_built, g.preimage_built]

theorem matchSet_of_perm {siblings' : SiblingEdges α} {parents' : ParentEdges α}
    (hs : siblings'.entries.Perm siblings.entries) (hp : parents'.entries.Perm parents.entries)
    (q : α) : matchSet q siblings' parents' = matchSet q siblings parents := by
  ext x
  simp only [mem_matchSet, implied_of_perm hs hp, canonicalize_of_perm hs]

/-- **A search finds what a file displays**: the canonical query is among the effective tags of a
file exactly when one of its raw tags is in the match set; and the graph built once from the same
edges, in whatever order its maps list them, matches and canonicalizes the same. -/
theorem search_display_adjunction (siblings : SiblingEdges α) (parents : ParentEdges α) (q : α) :
    (∀ raw : List α, canonicalize q siblings ∈ effectiveTags raw siblings parents ↔
      ∃ t ∈ raw, t ∈ matchSet q siblings parents) ∧
    ∀ (siblings' : SiblingEdges α) (parents' : ParentEdges α),
      siblings'.entries.Perm siblings.entries → parents'.entries.Perm parents.entries →
      (RelationGraph.new siblings' parents').matchSet q = matchSet q siblings parents ∧
      canonicalize q (RelationGraph.new siblings' parents').siblings = canonicalize q siblings := by
  constructor
  · intro raw
    simp only [mem_effectiveTags, mem_matchSet]
  · intro siblings' parents' hs hp
    rw [RelationGraph.matchSet_eq]
    exact ⟨matchSet_of_perm hs hp q, canonicalize_of_perm hs q⟩

-- an alias cycle with a tail, and an implication attached to a member of the cycle
theorem search_display_adjunction_alias_cycle :
    (RelationGraph.new ([⟨5, 6⟩, ⟨6, 5⟩, ⟨1, 6⟩] : List (Sigma fun _ : Nat => Nat)).toAList
      ([⟨5, [2]⟩, ⟨2, [5]⟩] : List (Sigma fun _ : Nat => List Nat)).toAList).matchSet 2 =
    {1, 2, 5, 6} := by
  have h := (search_display_adjunction
    ([⟨5, 6⟩, ⟨6, 5⟩, ⟨1, 6⟩] : List (Sigma fun _ : Nat => Nat)).toAList
    ([⟨5, [2]⟩, ⟨2, [5]⟩] : List (Sigma fun _ : Nat => List Nat)).toAList 2).2 _ _
    (List.Perm.refl _) (List.Perm.refl _)
  rw [h.1]
  decide

end Closure
end Core
end Naiad
