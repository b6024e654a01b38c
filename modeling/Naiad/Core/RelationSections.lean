import Naiad.Core.Relations
import Naiad.Lib.Sort

/-!
# Naiad.Core.RelationSections

The three sections a relation graph shows for a tag: its aliases, its parents and its children.

* `mem_aliasIds`, `mem_parentIds`, `mem_childIds`: what stands in each section before the cap.
* `relationSections_consistent`: the sections agree with each other and with `hasRelations`.
-/

namespace Naiad
namespace Core

open Lib

variable {α : Type}

/-- A capped list of related ids, with the count before the cap. -/
structure RelationCapped (α : Type) where
  ids : List α
  total : Nat
deriving DecidableEq

structure RelationSections (α : Type) where
  aliases : RelationCapped α
  parents : RelationCapped α
  children : RelationCapped α
deriving DecidableEq

def capIds (ids : List α) (cap : Nat) : RelationCapped α := ⟨ids.take cap, ids.length⟩

theorem ids_capIds {l : List α} {cap : Nat} (h : (capIds l cap).total ≤ cap) :
    (capIds l cap).ids = l :=
  List.take_of_length_le h

theorem total_capIds_ne_zero {l : List α} {cap : Nat} : (capIds l cap).total ≠ 0 ↔ ∃ x, x ∈ l := by
  rw [capIds, ne_eq, List.length_eq_zero_iff, List.eq_nil_iff_forall_not_mem]
  simp

variable [LinearOrder α]

namespace RelationGraph

/-- Whether a tag, after canonicalization, has any alias, parent or child. -/
def hasRelations (g : RelationGraph α) (tagId : α) : Bool :=
  let c := canonicalize tagId g.siblings
  let hasAlias := (g.siblingPreimage.lookup c).any fun v => !v.isEmpty
  let hasParent := (g.parents.lookup c).any fun ps =>
    ps.any fun p => canonicalize p g.siblings ≠ c
  let hasChild := (g.reverseParents.lookup c).any fun v => v.any fun ch => ch ≠ c
  hasAlias || hasParent || hasChild

def aliasIds (g : RelationGraph α) (c : α) : List α :=
  orderBy id ((g.siblingPreimage.lookup c).getD [])

def parentIds (g : RelationGraph α) (c : α) : List α :=
  sortDedup ((((g.parents.lookup c).getD []).map fun p => canonicalize p g.siblings).filter (· ≠ c))

def childIds (g : RelationGraph α) (c : α) : List α :=
  sortDedup (((g.reverseParents.lookup c).getD []).filter (· ≠ c))

/-- The capped sections of a tag, which is canonicalized first. -/
def relationsOf (g : RelationGraph α) (tagId : α) (cap : Nat) : RelationSections α :=
  let c := canonicalize tagId g.siblings
  ⟨capIds (g.aliasIds c) cap, capIds (g.parentIds c) cap, capIds (g.childIds c) cap⟩

variable {g : RelationGraph α} {c x : α}

theorem mem_aliasIds : x ∈ g.aliasIds c ↔ canonicalize x g.siblings = c ∧ x ≠ c := by
  rw [aliasIds, mem_orderBy, g.preimage_built, mem_siblingPreimageOf]
  constructor
  · rintro ⟨_, hc, hne⟩
    exact ⟨hc, hne.symm⟩
  · rintro ⟨hc, hne⟩
    refine ⟨?_, hc, hne.symm⟩
    apply mem_keys_of_canonicalize_ne
    rw [hc]
    exact hne.symm

theorem mem_parentIds : x ∈ g.parentIds c ↔ x ∈ implied g.siblings g.parents c ∧ x ≠ c := by
  rw [parentIds, mem_sortDedup, List.mem_filter, decide_eq_true_eq]
  rfl

theorem mem_childIds : x ∈ g.childIds c ↔
    (canonicalize x g.siblings = x ∧ c ∈ implied g.siblings g.parents x) ∧ x ≠ c := by
  rw [childIds, mem_sortDedup, List.mem_filter, decide_eq_true_eq, g.reverse_built,
    mem_reverseParentsOf]

theorem aliasIds_strict (g : RelationGraph α) (c : α) : (g.aliasIds c).Pairwise (· < ·) := by
  have hnodup := siblingPreimageOf_nodup g.siblings c
  rw [← g.preimage_built, ← List.map_id (Option.getD _ _)] at hnodup
  have hstrict := orderBy_strict hnodup
  rwa [List.map_id] at hstrict

theorem parentIds_strict (g : RelationGraph α) (c : α) : (g.parentIds c).Pairwise (· < ·) :=
  sortDedup_strict _

theorem childIds_strict (g : RelationGraph α) (c : α) : (g.childIds c).Pairwise (· < ·) :=
  sortDedup_strict _

theorem not_mem_sections (g : RelationGraph α) (c : α) :
    c ∉ g.aliasIds c ∧ c ∉ g.parentIds c ∧ c ∉ g.childIds c :=
  ⟨fun h => (mem_aliasIds.1 h).2 rfl, fun h => (mem_parentIds.1 h).2 rfl,
    fun h => (mem_childIds.1 h).2 rfl⟩

theorem any_parent_iff : (g.parents.lookup c).any (fun ps =>
    ps.any fun p => canonicalize p g.siblings ≠ c) = true ↔ ∃ x, x ∈ g.parentIds c := by
  simp only [Option.any_eq_true, List.any_eq_true, decide_eq_true_eq, mem_parentIds, mem_implied]
  constructor
  · rintro ⟨ps, hps, p, hp, hne⟩
    exact ⟨_, ⟨ps, hps, p, hp, rfl⟩, hne⟩
  · rintro ⟨_, ⟨ps, hps, p, hp, rfl⟩, hne⟩
    exact ⟨ps, hps, p, hp, hne⟩

theorem any_child_iff : (g.reverseParents.lookup c).any (fun v => v.any fun ch => ch ≠ c) = true ↔
    ∃ x, x ∈ g.childIds c := by
  simp only [childIds, mem_sortDedup, List.mem_filter]
  cases g.reverseParents.lookup c <;> simp

theorem any_alias_iff : (g.siblingPreimage.lookup c).any (fun v => !v.isEmpty) = true ↔
    ∃ x, x ∈ g.aliasIds c := by
  simp only [aliasIds, mem_orderBy]
  cases g.siblingPreimage.lookup c with
  | none => simp
  | some v => simp [List.eq_nil_iff_forall_not_mem]

/-- A tag is shown as related exactly when some section has an entry. -/
theorem hasRelations_iff {t : α} : g.hasRelations t = true ↔
    (∃ x, x ∈ g.aliasIds (canonicalize t g.siblings)) ∨
      (∃ x, x ∈ g.parentIds (canonicalize t g.siblings)) ∨
        ∃ x, x ∈ g.childIds (canonicalize t g.siblings) := by
  simp only [hasRelations, Bool.or_eq_true, any_alias_iff, any_parent_iff, any_child_iff, or_assoc]

/-- Children are parents turned round. -/
theorem mem_childIds_iff {p : α} (hc : canonicalize c g.siblings = c) :
    p ∈ g.parentIds c ↔ c ∈ g.childIds p := by
  rw [mem_parentIds, mem_childIds]
  constructor
  · rintro ⟨hmem, hne⟩
    exact ⟨⟨hc, hmem⟩, hne.symm⟩
  · rintro ⟨⟨_, hmem⟩, hne⟩
    exact ⟨hmem, hne.symm⟩

/-- An alias that is asked for is among the aliases. -/
theorem alias_in_own_section :
    ¬ ∀ (g : RelationGraph Nat) (t cap : Nat), t ∉ (g.relationsOf t cap).aliases.ids := by
  intro h
  have hmem : 1 ∈ ((RelationGraph.new ([⟨1, 2⟩] : List (Sigma fun _ : Nat => Nat)).toAList
      ∅).relationsOf 1 10).aliases.ids := by decide
  exact h _ _ _ hmem

/-- **The sections agree.** For every sibling map and parent map and every cap. Of canonical tags,
one is listed as a parent of the other exactly when the other is listed as its child, where the caps
leave nothing out. The canonical form of the tag asked for is in none of the sections, and the tag
itself is neither a parent nor a child. The aliases are the other tags with that canonical form. A
tag has relations exactly when some section has a nonzero total. The sections ascend strictly, and
the cap cuts the lists but not the totals. -/
theorem relationSections_consistent (g : RelationGraph α) :
    (∀ c p cap cap', canonicalize c g.siblings = c → canonicalize p g.siblings = p →
      (g.relationsOf c cap).parents.total ≤ cap → (g.relationsOf p cap').children.total ≤ cap' →
      (p ∈ (g.relationsOf c cap).parents.ids ↔ c ∈ (g.relationsOf p cap').children.ids)) ∧
    (∀ t cap, canonicalize t g.siblings ∉ (g.relationsOf t cap).aliases.ids ∧
      canonicalize t g.siblings ∉ (g.relationsOf t cap).parents.ids ∧
      canonicalize t g.siblings ∉ (g.relationsOf t cap).children.ids ∧
      t ∉ (g.relationsOf t cap).parents.ids ∧ t ∉ (g.relationsOf t cap).children.ids) ∧
    (∀ t cap, (g.relationsOf t cap).aliases.total ≤ cap → ∀ x,
      x ∈ (g.relationsOf t cap).aliases.ids ↔
        canonicalize x g.siblings = canonicalize t g.siblings ∧ x ≠ canonicalize t g.siblings) ∧
    (∀ t cap, g.hasRelations t = true ↔ (g.relationsOf t cap).aliases.total ≠ 0 ∨
      (g.relationsOf t cap).parents.total ≠ 0 ∨ (g.relationsOf t cap).children.total ≠ 0) ∧
    (∀ t cap, (g.relationsOf t cap).aliases.ids.Pairwise (· < ·) ∧
      (g.relationsOf t cap).parents.ids.Pairwise (· < ·) ∧
      (g.relationsOf t cap).children.ids.Pairwise (· < ·)) ∧
    ∀ t cap cap', (g.relationsOf t cap).aliases.total = (g.relationsOf t cap').aliases.total ∧
      (g.relationsOf t cap).parents.total = (g.relationsOf t cap').parents.total ∧
      (g.relationsOf t cap).children.total = (g.relationsOf t cap').children.total := by
  refine ⟨?_, ?_, ?_, ?_, ?_, fun _ _ _ => ⟨rfl, rfl, rfl⟩⟩
  · intro c p cap cap' hc hp hcap hcap'
    simp only [relationsOf, hc, hp] at hcap hcap' ⊢
    rw [ids_capIds hcap, ids_capIds hcap']
    exact mem_childIds_iff hc
  · intro t cap
    obtain ⟨halias, hparent, hchild⟩ := g.not_mem_sections (canonicalize t g.siblings)
    refine ⟨fun h => halias (List.mem_of_mem_take h), fun h => hparent (List.mem_of_mem_take h),
      fun h => hchild (List.mem_of_mem_take h), ?_, ?_⟩
    · -- a parent is canonical, so that it could only be the canonical form
      intro h
      have hmem := List.mem_of_mem_take h
      have hcanon := canonicalize_of_mem_implied (mem_parentIds.1 hmem).1
      rw [hcanon] at hmem
      exact (mem_parentIds.1 hmem).2 rfl
    · intro h
      have hmem := List.mem_of_mem_take h
      have hcanon := (mem_childIds.1 hmem).1.1
      rw [hcanon] at hmem
      exact (mem_childIds.1 hmem).2 rfl
  · intro t cap hcap x
    rw [relationsOf, ids_capIds hcap]
    exact mem_aliasIds
  · intro t cap
    rw [hasRelations_iff]
    simp only [relationsOf, total_capIds_ne_zero]
  · intro t cap
    exact ⟨(g.aliasIds_strict _).sublist (List.take_sublist _ _),
      (g.parentIds_strict _).sublist (List.take_sublist _ _),
      (g.childIds_strict _).sublist (List.take_sublist _ _)⟩

end RelationGraph
end Core
end Naiad
