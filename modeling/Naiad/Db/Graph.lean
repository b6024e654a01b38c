import Mathlib.Data.Int.Order.Basic
import Mathlib.Data.Prod.Lex
import Naiad.Core.Relations
import Naiad.Db.Schema

/-!
# Naiad.Db.Graph

The relation graph a read works on: the current sibling and parent edges of the services in
scope, merged by priority.

* `relationGraph_spec`: for the services of a scope the graph is built, and every tag its edges
  lead to is in the dictionary.
-/

namespace Naiad
namespace Db

open Lib Core Netproto

inductive ReadScope
  | merged
  | localOnly

/-- `SELECT id FROM services WHERE .. ORDER BY priority DESC, id ASC`. -/
def servicesWhere (db : Db) (p : ServiceRow → Bool) : List Nat :=
  (orderBy (fun e : Sigma fun _ : Nat => ServiceRow => toLex (-e.2.priority, e.1))
    (db.services.entries.filter fun e => p e.2)).map Sigma.fst

def localServiceIds (db : Db) : List Nat := db.servicesWhere fun row => row.scope = .local

def includedServices (db : Db) : ReadScope → List Nat
  | .localOnly => db.localServiceIds
  | .merged => db.servicesWhere fun _ => true

def servicePriority (db : Db) (service : Nat) : Option Int :=
  (db.services.lookup service).map ServiceRow.priority

def loadSiblingCandidates (db : Db) (service : Nat) : List (Nat × Nat) :=
  db.siblings.entries.filterMap fun e =>
    if e.1.2 = service ∧ e.2.status = .current then some (e.1.1, e.2.ideal) else none

/-- Keep the candidate of the highest priority seen so far; ties keep the first. -/
def mergeSibling (priority : Int) (st : Table Nat Int × SiblingEdges Nat) (edge : Nat × Nat) :
    Table Nat Int × SiblingEdges Nat :=
  if (st.1.lookup edge.1).any fun cur => priority ≤ cur then st
  else (st.1.insert edge.1 priority, st.2.insert edge.1 edge.2)

def mergeSiblingsOf (db : Db) (st : Table Nat Int × SiblingEdges Nat) (service : Nat) :
    Option (Table Nat Int × SiblingEdges Nat) :=
  (db.servicePriority service).map fun priority =>
    (db.loadSiblingCandidates service).foldl (mergeSibling priority) st

def mergedSiblingEdges (db : Db) (services : List Nat) : Option (SiblingEdges Nat) :=
  (services.foldlM (mergeSiblingsOf db) (∅, ∅)).map Prod.snd

def loadParentEdges (db : Db) (service : Nat) : ParentEdges Nat :=
  Table.groupOnto ∅ (db.parents.entries.filterMap fun e =>
    if e.1.2.2 = service ∧ e.2 = .current then some (e.1.1, e.1.2.1) else none)

def pushNew (slot : List Nat) (p : Nat) : List Nat := if p ∈ slot then slot else slot ++ [p]

def mergeParents (merged : ParentEdges Nat) (child : Nat) (parents : List Nat) : ParentEdges Nat :=
  merged.insert child (parents.foldl pushNew ((merged.lookup child).getD []))

def mergedParentEdges (db : Db) (services : List Nat) : ParentEdges Nat :=
  services.foldl (fun merged service =>
    (db.loadParentEdges service).entries.foldl (fun merged e => mergeParents merged e.1 e.2)
      merged) ∅

def relationGraph (db : Db) (services : List Nat) : Option (RelationGraph Nat) :=
  (db.mergedSiblingEdges services).map fun siblings =>
    RelationGraph.new siblings (db.mergedParentEdges services)

theorem mem_includedServices {db : Db} {scope : ReadScope} {s : Nat}
    (h : s ∈ db.includedServices scope) : ∃ row, db.services.lookup s = some row := by
  have hwhere : ∀ p, s ∈ db.servicesWhere p → ∃ row, db.services.lookup s = some row := by
    intro p h
    obtain ⟨⟨id, row⟩, hmem, rfl⟩ := List.mem_map.1 h
    exact ⟨row, Table.mem_entries.1 (List.mem_filter.1 (mem_orderBy.1 hmem)).1⟩
  cases scope with
  | merged => exact hwhere (fun _ => true) h
  | localOnly => exact hwhere (fun row => row.scope = .local) h

section Siblings

variable {db : Db}

/-- Every tag the edges lead to is in the dictionary. -/
def EdgesKnown (db : Db) (siblings : SiblingEdges Nat) : Prop :=
  ∀ bad ideal, siblings.lookup bad = some ideal → ideal ∈ db.tags.ids

theorem mergeSibling_known {priority : Int} {st : Table Nat Int × SiblingEdges Nat}
    {edge : Nat × Nat} (h : EdgesKnown db st.2) (hedge : edge.2 ∈ db.tags.ids) :
    EdgesKnown db (mergeSibling priority st edge).2 := by
  unfold mergeSibling
  split
  · exact h
  · intro bad ideal hl
    by_cases hbad : bad = edge.1
    · subst hbad
      rw [AList.lookup_insert] at hl
      cases hl
      exact hedge
    · rw [AList.lookup_insert_ne hbad] at hl
      exact h bad ideal hl

theorem loadSiblingCandidates_known (hc : db.Constraints) {service : Nat} {edge : Nat × Nat}
    (h : edge ∈ db.loadSiblingCandidates service) : edge.2 ∈ db.tags.ids := by
  obtain ⟨⟨⟨bad, s⟩, row⟩, hmem, hedge⟩ := List.mem_filterMap.1 h
  by_cases hs : s = service ∧ row.status = .current
  · simp only [if_pos hs, Option.some.injEq] at hedge
    subst hedge
    exact hc.sibling_ideal bad s row (Table.mem_entries.1 hmem)
  · simp [hs] at hedge

theorem foldl_mergeSibling_known {priority : Int} {edges : List (Nat × Nat)}
    (hedges : ∀ e ∈ edges, e.2 ∈ db.tags.ids) {st : Table Nat Int × SiblingEdges Nat}
    (h : EdgesKnown db st.2) : EdgesKnown db (edges.foldl (mergeSibling priority) st).2 := by
  induction edges generalizing st with
  | nil => exact h
  | cons e edges ih =>
    exact ih (fun e' he' => hedges e' (List.mem_cons_of_mem _ he'))
      (mergeSibling_known h (hedges e (by simp)))

theorem mergedSiblingEdges_spec (hc : db.Constraints) {services : List Nat}
    (hs : ∀ s ∈ services, ∃ row, db.services.lookup s = some row) :
    ∃ siblings, db.mergedSiblingEdges services = some siblings ∧ EdgesKnown db siblings := by
  have hfold : ∀ (services : List Nat) (st : Table Nat Int × SiblingEdges Nat),
      (∀ s ∈ services, ∃ row, db.services.lookup s = some row) → EdgesKnown db st.2 →
      ∃ st', services.foldlM (mergeSiblingsOf db) st = some st' ∧ EdgesKnown db st'.2 := by
    intro services
    induction services with
    | nil =>
      intro st _ h
      exact ⟨st, rfl, h⟩
    | cons s services ih =>
      intro st hs h
      obtain ⟨row, hrow⟩ := hs s (by simp)
      have hstep : mergeSiblingsOf db st s =
          some ((db.loadSiblingCandidates s).foldl (mergeSibling row.priority) st) := by
        simp [mergeSiblingsOf, servicePriority, hrow]
      obtain ⟨st', hst', hknown⟩ := ih _ (fun s' hs' => hs s' (List.mem_cons_of_mem _ hs'))
        (foldl_mergeSibling_known (fun e he => loadSiblingCandidates_known hc he) h)
      refine ⟨st', ?_, hknown⟩
      rw [List.foldlM_cons, hstep]
      exact hst'
  obtain ⟨st, hst, hknown⟩ := hfold services (∅, ∅) hs (by simp [EdgesKnown])
  exact ⟨st.2, by rw [mergedSiblingEdges, hst]; rfl, hknown⟩

/-- The representative of a known tag is known. -/
theorem canonicalize_mem_ids {siblings : SiblingEdges Nat} (h : EdgesKnown db siblings) {t : Nat}
    (ht : t ∈ db.tags.ids) : canonicalize t siblings ∈ db.tags.ids := by
  have hreach : ∀ c, Chain.Reaches siblings.lookup t c → c ∈ db.tags.ids := by
    intro c hc
    induction hc with
    | refl => exact ht
    | tail _ hstep _ => exact h _ _ hstep
  exact hreach _ (canonicalize_represents t siblings).1

end Siblings

section Parents

variable {db : Db}

def ParentsKnown (db : Db) (parents : ParentEdges Nat) : Prop :=
  ∀ child ps, parents.lookup child = some ps → ∀ p ∈ ps, p ∈ db.tags.ids

theorem mem_foldl_pushNew {l slot : List Nat} {p : Nat} (h : p ∈ l.foldl pushNew slot) :
    p ∈ slot ∨ p ∈ l := by
  induction l generalizing slot with
  | nil => exact .inl h
  | cons q l ih =>
    rcases ih h with h | h
    · unfold pushNew at h
      split at h
      · exact .inl h
      · rcases List.mem_append.1 h with h | h
        · exact .inl h
        · exact .inr (by simp [List.mem_singleton.1 h])
    · exact .inr (List.mem_cons_of_mem _ h)

theorem mergeParents_known {merged : ParentEdges Nat} {child : Nat} {parents : List Nat}
    (h : ParentsKnown db merged) (hp : ∀ p ∈ parents, p ∈ db.tags.ids) :
    ParentsKnown db (mergeParents merged child parents) := by
  intro child' ps hl p hmem
  by_cases hchild : child' = child
  · subst hchild
    rw [mergeParents, AList.lookup_insert] at hl
    cases hl
    rcases mem_foldl_pushNew hmem with hslot | hp'
    · cases hm : merged.lookup child' with
      | none =>
        rw [hm] at hslot
        cases hslot
      | some slot =>
        rw [hm] at hslot
        exact h child' slot hm p hslot
    · exact hp p hp'
  · rw [mergeParents, AList.lookup_insert_ne hchild] at hl
    exact h child' ps hl p hmem

theorem loadParentEdges_known (hc : db.Constraints) (service : Nat) :
    ParentsKnown db (db.loadParentEdges service) := by
  intro child ps hl p hp
  have hget : p ∈ ((db.loadParentEdges service).lookup child).getD [] := by rw [hl]; exact hp
  rw [loadParentEdges, Table.lookup_groupOnto] at hget
  simp only [AList.lookup_empty, Option.getD_none, List.nil_append, List.mem_map,
    List.mem_filter] at hget
  obtain ⟨⟨c, q⟩, ⟨hedge, _⟩, rfl⟩ := hget
  obtain ⟨⟨⟨c', q', s⟩, st⟩, hmem, hedge⟩ := List.mem_filterMap.1 hedge
  by_cases hs : s = service ∧ st = .current
  · simp only [if_pos hs, Option.some.injEq, Prod.mk.injEq] at hedge
    obtain ⟨rfl, rfl⟩ := hedge
    exact hc.parent_tag _ _ s st (Table.mem_entries.1 hmem)
  · simp [hs] at hedge

theorem mergedParentEdges_known (hc : db.Constraints) (services : List Nat) :
    ParentsKnown db (db.mergedParentEdges services) := by
  have hentries : ∀ (entries : List (Sigma fun _ : Nat => List Nat)) (merged : ParentEdges Nat),
      (∀ e ∈ entries, ∀ p ∈ e.2, p ∈ db.tags.ids) → ParentsKnown db merged →
      ParentsKnown db (entries.foldl (fun merged e => mergeParents merged e.1 e.2) merged) := by
    intro entries
    induction entries with
    | nil => exact fun _ _ h => h
    | cons e entries ih =>
      intro merged he h
      exact ih _ (fun e' he' => he e' (List.mem_cons_of_mem _ he'))
        (mergeParents_known h (he e (by simp)))
  have hservices : ∀ merged : ParentEdges Nat, ParentsKnown db merged →
      ParentsKnown db (services.foldl (fun merged service =>
        (db.loadParentEdges service).entries.foldl (fun merged e => mergeParents merged e.1 e.2)
          merged) merged) := by
    induction services with
    | nil => exact fun _ h => h
    | cons s services ih =>
      intro merged h
      refine ih _ (hentries _ _ ?_ h)
      intro e he
      exact loadParentEdges_known hc s e.1 e.2 (Table.mem_entries.1 he)
  exact hservices ∅ (by simp [ParentsKnown])

end Parents

theorem relationGraph_spec {db : Db} (hc : db.Constraints) (scope : ReadScope) :
    ∃ graph, db.relationGraph (db.includedServices scope) = some graph ∧
      EdgesKnown db graph.siblings ∧ ParentsKnown db graph.parents := by
  have hservices : ∀ s ∈ db.includedServices scope, ∃ row, db.services.lookup s = some row :=
    fun s hs => mem_includedServices hs
  obtain ⟨siblings, hs, hknown⟩ := mergedSiblingEdges_spec hc hservices
  exact ⟨RelationGraph.new siblings (db.mergedParentEdges _), by rw [relationGraph, hs]; rfl, hknown,
    mergedParentEdges_known hc _⟩

end Db
end Naiad
