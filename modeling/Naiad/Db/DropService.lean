import Naiad.Db.Staging
import Naiad.Lib.Autocommit

/-!
# Naiad.Db.DropService

Dropping a service runs five deletes that commit one by one, and the last is of the service, which
staged mappings and rejections still reference. Relation edges of the service are not among them.

* `ClientDb.dropService`: the statements of `drop_service`.
* `ClientDb.without`: what dropping a service is for.
* `dropService_allOrNothing`: **the drop removes the service with exactly its rows, or fails and
  changes nothing, exactly where nothing is left to keep the service or its rows, or nothing was
  there to delete before the service**.
-/

namespace Naiad
namespace Db

open Lib Netproto

/-! ## Statements -/

/-- `DELETE FROM mappings WHERE service_id = ?1` -/
def deleteMappingsOf (service : Nat) (db : Db) : Db :=
  { db with mappings := db.mappings.select fun k _ => k.2.2 ≠ service }

/-- `DELETE FROM tag_siblings WHERE service_id = ?1` -/
def deleteSiblingsOf (service : Nat) (db : Db) : Db :=
  { db with siblings := db.siblings.select fun k _ => k.2 ≠ service }

/-- `DELETE FROM tag_parents WHERE service_id = ?1` -/
def deleteParentsOf (service : Nat) (db : Db) : Db :=
  { db with parents := db.parents.select fun k _ => k.2.2 ≠ service }

/-- A row of a table that `drop_service` clears. -/
def HasRows (db : Db) (service : Nat) : Prop :=
  (∃ k ∈ db.mappings.keys, k.2.2 = service) ∨ (∃ k ∈ db.siblings.keys, k.2 = service) ∨
    (∃ k ∈ db.parents.keys, k.2.2 = service) ∨ ∃ k ∈ db.pullState.keys, k.1 = service

instance (db : Db) (service : Nat) : Decidable (db.HasRows service) :=
  inferInstanceAs (Decidable (_ ∨ _ ∨ _ ∨ _))

namespace ClientDb

def lift (f : Db → Db) (c : ClientDb) : ClientDb := { c with db := f c.db }

/-- A row that references the service and that `drop_service` does not delete. -/
def Held (c : ClientDb) (service : Nat) : Prop :=
  (∃ k ∈ c.staged.keys, k.2.2 = service) ∨ ∃ r ∈ c.db.rejections, r.1 = service

instance (c : ClientDb) (service : Nat) : Decidable (c.Held service) :=
  inferInstanceAs (Decidable (_ ∨ _))

/-- `DELETE FROM services WHERE id = ?1`, with foreign keys on. -/
def deleteService (service : Nat) (c : ClientDb) : Except ServiceError ClientDb :=
  if (c.db.services.lookup service).isSome ∧ (c.db.HasRows service ∨ c.Held service) then
    .error .constraint
  else
    .ok (c.lift fun db => { db with services := db.services.select fun k _ => k ≠ service })

/-- The deletes before that of the service. -/
def purges (service : Nat) : List (ClientDb → ClientDb) :=
  [lift (deleteMappingsOf service), lift (deleteSiblingsOf service), lift (deleteParentsOf service),
    lift fun db => db.deletePullState service]

def dropService (c : ClientDb) (service : Nat) : ClientDb × Except ServiceError Unit :=
  autocommit ((purges service).map (fun f c => .ok (f c)) ++ [deleteService service]) c

/-- Unsubscribe: keep the service and its tags without a URL, or drop both. -/
def removeRepo (c : ClientDb) (name : String) (purge : Bool) : ClientDb × Except ServiceError Bool :=
  match c.db.sharedServiceByName name with
  | some svc =>
    if purge then
      let (dropped, r) := c.dropService svc.id
      (dropped, r.map fun _ => true)
    else (c.lift fun db => db.detachService svc.id, .ok true)
  | none => (c, .ok false)

/-! ## What a drop is for -/

/-- The database without a service and the rows scoped to it. -/
def without (c : ClientDb) (service : Nat) : ClientDb where
  db :=
    { c.db with
      services := c.db.services.select fun k _ => k ≠ service
      mappings := c.db.mappings.select fun k _ => k.2.2 ≠ service
      siblings := c.db.siblings.select fun k _ => k.2 ≠ service
      parents := c.db.parents.select fun k _ => k.2.2 ≠ service
      rejections := c.db.rejections.filter fun r => r.1 ≠ service
      pullState := c.db.pullState.select fun k _ => k.1 ≠ service }
  staged := c.staged.select fun k _ => k.2.2 ≠ service
  relationEdges := c.relationEdges.select fun k _ => k.1 ≠ service

def HasEdges (c : ClientDb) (service : Nat) : Prop := ∃ k ∈ c.relationEdges.keys, k.1 = service

/-- What the first four statements leave. -/
def purged (c : ClientDb) (service : Nat) : ClientDb := (purges service).foldl (fun c f => f c) c

section

variable (c : ClientDb) (service : Nat)

theorem select_ne_eq_self {K V : Type} {t : Table K V} {g : K → Nat} {a : Nat} :
    (t.select fun k _ => g k ≠ a) = t ↔ ¬∃ k ∈ t.keys, g k = a := by
  rw [Table.select_eq_self (p := fun k => g k ≠ a)]
  simp

theorem notMem_select_ne {K V : Type} {t : Table K V} {g : K → Nat} {a : Nat} :
    ¬∃ k ∈ (t.select fun k _ => g k ≠ a).keys, g k = a := by
  rintro ⟨k, hk, heq⟩
  have hne := (Table.mem_keys_select (p := fun k => g k ≠ a)).1 hk
  simp [heq] at hne

/-- The first four statements clear their tables and nothing else. -/
theorem purged_eq :
    c.purged service =
      { c with
        db :=
          { c.db with
            mappings := c.db.mappings.select fun k _ => k.2.2 ≠ service
            siblings := c.db.siblings.select fun k _ => k.2 ≠ service
            parents := c.db.parents.select fun k _ => k.2.2 ≠ service
            pullState := c.db.pullState.select fun k _ => k.1 ≠ service } } :=
  rfl

theorem not_hasRows_purged : ¬(c.purged service).db.HasRows service := by
  rw [purged_eq]
  rintro (h | h | h | h)
  · exact notMem_select_ne h
  · exact notMem_select_ne h
  · exact notMem_select_ne h
  · exact notMem_select_ne h

theorem purged_eq_self : c.purged service = c ↔ ¬c.db.HasRows service := by
  obtain ⟨db, staged, edges⟩ := c
  cases db
  simp only [purged_eq, ClientDb.mk.injEq, Db.mk.injEq, select_ne_eq_self, HasRows, not_or, true_and,
    and_true]

/-- The last statement fails where the service is there and a row still references it. -/
theorem dropService_eq :
    c.dropService service =
      if (c.db.services.lookup service).isSome ∧ c.Held service then
        (c.purged service, .error .constraint)
      else
        ((c.purged service).lift fun db =>
          { db with services := db.services.select fun k _ => k ≠ service }, .ok ()) := by
  rw [dropService, autocommit_map_ok]
  change autocommit [deleteService service] (c.purged service) = _
  have href : ((c.purged service).db.HasRows service ∨ (c.purged service).Held service) ↔
      c.Held service :=
    or_iff_right (c.not_hasRows_purged service)
  by_cases hheld : (c.db.services.lookup service).isSome ∧ c.Held service
  · have hfail : deleteService service (c.purged service) = .error .constraint :=
      if_pos ⟨hheld.1, href.2 hheld.2⟩
    rw [if_pos hheld, autocommit, hfail]
  · have hok : deleteService service (c.purged service) = .ok ((c.purged service).lift fun db =>
        { db with services := db.services.select fun k _ => k ≠ service }) :=
      if_neg fun h => hheld ⟨h.1, href.1 h.2⟩
    rw [if_neg hheld, autocommit, hok]
    rfl

/-- What a drop that comes to its end leaves is the goal exactly where no row of the other tables
is scoped to the service. -/
theorem dropped_eq_without :
    ((c.purged service).lift fun db =>
        { db with services := db.services.select fun k _ => k ≠ service }) = c.without service ↔
      ¬c.Held service ∧ ¬c.HasEdges service := by
  have hrejections : c.db.rejections = c.db.rejections.filter (fun r => r.1 ≠ service) ↔
      ¬∃ r ∈ c.db.rejections, r.1 = service := by
    rw [eq_comm, Finset.filter_eq_self]
    simp only [ne_eq, not_exists, not_and]
  have hstaged := select_ne_eq_self (t := c.staged) (g := fun k => k.2.2) (a := service)
  have hedges := select_ne_eq_self (t := c.relationEdges) (g := fun k => k.1) (a := service)
  rw [purged_eq, lift, without]
  simp only [ClientDb.mk.injEq, Db.mk.injEq, true_and, and_true]
  rw [hrejections, eq_comm, hstaged, eq_comm, hedges, Held, HasEdges, not_or]
  tauto

end

/-- **Dropping a service removes it with exactly the rows scoped to it, or fails and changes
nothing, if and only if no staged mapping, rejection or relation edge is scoped to it, or one of the
first two keeps the service and no row of the tables cleared before it is scoped to it.** -/
theorem dropService_allOrNothing (c : ClientDb) (service : Nat) :
    AllOrNothing (c.dropService service) c (c.without service) ↔
      (¬c.Held service ∧ ¬c.HasEdges service) ∨
        ((c.db.services.lookup service).isSome ∧ c.Held service ∧ ¬c.db.HasRows service) := by
  rw [dropService_eq]
  by_cases hheld : (c.db.services.lookup service).isSome ∧ c.Held service
  · rw [if_pos hheld, allOrNothing_error, purged_eq_self]
    tauto
  · rw [if_neg hheld, allOrNothing_ok, dropped_eq_without]
    tauto

/-- With no staged mapping of the service, the drop of the database alone. -/
theorem dropService_db (c : ClientDb) (service : Nat)
    (h : ¬∃ k ∈ c.staged.keys, k.2.2 = service) :
    (c.dropService service).1.db = c.db.dropService service := by
  have hheld : c.Held service ↔ ∃ r ∈ c.db.rejections, r.1 = service := or_iff_right h
  rw [dropService_eq, Db.dropService]
  by_cases hrej : ∃ r ∈ c.db.rejections, r.1 = service
  · by_cases hsvc : (c.db.services.lookup service).isSome
    · rw [if_pos ⟨hsvc, hheld.2 hrej⟩, if_pos hrej, purged_eq]
    · have hnone : service ∉ c.db.services.keys := by
        rw [← AList.mem_keys, ← AList.lookup_isSome]
        exact hsvc
      have hkeep : (c.db.services.select fun k _ => k ≠ service) = c.db.services :=
        select_ne_eq_self.2 fun ⟨k, hk, heq⟩ => hnone (heq ▸ hk)
      rw [if_neg fun hs => hsvc hs.1, if_pos hrej, purged_eq, lift, hkeep]
  · rw [if_neg fun hs => hrej (hheld.1 hs.2), if_neg hrej, purged_eq, lift]

/-- A repo subscribed and pulled, one tag of which the user rejects. -/
def rejectedPull : ClientDb :=
  let pulled : ClientDb :=
    ⟨((empty.db.serve (.subscribe "repo" "http://a" none)).insertFile
      ⟨Hash.fill 1, [47, 97], 10, none, none, none⟩ 1 0).pull
        ⟨2, "blake3", .snapshot [(Hash.fill 1, [(⟨"t", "a"⟩, none)])], 0⟩, ∅, ∅⟩
  (pulled.addRejection 2 1 1).toOption.getD pulled

/-- A repo subscribed, whose one relation is staged. -/
def relatedPull : ClientDb :=
  (ClientDb.mk (empty.db.serve (.subscribe "repo" "http://a" none)) ∅ ∅).stageRelationEdge
    (2, .sibling, "t:b", "t:a", "author") .current 1

theorem dropService_not_allOrNothing :
    ((rejectedPull.dropService 2).2 = .error .constraint ∧
        rejectedPull.db.mappings.keys = [(1, 1, 2)] ∧
        (rejectedPull.dropService 2).1.db.mappings.keys = [] ∧
        ¬AllOrNothing (rejectedPull.dropService 2) rejectedPull (rejectedPull.without 2)) ∧
      (relatedPull.dropService 2).2 = .ok () ∧
        (relatedPull.dropService 2).1.relationEdges.keys =
          [(2, .sibling, "t:b", "t:a", "author")] ∧
        ¬AllOrNothing (relatedPull.dropService 2) relatedPull (relatedPull.without 2) := by
  have hfails : rejectedPull.dropService 2 = (rejectedPull.purged 2, .error .constraint) := by
    rw [dropService_eq, if_pos (by decide +kernel)]
  have hends : ∃ c, relatedPull.dropService 2 = (c, .ok ()) ∧
      c.relationEdges.keys = [(2, .sibling, "t:b", "t:a", "author")] := by
    rw [dropService_eq, if_neg (by decide +kernel)]
    exact ⟨_, rfl, by decide +kernel⟩
  refine ⟨⟨?_, by decide +kernel, ?_, ?_⟩, ?_⟩
  · rw [hfails]
  · rw [hfails]
    decide +kernel
  · rw [hfails, allOrNothing_error, purged_eq_self]
    decide +kernel
  · obtain ⟨c, hc, hkeys⟩ := hends
    rw [hc, allOrNothing_ok]
    refine ⟨rfl, hkeys, ?_⟩
    intro h
    rw [h] at hkeys
    exact absurd hkeys (by decide +kernel)

end ClientDb

end Db
end Naiad
