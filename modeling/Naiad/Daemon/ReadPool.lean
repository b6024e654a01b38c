import Mathlib.Data.List.Perm.Basic
import Naiad.Lib.Run

/-!
# Naiad.Daemon.ReadPool

The pool of read-only connections. A task waits for a permit, pops a connection, and hands both to a
blocking thread; behind the query, or behind its panic, the guard puts the connection back and only
then the permit is given back. Tasks come and go in any order, and a request may be dropped while it
waits.

* `ReadPool.step`: one step of one task.
* `ReadPool.Kept`: connections are neither lost nor doubled, and permits count the free ones.
* `read_pool_kept`: **whatever the tasks do, a permit always finds a connection, and no connection
  is lost, shared or left behind**.
-/

namespace Naiad
namespace Daemon

open Lib

/-- Where a task stands in `run`: waiting for a permit; with a permit the semaphore has set aside
for it; running with a permit, before the pop; with the closure queued, then running under its
guard; behind the guard; through. It may also have been dropped while it waited, or have found no
connection. -/
inductive Lease (Conn : Type)
  | waiting
  | assigned
  | permitted
  | queued (conn : Conn)
  | working (conn : Conn)
  | returned
  | ended
  | dropped
  | crashed
deriving DecidableEq

namespace Lease

variable {Conn : Type}

def conn : Lease Conn → Option Conn
  | .queued c => some c
  | .working c => some c
  | _ => none

/-- The task holds a permit. -/
def holds : Lease Conn → Bool
  | .assigned => true
  | .permitted => true
  | .queued _ => true
  | .working _ => true
  | .returned => true
  | _ => false

theorem holds_of_conn {t : Lease Conn} {c : Conn} (h : t.conn = some c) : t.holds = true := by
  cases t with
  | queued _ => rfl
  | working _ => rfl
  | _ => cases h

end Lease

/-- The free connections with the next one first, the free permits, and the tasks that came. -/
structure ReadPool (Conn : Type) where
  conns : List Conn
  permits : Nat
  tasks : List (Lease Conn)

namespace ReadPool

variable {Conn : Type}

/-- `ReadPool::open` -/
def openPool (conns : List Conn) : ReadPool Conn := ⟨conns, conns.length, []⟩

inductive Event
  | arrive
  | assign (i : Nat)
  | drop (i : Nat)
  | poll (i : Nat)
  | pop (i : Nat)
  | start (i : Nat)
  | finish (i : Nat)
  | release (i : Nat)

/-- One step of a task. The guard is dropped before the permit it was bound behind, also when the
closure panics. A task that found no connection would panic, and drop its permit. -/
def step (p : ReadPool Conn) : Event → ReadPool Conn
  | .arrive => { p with tasks := p.tasks ++ [.waiting] }
  | .assign i =>
    match p.tasks[i]?, p.permits with
    | some .waiting, n + 1 => { p with permits := n, tasks := p.tasks.set i .assigned }
    | _, _ => p
  | .drop i =>
    match p.tasks[i]? with
    | some .waiting => { p with tasks := p.tasks.set i .dropped }
    | some .assigned => { p with permits := p.permits + 1, tasks := p.tasks.set i .dropped }
    | _ => p
  | .poll i =>
    match p.tasks[i]? with
    | some .assigned => { p with tasks := p.tasks.set i .permitted }
    | _ => p
  | .pop i =>
    match p.tasks[i]?, p.conns with
    | some .permitted, c :: cs => { p with conns := cs, tasks := p.tasks.set i (.queued c) }
    | some .permitted, [] =>
      { p with permits := p.permits + 1, tasks := p.tasks.set i .crashed }
    | _, _ => p
  | .start i =>
    match p.tasks[i]? with
    | some (.queued c) => { p with tasks := p.tasks.set i (.working c) }
    | _ => p
  | .finish i =>
    match p.tasks[i]? with
    | some (.working c) => { p with conns := c :: p.conns, tasks := p.tasks.set i .returned }
    | _ => p
  | .release i =>
    match p.tasks[i]? with
    | some .returned => { p with permits := p.permits + 1, tasks := p.tasks.set i .ended }
    | _ => p

/-- The connections that tasks have out. -/
def held (p : ReadPool Conn) : List Conn := p.tasks.filterMap Lease.conn

def holders (p : ReadPool Conn) : Nat := p.tasks.countP Lease.holds

/-! ## What every step keeps -/

/-- Every connection is free or out, every permit free or held, and nobody found the pool empty. -/
structure Kept (all : List Conn) (p : ReadPool Conn) : Prop where
  conns : (p.conns ++ p.held).Perm all
  permits : p.permits + p.holders = all.length
  whole : .crashed ∉ p.tasks

variable {all : List Conn} {p : ReadPool Conn} {i : Nat} {t t' : Lease Conn}

/-- The tasks apart from one. -/
theorem perm_at (h : p.tasks[i]? = some t) : p.tasks.Perm (t :: p.tasks.eraseIdx i) := by
  obtain ⟨hi, rfl⟩ := List.getElem?_eq_some_iff.1 h
  exact (List.getElem_cons_eraseIdx_perm hi).symm

theorem perm_set (h : p.tasks[i]? = some t) (t' : Lease Conn) :
    (p.tasks.set i t').Perm (t' :: p.tasks.eraseIdx i) :=
  List.set_perm_cons_eraseIdx (List.getElem?_eq_some_iff.1 h).1 t'

theorem countP_holds (h : p.tasks[i]? = some t) (t' : Lease Conn) :
    (p.tasks.set i t').countP Lease.holds + t.holds.toNat = p.holders + t'.holds.toNat := by
  rw [holders, (perm_set h t').countP_eq, (perm_at h).countP_eq, List.countP_cons, List.countP_cons]
  cases t.holds <;> cases t'.holds <;> simp

theorem held_perm (h : p.tasks[i]? = some t) :
    p.held.Perm (t.conn.toList ++ (p.tasks.eraseIdx i).filterMap Lease.conn) := by
  have hperm := (perm_at h).filterMap Lease.conn
  rw [List.filterMap_cons] at hperm
  cases hc : t.conn with
  | none => simpa [hc, held] using hperm
  | some c => simpa [hc, held] using hperm

theorem held_set_perm (h : p.tasks[i]? = some t) (t' : Lease Conn) :
    ((p.tasks.set i t').filterMap Lease.conn).Perm
      (t'.conn.toList ++ (p.tasks.eraseIdx i).filterMap Lease.conn) := by
  have hperm := (perm_set h t').filterMap Lease.conn
  rw [List.filterMap_cons] at hperm
  cases hc : t'.conn with
  | none => simpa [hc] using hperm
  | some c => simpa [hc] using hperm

/-- A task moves on: what it holds more, the pool holds less. -/
theorem Kept.move (h : p.Kept all) (ht : p.tasks[i]? = some t) {conns : List Conn} {permits : Nat}
    (hconns : (conns ++ t'.conn.toList).Perm (p.conns ++ t.conn.toList))
    (hpermits : permits + t'.holds.toNat = p.permits + t.holds.toNat) (hne : t' ≠ .crashed) :
    Kept all { conns := conns, permits := permits, tasks := p.tasks.set i t' } where
  conns := by
    have hset := (held_set_perm ht t').append_left conns
    rw [← List.append_assoc] at hset
    have hold := (held_perm ht).append_left p.conns
    rw [← List.append_assoc] at hold
    exact (hset.trans ((hconns.append_right _).trans hold.symm)).trans h.conns
  permits := by
    have hcount := countP_holds ht t'
    have hp := h.permits
    simp only [holders]
    omega
  whole := by
    intro hmem
    rcases List.mem_or_eq_of_mem_set hmem with hold | heq
    · exact h.whole hold
    · exact hne heq.symm

theorem length_conn_le (l : List (Lease Conn)) :
    (l.filterMap Lease.conn).length ≤ l.countP Lease.holds := by
  induction l with
  | nil => simp
  | cons t l ih =>
    rw [List.filterMap_cons, List.countP_cons]
    cases hc : t.conn with
    | none =>
      simp only
      omega
    | some c =>
      simp only [Lease.holds_of_conn hc, List.length_cons, if_true]
      omega

/-- A task that holds a permit and no connection leaves one free. -/
theorem Kept.free (h : p.Kept all) (ht : p.tasks[i]? = some t) (hholds : t.holds = true)
    (hconn : t.conn = none) : p.conns ≠ [] := by
  have hheld : p.held.length = ((p.tasks.eraseIdx i).filterMap Lease.conn).length := by
    have hlen := (held_perm ht).length_eq
    rwa [hconn] at hlen
  have hholders : p.holders = (p.tasks.eraseIdx i).countP Lease.holds + 1 := by
    rw [holders, (perm_at ht).countP_eq, List.countP_cons, if_pos hholds]
  have hle := length_conn_le (p.tasks.eraseIdx i)
  have hlen := h.conns.length_eq
  have hp := h.permits
  rw [List.length_append] at hlen
  intro hnil
  rw [hnil, List.length_nil] at hlen
  omega

theorem kept_openPool (conns : List Conn) : (openPool conns).Kept conns :=
  ⟨by simp [openPool, held], rfl, by simp [openPool]⟩

theorem Kept.step (h : p.Kept all) (e : Event) : (p.step e).Kept all := by
  cases e with
  | arrive =>
    refine ⟨?_, ?_, ?_⟩
    · simpa [ReadPool.step, held, List.filterMap_cons, Lease.conn] using h.conns
    · simpa [ReadPool.step, holders, Lease.holds] using h.permits
    · simpa [ReadPool.step] using h.whole
  | assign i =>
    simp only [ReadPool.step]
    split
    · rename_i n ht hn
      exact h.move ht (.refl _) (by simp [Lease.holds, hn]) nofun
    · exact h
  | drop i =>
    simp only [ReadPool.step]
    split
    · rename_i ht
      exact h.move ht (.refl _) rfl nofun
    · rename_i ht
      exact h.move ht (.refl _) rfl nofun
    · exact h
  | poll i =>
    simp only [ReadPool.step]
    split
    · rename_i ht
      exact h.move ht (.refl _) rfl nofun
    · exact h
  | pop i =>
    simp only [ReadPool.step]
    split
    · rename_i c cs ht hc
      refine h.move ht ?_ rfl nofun
      rw [hc]
      simp [Lease.conn]
    · rename_i ht hnil
      exact absurd hnil (h.free ht rfl rfl)
    · exact h
  | start i =>
    simp only [ReadPool.step]
    split
    · rename_i c ht
      exact h.move ht (.refl _) rfl nofun
    · exact h
  | finish i =>
    simp only [ReadPool.step]
    split
    · rename_i c ht
      refine h.move ht ?_ rfl nofun
      simpa [Lease.conn] using (List.perm_append_singleton c p.conns).symm
    · exact h
  | release i =>
    simp only [ReadPool.step]
    split
    · rename_i ht
      exact h.move ht (.refl _) rfl nofun
    · exact h

theorem eq_of_conn (hnodup : p.held.Nodup) {i j : Nat} {t u : Lease Conn} {c : Conn}
    (hi : p.tasks[i]? = some t) (hj : p.tasks[j]? = some u) (ht : t.conn = some c)
    (hu : u.conn = some c) : i = j := by
  have hpair := List.pairwise_filterMap.1 hnodup
  rw [List.pairwise_iff_getElem] at hpair
  obtain ⟨hilt, rfl⟩ := List.getElem?_eq_some_iff.1 hi
  obtain ⟨hjlt, rfl⟩ := List.getElem?_eq_some_iff.1 hj
  rcases lt_trichotomy i j with hlt | heq | hlt
  · exact absurd rfl (hpair i j hilt hjlt hlt c ht c hu)
  · exact heq
  · exact absurd rfl (hpair j i hjlt hilt hlt c hu c ht)

/-- **Whatever the tasks of the pool do, and whichever of them panic or are dropped while they wait:
a task that has its permit finds a connection; the free connections and those that are out are
together the ones that were opened, and no two tasks have the same one; no more tasks run at once
than there are connections; when no task holds a permit, all permits and all connections are free
again; and as long as there is anything to wait for, a permit is free or some task holds one and can
go on.** -/
theorem read_pool_kept (all : List Conn) (hall : all.Nodup) (hpos : all ≠ [])
    (events : List Event) :
    let p := run step (openPool all) events
    (Lease.crashed ∉ p.tasks ∧ ∀ i : Nat, p.tasks[i]? = some .permitted → p.conns ≠ []) ∧
      (p.conns ++ p.held).Perm all ∧
      (∀ (i j : Nat) (t u : Lease Conn) (c : Conn), p.tasks[i]? = some t → p.tasks[j]? = some u →
        t.conn = some c → u.conn = some c → i = j) ∧
      p.held.length ≤ all.length ∧
      ((∀ t ∈ p.tasks, t.holds = false) → p.permits = all.length ∧ p.conns.Perm all) ∧
      (0 < p.permits ∨ ∃ t ∈ p.tasks, t.holds = true) := by
  intro p
  have h : p.Kept all := run_invariant events (kept_openPool all) fun _ e h => h.step e
  have hlen := h.conns.length_eq
  rw [List.length_append] at hlen
  refine ⟨⟨h.whole, fun i hi => h.free hi rfl rfl⟩, h.conns, ?_, by omega, ?_, ?_⟩
  · intro i j t u c hi hj ht hu
    exact eq_of_conn (List.nodup_append.1 (h.conns.nodup_iff.2 hall)).2.1 hi hj ht hu
  · intro hquiet
    have hholders : p.holders = 0 := by
      rw [holders, List.countP_eq_zero]
      exact fun t ht => by simp [hquiet t ht]
    have hheld : p.held = [] := by
      have hle := length_conn_le p.tasks
      exact List.length_eq_zero_iff.1 (Nat.le_zero.1 (hle.trans hholders.le))
    have hp := h.permits
    have hc := h.conns
    rw [hholders] at hp
    rw [hheld, List.append_nil] at hc
    exact ⟨hp, hc⟩
  · by_contra hnot
    rw [not_or] at hnot
    obtain ⟨hpermits, hnone⟩ := hnot
    have hholders : p.holders = 0 := by
      rw [holders, List.countP_eq_zero]
      exact fun t ht hh => hnone ⟨t, ht, hh⟩
    have hp := h.permits
    have hsize := List.length_pos_iff.2 hpos
    omega

/-- Two connections, three tasks: the third waits until the first, which panics, is through. -/
theorem read_pool_kept_two :
    let p := run step (openPool [0, 1]) [.arrive, .arrive, .arrive, .assign 0, .poll 0, .pop 0,
      .assign 1, .poll 1, .pop 1, .assign 2, .start 0, .finish 0, .release 0, .assign 2, .poll 2]
    p.tasks[2]? = some .permitted ∧ p.conns ≠ [] := by
  intro p
  have hthird : p.tasks[2]? = some .permitted := by decide
  exact ⟨hthird, (read_pool_kept [0, 1] (by decide) (by decide) _).1.2 2 hthird⟩

end ReadPool

end Daemon
end Naiad
