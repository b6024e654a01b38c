import Mathlib.Data.Option.Basic
import Mathlib.Order.Basic

/-!
# Naiad.Lib.Reading

Readings of a store that others keep writing: a reading asks one query after another, each sees
the store as it is then, and commits take place in between. A clock is a version that every commit
moves, unless it leaves alone what the readings look at.

* `Reading.eval`: the reading of a store that nobody writes.
* `run_later`: whatever is committed meanwhile, a reading leaves the store at a later state.
* `run_of_steady`: a reading during which the version stood still is the undisturbed one.
-/

namespace Naiad
namespace Lib

/-- Queries and what is read next on their answers; a reading may fail. -/
inductive Reading (S : Type) (α : Type) : Type 1
  | done (r : Option α)
  | ask {β : Type} (q : S → β) (next : β → Reading S α)

namespace Reading

variable {S W α β : Type}

def query (q : S → α) : Reading S α := .ask q fun a => .done (some a)

/-- A query that may find nothing, which ends the reading. -/
def queryRow (q : S → Option α) : Reading S α := .ask q .done

def bind : Reading S α → (α → Reading S β) → Reading S β
  | .done none, _ => .done none
  | .done (some a), k => k a
  | .ask q next, k => .ask q fun b => bind (next b) k

instance instMonad : Monad (Reading S) where
  pure a := .done (some a)
  bind := bind

/-- The reading of one state. -/
def eval (s : S) : Reading S α → Option α
  | .done r => r
  | .ask q next => eval s (next (q s))

/-- A reading that starts from `s`, with one commit before each query as long as there are any. -/
def run (commit : S → W → S) : Reading S α → S → List W → Option α × S
  | .done r, s, _ => (r, s)
  | .ask q next, s, [] => run commit (next (q s)) s []
  | .ask q next, s, w :: ws => run commit (next (q (commit s w))) (commit s w) ws

section Eval

variable (s : S)

@[simp] theorem eval_pure (a : α) : eval s (pure a : Reading S α) = some a := rfl

@[simp] theorem eval_query (q : S → α) : eval s (query q) = some (q s) := rfl

@[simp] theorem eval_queryRow (q : S → Option α) : eval s (queryRow q) = q s := rfl

@[simp] theorem eval_bind (m : Reading S α) (k : α → Reading S β) :
    eval s (m >>= k) = (eval s m).bind fun a => eval s (k a) := by
  change eval s (bind m k) = _
  induction m with
  | done r =>
    cases r with
    | none => rfl
    | some a => rfl
  | ask q next ih => exact ih (q s)

theorem eval_foldlM {γ : Type} (f : α → γ → Reading S α) (l : List γ) (a : α) :
    eval s (l.foldlM f a) = l.foldlM (fun a c => eval s (f a c)) a := by
  induction l generalizing a with
  | nil => rfl
  | cons c l ih =>
    rw [List.foldlM_cons, List.foldlM_cons, eval_bind]
    exact congrArg _ (funext ih)

theorem run_nil (commit : S → W → S) (m : Reading S α) : run commit m s [] = (eval s m, s) := by
  induction m with
  | done r => rfl
  | ask q next ih => exact ih (q s)

end Eval

end Reading

/-- Commits that keep an invariant and never turn the version back; one that leaves it standing
changes nothing a reading looks at. -/
structure Clock (S W : Type) where
  commit : S → W → S
  version : S → Int
  inv : S → Prop
  same : S → S → Prop
  same_refl : ∀ s, same s s
  same_trans : ∀ {s s' s'' : S}, same s s' → same s' s'' → same s s''
  inv_commit : ∀ {s : S} (w : W), inv s → inv (commit s w)
  le_commit : ∀ {s : S} (w : W), inv s → version s ≤ version (commit s w)
  same_commit : ∀ {s : S} (w : W), inv s → version (commit s w) = version s → same s (commit s w)

namespace Clock

variable {S W : Type} (c : Clock S W)

/-- What commits lead to from a state. -/
structure Later (s s' : S) : Prop where
  inv : c.inv s'
  le : c.version s ≤ c.version s'
  same : c.version s' = c.version s → c.same s s'

variable {c} {s s' s'' : S}

theorem Later.refl (h : c.inv s) : c.Later s s := ⟨h, Int.le_refl _, fun _ => c.same_refl s⟩

theorem Later.trans (h : c.Later s s') (h' : c.Later s' s'') : c.Later s s'' := by
  have hle := h.le
  have hle' := h'.le
  refine ⟨h'.inv, by omega, ?_⟩
  intro heq
  exact c.same_trans (h.same (by omega)) (h'.same (by omega))

theorem later_commit (h : c.inv s) (w : W) : c.Later s (c.commit s w) :=
  ⟨c.inv_commit w h, c.le_commit w h, c.same_commit w h⟩

variable (c) in
/-- Every query of the reading of `s` answers the same wherever the state is the same. -/
def Settled (s : S) {α : Type} : Reading S α → Prop
  | .done _ => True
  | .ask q next => (∀ s', c.same s s' → q s' = q s) ∧ Settled s (next (q s))

section Settled

variable {α β : Type}

@[simp] theorem settled_pure (a : α) : c.Settled s (pure a : Reading S α) := trivial

theorem settled_query {q : S → α} (h : ∀ s', c.same s s' → q s' = q s) :
    c.Settled s (Reading.query q) :=
  ⟨h, trivial⟩

theorem settled_queryRow {q : S → Option α} (h : ∀ s', c.same s s' → q s' = q s) :
    c.Settled s (Reading.queryRow q) :=
  ⟨h, trivial⟩

theorem Settled.bind {m : Reading S α} {k : α → Reading S β} (h : c.Settled s m)
    (hk : ∀ a, m.eval s = some a → c.Settled s (k a)) : c.Settled s (m >>= k) := by
  change c.Settled s (Reading.bind m k)
  induction m with
  | done r =>
    cases r with
    | none => trivial
    | some a => exact hk a rfl
  | ask q next ih => exact ⟨h.1, ih (q s) h.2 hk⟩

theorem Settled.foldlM {γ : Type} {f : α → γ → Reading S α} (l : List γ)
    (hf : ∀ a x, c.Settled s (f a x)) (a : α) : c.Settled s (l.foldlM f a) := by
  induction l generalizing a with
  | nil => trivial
  | cons x l ih =>
    rw [List.foldlM_cons]
    exact (hf a x).bind fun a' _ => ih a'

theorem Settled.eval_eq {m : Reading S α} (h : c.Settled s m) (hs : c.same s s') :
    m.eval s' = m.eval s := by
  induction m with
  | done r => rfl
  | ask q next ih =>
    simp only [Reading.eval, h.1 s' hs]
    exact ih (q s) h.2

end Settled

/-- Several commits as one. -/
theorem later_foldl (ws : List W) (h : c.inv s) : c.Later s (ws.foldl c.commit s) := by
  induction ws generalizing s with
  | nil => exact .refl h
  | cons w ws ih =>
    have hw := later_commit h w
    exact hw.trans (ih hw.inv)

/-- The clock of transactions, which commit their writes together. -/
def transactions (c : Clock S W) : Clock S (List W) where
  commit s ws := ws.foldl c.commit s
  version := c.version
  inv := c.inv
  same := c.same
  same_refl := c.same_refl
  same_trans := c.same_trans
  inv_commit ws h := (later_foldl ws h).inv
  le_commit ws h := (later_foldl ws h).le
  same_commit ws h := (later_foldl ws h).same

variable {α : Type}

theorem run_later (m : Reading S α) (h : c.inv s) (ws : List W) :
    c.Later s (m.run c.commit s ws).2 := by
  induction m generalizing s ws with
  | done r => exact .refl h
  | ask q next ih =>
    cases ws with
    | nil => exact ih (q s) h []
    | cons w ws =>
      have hw := later_commit h w
      exact hw.trans (ih (q (c.commit s w)) hw.inv ws)

/-- The queries already asked were asked of a state no older than `s`, so with the version where it
was at `s` they answered what `s` answers. -/
theorem run_of_steady (m : Reading S α) (hm : c.Settled s m) (h : c.Later s s') (ws : List W)
    (heq : c.version (m.run c.commit s' ws).2 = c.version s) :
    (m.run c.commit s' ws).1 = m.eval s := by
  induction m generalizing s' ws with
  | done r => rfl
  | ask q next ih =>
    have hask : ∀ {t : S} (ws : List W), c.Later s t →
        c.version ((next (q t)).run c.commit t ws).2 = c.version s →
        ((next (q t)).run c.commit t ws).1 = (next (q s)).eval s := by
      intro t ws ht heq
      have hlater := run_later (next (q t)) ht.inv ws
      have hle := ht.le
      have hle' := hlater.le
      have hq : q t = q s := hm.1 t (ht.same (by omega))
      rw [hq] at heq ⊢
      exact ih (q s) hm.2 ht ws heq
    cases ws with
    | nil => exact hask [] h heq
    | cons w ws => exact hask ws (h.trans (later_commit h.inv w)) heq

end Clock

end Lib
end Naiad
