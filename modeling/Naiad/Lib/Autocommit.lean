import Mathlib.Data.List.Basic

/-!
# Naiad.Lib.Autocommit

A sequence of statements that commit one by one: one that fails ends the sequence, and what the
ones before it wrote stays.

* `autocommit`: the state the sequence leaves and whether it came to its end.
* `AllOrNothing`: the sequence did all of what it is for, or failed and changed nothing.
-/

namespace Naiad
namespace Lib

section

variable {S E : Type}

def autocommit : List (S → Except E S) → S → S × Except E Unit
  | [], s => (s, .ok ())
  | f :: fs, s =>
    match f s with
    | .ok s' => autocommit fs s'
    | .error e => (s, .error e)

/-- Statements that cannot fail only transform the state that the others start from. -/
theorem autocommit_map_ok (fs : List (S → S)) (gs : List (S → Except E S)) (s : S) :
    autocommit (fs.map (fun f s => .ok (f s)) ++ gs) s = autocommit gs (fs.foldl (fun s f => f s) s) := by
  induction fs generalizing s with
  | nil => rfl
  | cons f fs ih => exact ih (f s)

def AllOrNothing (r : S × Except E Unit) (s goal : S) : Prop :=
  r = (goal, .ok ()) ∨ ∃ e, r = (s, .error e)

theorem allOrNothing_ok (s goal s' : S) :
    AllOrNothing ((s', .ok ()) : S × Except E Unit) s goal ↔ s' = goal := by
  simp [AllOrNothing]

theorem allOrNothing_error (s goal s' : S) (e : E) :
    AllOrNothing ((s', .error e) : S × Except E Unit) s goal ↔ s' = s := by
  simp [AllOrNothing]

end

end Lib
end Naiad
