import Mathlib.Data.List.Basic

/-!
# Naiad.Lib.LastWrite

Partial maps written key by key, where a later write of a key replaces an earlier one.

* `writeAll_apply`: after a list of writes a key holds its last write, or what it held.
* `writeAll_congr`: maps that agree off the written keys are made equal.
* `writeAll_replay`: writes of the same keys made before do not show.
* `writeAll_regroup`: the order of writes of different keys does not matter.
-/

namespace Naiad
namespace Lib

variable {K V : Type} [DecidableEq K]

def write (f : K → Option V) (w : K × V) : K → Option V :=
  fun k => if k = w.1 then some w.2 else f k

def writeAll (f : K → Option V) (ws : List (K × V)) : K → Option V := ws.foldl write f

/-- The value the last write of a key gives it. -/
def lastWrite (ws : List (K × V)) (k : K) : Option V :=
  (ws.reverse.find? fun w => w.1 = k).map Prod.snd

/-- Two maps that agree on every key outside the writes. -/
def AgreeOff (ws : List (K × V)) (f g : K → Option V) : Prop :=
  ∀ k, lastWrite ws k = none → f k = g k

@[simp] theorem write_same (f : K → Option V) (k : K) (v : V) : write f (k, v) k = some v := by
  simp [write]

theorem write_ne {f : K → Option V} {k k' : K} (h : k' ≠ k) (v : V) :
    write f (k, v) k' = f k' := by
  simp [write, h]

@[simp] theorem writeAll_nil (f : K → Option V) : writeAll f [] = f := rfl

@[simp] theorem writeAll_cons (f : K → Option V) (w : K × V) (ws : List (K × V)) :
    writeAll f (w :: ws) = writeAll (write f w) ws := rfl

theorem writeAll_append (f : K → Option V) (as bs : List (K × V)) :
    writeAll f (as ++ bs) = writeAll (writeAll f as) bs := by
  simp [writeAll]

theorem writeAll_singleton (f : K → Option V) (w : K × V) : writeAll f [w] = write f w := rfl

@[simp] theorem lastWrite_nil (k : K) : lastWrite ([] : List (K × V)) k = none := rfl

theorem lastWrite_append (as bs : List (K × V)) (k : K) :
    lastWrite (as ++ bs) k = (lastWrite bs k).or (lastWrite as k) := by
  simp only [lastWrite, List.reverse_append, List.find?_append]
  cases bs.reverse.find? fun w => w.1 = k with
  | none => simp
  | some w => simp

theorem lastWrite_singleton (w : K × V) (k : K) :
    lastWrite [w] k = if w.1 = k then some w.2 else none := by
  by_cases h : w.1 = k
  · simp [lastWrite, h]
  · simp [lastWrite, h]

theorem lastWrite_eq_none {ws : List (K × V)} {k : K} :
    lastWrite ws k = none ↔ ∀ w ∈ ws, w.1 ≠ k := by
  simp [lastWrite]

theorem mem_of_lastWrite {ws : List (K × V)} {k : K} {v : V} (h : lastWrite ws k = some v) :
    (k, v) ∈ ws := by
  obtain ⟨w, hw, rfl⟩ := Option.map_eq_some_iff.1 h
  have hk : w.1 = k := by simpa using List.find?_some hw
  rw [← hk]
  exact List.mem_reverse.1 (List.mem_of_find?_eq_some hw)

theorem writeAll_apply (f : K → Option V) (ws : List (K × V)) (k : K) :
    writeAll f ws k = (lastWrite ws k).or (f k) := by
  induction ws generalizing f with
  | nil => simp
  | cons w ws ih =>
    rw [writeAll_cons, ih, ← List.singleton_append, lastWrite_append, lastWrite_singleton]
    cases lastWrite ws k with
    | some v => simp
    | none =>
      by_cases h : w.1 = k
      · subst h
        simp [write]
      · simp [write, h, Ne.symm h]

theorem writeAll_of_lastWrite {ws : List (K × V)} {k : K} {v : V} (h : lastWrite ws k = some v)
    (f : K → Option V) : writeAll f ws k = some v := by
  simp [writeAll_apply, h]

theorem writeAll_of_not_written {ws : List (K × V)} {k : K} (h : lastWrite ws k = none)
    (f : K → Option V) : writeAll f ws k = f k := by
  simp [writeAll_apply, h]

namespace AgreeOff

variable {ws : List (K × V)} {f g h : K → Option V}

theorem refl (ws : List (K × V)) (f : K → Option V) : AgreeOff ws f f := fun _ _ => rfl

theorem symm (hfg : AgreeOff ws f g) : AgreeOff ws g f := fun k hk => (hfg k hk).symm

theorem trans (hfg : AgreeOff ws f g) (hgh : AgreeOff ws g h) : AgreeOff ws f h :=
  fun k hk => (hfg k hk).trans (hgh k hk)

/-- Writing only written keys keeps a map off them. -/
theorem writeAll_left {ws' : List (K × V)} (hsub : ws' ⊆ ws) (hfg : AgreeOff ws f g) :
    AgreeOff ws (writeAll f ws') g := by
  intro k hk
  have hk' : lastWrite ws' k = none :=
    lastWrite_eq_none.2 fun w hw => lastWrite_eq_none.1 hk w (hsub hw)
  rw [writeAll_of_not_written hk']
  exact hfg k hk

theorem mono {ws' : List (K × V)} (hsub : ws ⊆ ws') (hfg : AgreeOff ws f g) :
    AgreeOff ws' f g := by
  intro k hk
  exact hfg k (lastWrite_eq_none.2 fun w hw => lastWrite_eq_none.1 hk w (hsub hw))

/-- Writes that both maps have had need not be made again. -/
theorem writeAll_both {as bs : List (K × V)} (hfg : AgreeOff (as ++ bs) f g) :
    AgreeOff bs (writeAll f as) (writeAll g as) := by
  intro k hk
  rw [writeAll_apply, writeAll_apply]
  cases has : lastWrite as k with
  | some v => rfl
  | none =>
    have hkeep : f k = g k := hfg k (by simp [lastWrite_append, hk, has])
    simpa using hkeep

end AgreeOff

theorem writeAll_congr {ws : List (K × V)} {f g : K → Option V} (h : AgreeOff ws f g) :
    writeAll f ws = writeAll g ws := by
  funext k
  rw [writeAll_apply, writeAll_apply]
  cases hk : lastWrite ws k with
  | none => simpa using h k hk
  | some v => rfl

theorem find?_filter_self (ws : List (K × V)) (k : K) :
    ((ws.filter fun w => w.1 = k).find? fun w => w.1 = k) = ws.find? fun w => w.1 = k := by
  induction ws with
  | nil => rfl
  | cons w ws ih =>
    by_cases h : w.1 = k
    · simp [h]
    · simp [h, ih]

theorem lastWrite_filter (ws : List (K × V)) (k : K) :
    lastWrite (ws.filter fun w => w.1 = k) k = lastWrite ws k := by
  rw [lastWrite, ← List.filter_reverse, find?_filter_self, lastWrite]

/-- Writes may be regrouped as long as those of one key keep their order. -/
theorem writeAll_regroup {ws ws' : List (K × V)}
    (h : ∀ k, (ws.filter fun w => w.1 = k) = ws'.filter fun w => w.1 = k) (f : K → Option V) :
    writeAll f ws = writeAll f ws' := by
  funext k
  rw [writeAll_apply, writeAll_apply, ← lastWrite_filter ws, h k, lastWrite_filter]

/-- Writes replayed over some of themselves. -/
theorem writeAll_replay {ws ws' : List (K × V)} (hsub : ws' ⊆ ws) (f : K → Option V) :
    writeAll (writeAll f ws') ws = writeAll f ws :=
  writeAll_congr ((AgreeOff.refl ws f).writeAll_left hsub)

end Lib
end Naiad
