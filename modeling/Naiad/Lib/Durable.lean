import Mathlib.Data.List.Basic

/-!
# Naiad.Lib.Durable

Programs over a durable state that can be cut between any two of their writes, and the rules of
pre-, post- and crash conditions for them.

* `Prog.Triple`: from a state of the precondition every state the program can be cut in meets the
  crash condition, and if it returns, the state it leaves meets the postcondition.
* `Prog.Triple.bind`, `Prog.Triple.forEach`: the rules for sequences and loops.
-/

namespace Naiad
namespace Lib

variable {S E A B : Type}

/-- A run that is not cut: the state after each write, and what the program returns. -/
structure Exec (S E A : Type) where
  visited : List S
  result : Except E A

def Prog (S E A : Type) := S → Exec S E A

namespace Prog

/-- The state a run leaves. -/
def final (m : Prog S E A) (s : S) : S := (m s).visited.getLastD s

/-- The states a run can be cut in. -/
def cuts (m : Prog S E A) (s : S) : List S := s :: (m s).visited

/-- The state a run cut after `n` writes leaves; one with fewer writes is not cut. -/
def cutAt (m : Prog S E A) (n : Nat) (s : S) : S := ((m s).visited.take n).getLastD s

/-- Whether a run that may take `n` writes comes to its end and returns. -/
def endsBy (m : Prog S E A) (n : Nat) (s : S) : Bool :=
  (m s).result.toOption.isSome && decide ((m s).visited.length ≤ n)

def ret (a : A) : Prog S E A := fun _ => ⟨[], .ok a⟩

def read (f : S → Except E A) : Prog S E A := fun s => ⟨[], f s⟩

/-- One committed transaction; when it fails nothing is written. -/
def write (f : S → Except E (S × A)) : Prog S E A := fun s =>
  match f s with
  | .error e => ⟨[], .error e⟩
  | .ok (s', a) => ⟨[s'], .ok a⟩

def bind (m : Prog S E A) (f : A → Prog S E B) : Prog S E B := fun s =>
  match (m s).result with
  | .error e => ⟨(m s).visited, .error e⟩
  | .ok a =>
    ⟨(m s).visited ++ (f a (m.final s)).visited, (f a (m.final s)).result⟩

instance : Monad (Prog S E) where
  pure := ret
  bind := bind

def put (f : S → S) : Prog S E Unit := write fun s => .ok (f s, ())

def fail (e : E) : Prog S E A := read fun _ => .error e

def forEach {X : Type} (f : X → Prog S E Unit) : List X → Prog S E Unit
  | [] => pure ()
  | x :: xs => f x >>= fun _ => forEach f xs

/-- The run returns `a` and leaves `s'`. -/
def Returns (m : Prog S E A) (s : S) (a : A) (s' : S) : Prop :=
  (m s).result = .ok a ∧ m.final s = s'

theorem getLastD_append (as bs : List S) (s : S) :
    (as ++ bs).getLastD s = bs.getLastD (as.getLastD s) := by
  induction as generalizing s with
  | nil => rfl
  | cons a as ih => rw [List.cons_append, List.getLastD_cons, List.getLastD_cons, ih]

theorem final_mem_cuts (m : Prog S E A) (s : S) : m.final s ∈ m.cuts s :=
  List.getLastD_mem_cons

theorem cutAt_mem_cuts (m : Prog S E A) (n : Nat) (s : S) : m.cutAt n s ∈ m.cuts s := by
  have hlast : m.cutAt n s ∈ s :: (m s).visited.take n := List.getLastD_mem_cons
  exact List.cons_subset_cons s (List.take_subset n _) hlast

theorem bind_error {m : Prog S E A} {f : A → Prog S E B} {s : S} {e : E}
    (h : (m s).result = .error e) : (m >>= f) s = ⟨(m s).visited, .error e⟩ := by
  change Prog.bind m f s = _
  simp [Prog.bind, h]

theorem bind_ok {m : Prog S E A} {f : A → Prog S E B} {s : S} {a : A}
    (h : (m s).result = .ok a) :
    (m >>= f) s = ⟨(m s).visited ++ (f a (m.final s)).visited, (f a (m.final s)).result⟩ := by
  change Prog.bind m f s = _
  simp [Prog.bind, h]

theorem returns_of_endsBy {m : Prog S E A} {n : Nat} {s : S} (h : m.endsBy n s = true) :
    ∃ a, Returns m s a (m.cutAt n s) := by
  simp only [endsBy, Bool.and_eq_true, decide_eq_true_eq] at h
  cases hres : (m s).result with
  | error e => simp [hres, Except.toOption] at h
  | ok a => exact ⟨a, hres, by rw [final, cutAt, List.take_of_length_le h.2]⟩

theorem cutAt_zero (m : Prog S E A) (s : S) : m.cutAt 0 s = s := rfl

/-- Behind its first write a run is cut as the rest of it. -/
theorem cutAt_put_bind (f : S → S) (g : Unit → Prog S E B) (n : Nat) (s : S) :
    (put f >>= g).cutAt (n + 1) s = (g ()).cutAt n (f s) := by
  have hbind := bind_ok (m := (put f : Prog S E Unit)) (f := g) (s := s) (a := ()) rfl
  have hvisited : ((put f >>= g) s).visited = f s :: (g () (f s)).visited := by
    rw [hbind]
    rfl
  rw [cutAt, hvisited, List.take_succ_cons, List.getLastD_cons]
  rfl

/-- A run of a sequence is cut in its first part, or as the second is. -/
theorem cutAt_bind {m : Prog S E A} {f : A → Prog S E B} {s : S} {a : A}
    (h : (m s).result = .ok a) (n : Nat) :
    (n < (m s).visited.length ∧ (m >>= f).cutAt n s = m.cutAt n s) ∨
      (m >>= f).cutAt n s ∈ (f a).cuts (m.final s) := by
  have hvisited : ((m >>= f) s).visited = (m s).visited ++ (f a (m.final s)).visited := by
    rw [bind_ok h]
  rcases Nat.lt_or_ge n (m s).visited.length with hn | hn
  · refine .inl ⟨hn, ?_⟩
    rw [cutAt, hvisited, List.take_append_of_le_length (Nat.le_of_lt hn)]
    rfl
  · refine .inr ?_
    have hcut : (m >>= f).cutAt n s = (f a).cutAt (n - (m s).visited.length) (m.final s) := by
      rw [cutAt, hvisited, List.take_append, List.take_of_length_le hn, getLastD_append]
      rfl
    rw [hcut]
    exact cutAt_mem_cuts _ _ _

theorem bind_returns {m : Prog S E A} {f : A → Prog S E B} {s s'' : S} {b : B} :
    Returns (m >>= f) s b s'' ↔ ∃ a s', Returns m s a s' ∧ Returns (f a) s' b s'' := by
  cases h : (m s).result with
  | error e => simp [Returns, bind_error h, h]
  | ok a =>
    have hfin : (m >>= f).final s = (f a).final (m.final s) := by
      unfold final
      rw [bind_ok h, getLastD_append]
      rfl
    simp [Returns, bind_ok h, h, hfin]

theorem bind_assoc {C : Type} (m : Prog S E A) (f : A → Prog S E B) (g : B → Prog S E C) :
    m >>= f >>= g = m >>= fun a => f a >>= g := by
  funext s
  cases h : (m s).result with
  | error e =>
    have hmf : (m >>= f) s = ⟨(m s).visited, .error e⟩ := bind_error h
    rw [bind_error h, bind_error (by rw [hmf]), hmf]
  | ok a =>
    have hmf : (m >>= f) s =
        ⟨(m s).visited ++ (f a (m.final s)).visited, (f a (m.final s)).result⟩ := bind_ok h
    have hfin : (m >>= f).final s = (f a).final (m.final s) := by
      unfold final
      rw [hmf, getLastD_append]
      rfl
    rw [bind_ok h]
    cases h' : (f a (m.final s)).result with
    | error e => rw [bind_error (by rw [hmf]; exact h'), hmf, bind_error h']
    | ok b =>
      rw [bind_ok (by rw [hmf]; exact h'), hmf, bind_ok h', hfin, List.append_assoc]

theorem mem_cuts_bind {m : Prog S E A} {f : A → Prog S E B} {s s' : S} :
    s' ∈ (m >>= f).cuts s ↔
      s' ∈ m.cuts s ∨ ∃ a, (m s).result = .ok a ∧ s' ∈ (f a).cuts (m.final s) := by
  cases h : (m s).result with
  | error e => simp [cuts, bind_error h]
  | ok a =>
    have hmem := final_mem_cuts m s
    simp only [cuts, bind_ok h, List.mem_cons, List.mem_append, Except.ok.injEq,
      exists_eq_left'] at hmem ⊢
    constructor
    · intro hs'
      rcases hs' with hs' | hs' | hs'
      · exact .inl (.inl hs')
      · exact .inl (.inr hs')
      · exact .inr (.inr hs')
    · intro hs'
      rcases hs' with (hs' | hs') | hs' | hs'
      · exact .inl hs'
      · exact .inr (.inl hs')
      · rw [hs']
        rcases hmem with hmem | hmem
        · exact .inl hmem
        · exact .inr (.inl hmem)
      · exact .inr (.inr hs')

/-! ## Pre-, post- and crash conditions -/

structure Triple (P : S → Prop) (m : Prog S E A) (Q : A → S → Prop) (C : S → Prop) : Prop where
  crash : ∀ s, P s → ∀ s' ∈ m.cuts s, C s'
  post : ∀ s a s', P s → m.Returns s a s' → Q a s'

namespace Triple

variable {P P' C C' : S → Prop} {Q Q' : A → S → Prop} {R : B → S → Prop}

theorem conseq {m : Prog S E A} (h : Triple P m Q C) (hp : ∀ s, P' s → P s)
    (hq : ∀ a s, Q a s → Q' a s) (hc : ∀ s, C s → C' s) : Triple P' m Q' C' where
  crash s hs s' hs' := hc s' (h.crash s (hp s hs) s' hs')
  post s a s' hs hr := hq a s' (h.post s a s' (hp s hs) hr)

theorem and {m : Prog S E A} (h : Triple P m Q C) (h' : Triple P' m Q' C') :
    Triple (fun s => P s ∧ P' s) m (fun a s => Q a s ∧ Q' a s) (fun s => C s ∧ C' s) where
  crash s hs s' hs' := ⟨h.crash s hs.1 s' hs', h'.crash s hs.2 s' hs'⟩
  post s a s' hs hr := ⟨h.post s a s' hs.1 hr, h'.post s a s' hs.2 hr⟩

/-- The state a program leaves is one it can be cut in. -/
theorem withCrash {m : Prog S E A} (h : Triple P m Q C) :
    Triple P m (fun a s => Q a s ∧ C s) C where
  crash := h.crash
  post s a s' hs hr := by
    refine ⟨h.post s a s' hs hr, h.crash s hs s' ?_⟩
    rw [← hr.2]
    exact final_mem_cuts m s

/-- A precondition is met one state at a time. -/
theorem pointwise {m : Prog S E A} (h : ∀ s₀, P s₀ → Triple (fun s => s = s₀) m Q C) :
    Triple P m Q C where
  crash s hs s' hs' := (h s hs).crash s rfl s' hs'
  post s a s' hs hr := (h s hs).post s a s' rfl hr

theorem ret {a : A} (hc : ∀ s, P s → C s) (hq : ∀ s, P s → Q a s) :
    Triple P (pure a : Prog S E A) Q C where
  crash s hs s' hs' := by
    obtain rfl : s' = s := by simpa [cuts, pure, Prog.ret] using hs'
    exact hc s' hs
  post s a' s' hs hr := by
    obtain ⟨hres, rfl⟩ := hr
    cases hres
    exact hq s hs

theorem read {f : S → Except E A} (hc : ∀ s, P s → C s)
    (hq : ∀ s a, P s → f s = .ok a → Q a s) : Triple P (Prog.read f) Q C where
  crash s hs s' hs' := by
    obtain rfl : s' = s := by simpa [cuts, Prog.read] using hs'
    exact hc s' hs
  post s a s' hs hr := by
    obtain ⟨hres, rfl⟩ := hr
    exact hq s a hs hres

theorem fail {e : E} (hc : ∀ s, P s → C s) : Triple P (Prog.fail e : Prog S E A) Q C :=
  read hc fun _ _ _ h => nomatch h

theorem write {f : S → Except E (S × A)} (hc : ∀ s, P s → C s)
    (hq : ∀ s s' a, P s → f s = .ok (s', a) → C s' ∧ Q a s') : Triple P (Prog.write f) Q C where
  crash s hs s' hs' := by
    unfold cuts Prog.write at hs'
    cases hf : f s with
    | error e =>
      obtain rfl : s' = s := by simpa [hf] using hs'
      exact hc s' hs
    | ok r =>
      obtain ⟨t, a⟩ := r
      simp only [hf, List.mem_cons, List.not_mem_nil, or_false] at hs'
      rcases hs' with rfl | rfl
      · exact hc s' hs
      · exact (hq s s' a hs hf).1
  post s a s' hs hr := by
    obtain ⟨hres, rfl⟩ := hr
    unfold final
    unfold Prog.write at hres ⊢
    cases hf : f s with
    | error e => simp [hf] at hres
    | ok r =>
      obtain ⟨t, b⟩ := r
      simp only [hf] at hres ⊢
      cases hres
      exact (hq s t a hs hf).2

theorem put {f : S → S} {Q : Unit → S → Prop} (hc : ∀ s, P s → C s)
    (hq : ∀ s, P s → C (f s) ∧ Q () (f s)) : Triple P (Prog.put f : Prog S E Unit) Q C := by
  refine write hc ?_
  intro s s' a hs hf
  cases hf
  exact hq s hs

theorem bind {m : Prog S E A} {f : A → Prog S E B} (hm : Triple P m Q C)
    (hf : ∀ a, Triple (Q a) (f a) R C) : Triple P (m >>= f) R C where
  crash s hs s' hs' := by
    rcases mem_cuts_bind.1 hs' with hs' | ⟨a, hres, hs'⟩
    · exact hm.crash s hs s' hs'
    · exact (hf a).crash (m.final s) (hm.post s a _ hs ⟨hres, rfl⟩) s' hs'
  post s b s'' hs hr := by
    obtain ⟨a, s', hm', hf'⟩ := bind_returns.1 hr
    exact (hf a).post s' b s'' (hm.post s a s' hs hm') hf'

/-- A loop with an invariant about the elements done so far. -/
theorem forEach {X : Type} {f : X → Prog S E Unit} (inv : List X → S → Prop)
    (xs : List X) (hc : ∀ s, inv xs s → C s)
    (hstep : ∀ done x rest, xs = done ++ x :: rest →
      Triple (inv done) (f x) (fun _ s => inv (done ++ [x]) s) C) :
    Triple (inv []) (Prog.forEach f xs) (fun _ s => inv xs s) C := by
  have hgen : ∀ rest done, xs = done ++ rest →
      Triple (inv done) (Prog.forEach f rest) (fun _ s => inv xs s) C := by
    intro rest
    induction rest with
    | nil =>
      intro done hxs
      have hdone : done = xs := by simp [hxs]
      subst hdone
      exact ret hc fun _ hs => hs
    | cons x rest ih =>
      intro done hxs
      exact (hstep done x rest hxs).bind fun _ => ih (done ++ [x]) (by simp [hxs])
  exact hgen xs [] rfl

end Triple

end Prog

end Lib
end Naiad
