import Mathlib.Data.Finset.Basic

/-!
# Naiad.Lib.DeltaLog

Replication of a keyed store by version cursors. Every key of the store holds a value and the
version at which it last changed; a replica is a set of keys, kept to those whose value is live.

* `InSync.advance`: a replica in sync up to a cursor stays so when every change of the store takes
  a version past the cursor.
* `InSync.pull`: applying the rows past the cursor makes the replica exact.
* `InSync.merge`: applying them late leaves it in sync up to the cursor they were read at.
* `mem_replay`: what replaying a list of changes does to one key.
-/

namespace Naiad
namespace Lib

section Log

variable {K V : Type}

/-- A store in which each key has a value and the version of its last change. -/
abbrev Log (K V : Type) := K → Option (V × Nat)

/-- `σ'` comes from `σ` by changes that all took versions past `c`. -/
def Advances (c : Nat) (σ σ' : Log K V) : Prop :=
  ∀ k, σ' k = σ k ∨ ∃ v n, σ' k = some (v, n) ∧ c < n

/-- No version of the store is past `c`. -/
def Bounded (σ : Log K V) (c : Nat) : Prop := ∀ k v n, σ k = some (v, n) → n ≤ c

/-- No version is used by two keys. -/
def Distinct (σ : Log K V) : Prop :=
  ∀ k k' v v' n, σ k = some (v, n) → σ k' = some (v', n) → k = k'

variable (live : V → Prop)

/-- The replica agrees with every key of `dom` the store last changed at or before `c`. -/
def InSync (dom : K → Prop) (c : Nat) (σ : Log K V) (view : K → Prop) : Prop :=
  ∀ k, dom k → (∀ v n, σ k = some (v, n) → n ≤ c → (view k ↔ live v)) ∧ (σ k = none → ¬ view k)

/-- The replica holds exactly the live keys of `dom`. -/
def Exact (dom : K → Prop) (σ : Log K V) (view : K → Prop) : Prop :=
  ∀ k, dom k → (view k ↔ ∃ v n, σ k = some (v, n) ∧ live v)

variable {live} {dom : K → Prop} {c c' : Nat} {σ σ' σ'' : Log K V} {view view' : K → Prop}

theorem Advances.refl (c : Nat) (σ : Log K V) : Advances c σ σ := fun _ => .inl rfl

theorem Advances.mono (h : Advances c' σ σ') (hc : c ≤ c') : Advances c σ σ' := by
  intro k
  rcases h k with h | ⟨v, n, h, hn⟩
  · exact .inl h
  · exact .inr ⟨v, n, h, by omega⟩

theorem Advances.trans (h : Advances c σ σ') (h' : Advances c σ' σ'') : Advances c σ σ'' := by
  intro k
  rcases h' k with h' | h'
  · rw [h']
    exact h k
  · exact .inr h'

theorem Exact.inSync (h : Exact live dom σ view) (c : Nat) : InSync live dom c σ view := by
  intro k hk
  constructor
  · intro v n hσ _
    rw [h k hk, hσ]
    constructor
    · rintro ⟨v', n', he, hl⟩
      cases he
      exact hl
    · intro hl
      exact ⟨v, n, rfl, hl⟩
  · intro hσ hv
    obtain ⟨v, n, he, _⟩ := (h k hk).1 hv
    rw [hσ] at he
    cases he

theorem InSync.exact (h : InSync live dom c σ view) (hb : Bounded σ c) :
    Exact live dom σ view := by
  intro k hk
  cases hσ : σ k with
  | none =>
    constructor
    · intro hv
      exact absurd hv ((h k hk).2 hσ)
    · rintro ⟨v, n, he, _⟩
      cases he
  | some r =>
    obtain ⟨v, n⟩ := r
    rw [(h k hk).1 v n hσ (hb k v n hσ)]
    constructor
    · intro hl
      exact ⟨v, n, rfl, hl⟩
    · rintro ⟨v', n', he, hl⟩
      cases he
      exact hl

theorem InSync.advance (h : InSync live dom c σ view) (ha : Advances c σ σ') :
    InSync live dom c σ' view := by
  intro k hk
  rcases ha k with he | ⟨v, n, he, hn⟩
  · rw [he]
    exact h k hk
  · constructor
    · intro v' n' he' hn'
      rw [he] at he'
      cases he'
      omega
    · intro hnone
      rw [he] at hnone
      cases hnone

/-- A replica in sync up to `c` that takes over every row past `c`, and any others, is exact. -/
theorem InSync.pull (h : InSync live dom c σ view)
    (hpull : ∀ k, dom k → (∃ v n, σ k = some (v, n) ∧ (view' k ↔ live v)) ∨
      ((∀ v n, σ k = some (v, n) → n ≤ c) ∧ (view' k ↔ view k))) :
    Exact live dom σ view' := by
  intro k hk
  rcases hpull k hk with ⟨v, n, hσ, hv⟩ | ⟨hold, hv⟩
  · rw [hv, hσ]
    constructor
    · intro hl
      exact ⟨v, n, rfl, hl⟩
    · rintro ⟨v', n', he, hl⟩
      cases he
      exact hl
  · rw [hv]
    cases hσ : σ k with
    | none =>
      constructor
      · intro hview
        exact absurd hview ((h k hk).2 hσ)
      · rintro ⟨v, n, he, _⟩
        cases he
    | some r =>
      obtain ⟨v, n⟩ := r
      rw [(h k hk).1 v n hσ (hold v n hσ)]
      constructor
      · intro hl
        exact ⟨v, n, rfl, hl⟩
      · rintro ⟨v', n', he, hl⟩
        cases he
        exact hl

theorem InSync.mono (h : InSync live dom c' σ view) (hc : c ≤ c') : InSync live dom c σ view :=
  fun k hk => ⟨fun v n hσ hn => (h k hk).1 v n hσ (hn.trans hc), (h k hk).2⟩

/-- A replica in sync up to `since` that takes over the rows past `since` of an earlier store, which
since then changed only past `c`, is in sync up to `c`; one that asked from the beginning forgets
what it held. -/
theorem InSync.merge {since : Nat} (h : since ≠ 0 → InSync live dom since σ' view)
    (hlater : Advances c σ σ') (hpos : ∀ k v n, σ k = some (v, n) → 0 < n)
    (hreply : ∀ k, dom k → (∃ v n, σ k = some (v, n) ∧ (view' k ↔ live v)) ∨
      ((∀ v n, σ k = some (v, n) → n ≤ since) ∧ (view' k ↔ since ≠ 0 ∧ view k))) :
    InSync live dom c σ' view' := by
  intro k hk
  constructor
  · intro v n hσ' hn
    have hσ : σ k = some (v, n) := by
      rcases hlater k with he | ⟨v', n', he, hn'⟩
      · rw [← he]
        exact hσ'
      · rw [hσ'] at he
        cases he
        omega
    rcases hreply k hk with ⟨v', n', he, hview⟩ | ⟨hold, hview⟩
    · rw [hσ] at he
      cases he
      exact hview
    · have hle := hold v n hσ
      have hne : since ≠ 0 := by
        have := hpos k v n hσ
        omega
      rw [hview, (h hne k hk).1 v n hσ' hle]
      exact and_iff_right hne
  · intro hnone hmem
    rcases hreply k hk with ⟨v, n, he, _⟩ | ⟨_, hview⟩
    · rcases hlater k with he' | ⟨_, _, he', _⟩
      · rw [hnone, he] at he'
        cases he'
      · rw [hnone] at he'
        cases he'
    · obtain ⟨hne, hold⟩ := hview.1 hmem
      exact (h hne k hk).2 hnone hold

end Log

/-! ## Replaying changes -/

section Replay

variable {K : Type} [DecidableEq K]

/-- Replay changes on a set: a live change inserts its key, any other removes it. -/
def replay (changes : List (K × Bool)) (view : Finset K) : Finset K :=
  changes.foldl (fun s e => if e.2 then insert e.1 s else s.erase e.1) view

theorem mem_replay_of_not_mem {changes : List (K × Bool)} {view : Finset K} {k : K}
    (h : ∀ b, (k, b) ∉ changes) : k ∈ replay changes view ↔ k ∈ view := by
  induction changes generalizing view with
  | nil => rfl
  | cons e changes ih =>
    have hne : k ≠ e.1 := by
      rintro rfl
      exact h e.2 (by simp)
    change k ∈ replay changes (if e.2 then insert e.1 view else view.erase e.1) ↔ _
    rw [ih (fun b hb => h b (List.mem_cons_of_mem _ hb))]
    split <;> simp [hne]

/-- A key all of whose changes agree ends as they say. -/
theorem mem_replay {changes : List (K × Bool)} {view : Finset K} {k : K} {b : Bool}
    (hmem : (k, b) ∈ changes) (hall : ∀ b', (k, b') ∈ changes → b' = b) :
    k ∈ replay changes view ↔ b = true := by
  induction changes generalizing view with
  | nil => cases hmem
  | cons e changes ih =>
    change k ∈ replay changes (if e.2 then insert e.1 view else view.erase e.1) ↔ _
    by_cases hlater : (k, b) ∈ changes
    · exact ih hlater (fun b' hb' => hall b' (List.mem_cons_of_mem _ hb'))
    · have he : (k, b) = e := by
        rcases List.mem_cons.1 hmem with he | he
        · exact he
        · exact absurd he hlater
      subst he
      rw [mem_replay_of_not_mem]
      · cases b <;> simp
      · intro b' hb'
        have := hall b' (List.mem_cons_of_mem _ hb')
        subst this
        exact hlater hb'

end Replay

end Lib
end Naiad
