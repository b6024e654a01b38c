import Mathlib.Data.Set.Basic

/-!
# Naiad.Lib.StaleView

A view computed key by key from a set of entries that lives elsewhere, next to a copy of that set.
Some entries are stale: nothing is known of them in the copy, nor of the keys they touch in the view.

* `Trails.advance`: the set changes, and what changes becomes stale.
* `Trails.replace`: the view is computed afresh from the set.
* `Trails.deliver`: entries are delivered to the copy, and the view is computed from the copy at the
  keys they touch.
* `Trails.current`: when nothing is stale the view is that of the set.
-/

namespace Naiad
namespace Lib

variable {E K V : Type}

/-- What `Says` says of a key depends on the entries that touch it. -/
def Local (Touches : E → K → Prop) (Says : Set E → K → V → Prop) : Prop :=
  ∀ S S' k v, (∀ e, Touches e k → (e ∈ S ↔ e ∈ S')) → Says S k v → Says S' k v

/-- Away from the stale entries the copy is `truth`, and the view says of a key of `dom` what `truth`
says. -/
structure Trails (Touches : E → K → Prop) (Says : Set E → K → V → Prop) (dom : K → Prop)
    (truth copy stale : Set E) (view : K → V) : Prop where
  copy : ∀ e, e ∉ stale → (e ∈ copy ↔ e ∈ truth)
  view : ∀ k, dom k → Says truth k (view k) ∨ ∃ e ∈ stale, Touches e k

namespace Trails

variable {Touches : E → K → Prop} {Says : Set E → K → V → Prop} {dom : K → Prop}
  {truth truth' copy copy' stale stale' : Set E} {view view' : K → V}

theorem advance (h : Trails Touches Says dom truth copy stale view) (hl : Local Touches Says)
    (hstale : stale ⊆ stale') (hsame : ∀ e, e ∉ stale' → (e ∈ truth' ↔ e ∈ truth)) :
    Trails Touches Says dom truth' copy stale' view where
  copy e he := (h.copy e fun hold => he (hstale hold)).trans (hsame e he).symm
  view := by
    intro k hk
    by_cases htouched : ∃ e ∈ stale', Touches e k
    · exact .inr htouched
    · left
      rcases h.view k hk with hfits | ⟨e, he, ht⟩
      · refine hl truth truth' k _ (fun e ht => ?_) hfits
        exact (hsame e fun he => htouched ⟨e, he, ht⟩).symm
      · exact absurd ⟨e, hstale he, ht⟩ htouched

theorem replace (h : Trails Touches Says dom truth copy stale view)
    (hfits : ∀ k, dom k → Says truth k (view' k)) :
    Trails Touches Says dom truth copy stale view' where
  copy := h.copy
  view k hk := .inl (hfits k hk)

theorem deliver {delivered : Set E} (h : Trails Touches Says dom truth copy stale view)
    (hl : Local Touches Says) (hstale : ∀ e ∈ stale, e ∈ stale' ∨ e ∈ delivered)
    (hright : ∀ e ∈ delivered, e ∉ stale' → (e ∈ copy' ↔ e ∈ truth))
    (hcopy : ∀ e, e ∉ delivered → (e ∈ copy' ↔ e ∈ copy))
    (hfresh : ∀ k, dom k → (∃ e ∈ delivered, Touches e k) → Says copy' k (view' k))
    (hkept : ∀ k, dom k → (¬∃ e ∈ delivered, Touches e k) → view' k = view k) :
    Trails Touches Says dom truth copy' stale' view' := by
  have hsame : ∀ e, e ∉ stale' → (e ∈ copy' ↔ e ∈ truth) := by
    intro e he
    by_cases hd : e ∈ delivered
    · exact hright e hd he
    · refine (hcopy e hd).trans (h.copy e fun hold => ?_)
      exact (hstale e hold).elim he hd
  refine ⟨hsame, fun k hk => ?_⟩
  by_cases htouched : ∃ e ∈ stale', Touches e k
  · exact .inr htouched
  left
  by_cases hd : ∃ e ∈ delivered, Touches e k
  · refine hl copy' truth k _ (fun e ht => ?_) (hfresh k hk hd)
    exact hsame e fun he => htouched ⟨e, he, ht⟩
  · rw [hkept k hk hd]
    rcases h.view k hk with hfits | ⟨e, he, ht⟩
    · exact hfits
    · rcases hstale e he with he | he
      · exact absurd ⟨e, he, ht⟩ htouched
      · exact absurd ⟨e, he, ht⟩ hd

theorem current (h : Trails Touches Says dom truth copy ∅ view) {k : K} (hk : dom k) :
    Says truth k (view k) := by
  rcases h.view k hk with hfits | ⟨e, he, _⟩
  · exact hfits
  · cases he

end Trails

end Lib
end Naiad
