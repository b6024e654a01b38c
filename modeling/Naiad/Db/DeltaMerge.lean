import Naiad.Db.RelationMerge
import Naiad.Lib.StaleView

/-!
# Naiad.Db.DeltaMerge

The delta merge of a relation pull: edges are staged, and the keys they touch are recomputed from
what is staged.

* `SaysCell`: what the tables are to say for a set of edges: the least `to`, and its least author.
* `mem_heldEdges_of_mem`: what is staged after a delta.
* `mergeRelationDelta_spec`: **the touched keys say what the staged edges say, the others stay**.
-/

namespace Naiad
namespace Db

open Lib Netproto

/-! ## What the tables are to say -/

/-- The text of a tag is that of no other. -/
def Reparses (u : Unicode) (tag : Tag) : Prop := Tag.parse u tag.display = .ok tag

instance (u : Unicode) (tag : Tag) : Decidable (Reparses u tag) :=
  inferInstanceAs (Decidable (Tag.parse u tag.display = .ok tag))

theorem Reparses.inj {u : Unicode} {a b : Tag} (ha : Reparses u a) (hb : Reparses u b)
    (h : a.display = b.display) : a = b := by
  rw [Reparses, h] at ha
  exact Except.ok.inj (ha.symm.trans hb)

/-- A slot that a pull can fill. -/
def Slot.Proper (u : Unicode) : Slot → Prop
  | .sibling bad => Reparses u bad
  | .parent a b => Reparses u a ∧ Reparses u b ∧ a ≠ b

/-- The edges a slot depends on. -/
def Touches (e : Edge) : Slot → Prop
  | .sibling bad => e.1 = .sibling ∧ e.2.1 = bad.display
  | .parent child parent =>
    e.1 = .parent ∧ e.2.1 = child.display ∧ e.2.2.1 = parent.display

/-- The targets that edges offer a slot, with their authors. -/
def candidates (S : Set Edge) : Slot → Set (Lex (String × String))
  | .sibling bad => {w | (.sibling, bad.display, ofLex w) ∈ S ∧ (ofLex w).1 ≠ bad.display}
  | .parent child parent =>
    {w | (.parent, child.display, ofLex w) ∈ S ∧ (ofLex w).1 = parent.display}

/-- The cell of a slot is the least candidate, and there is none without candidates. -/
def SaysCell (u : Unicode) (S : Set Edge) (slot : Slot) (o : Option Cell) : Prop :=
  ∀ x : Cell, o = some x ↔ x.status = .current ∧ Reparses u x.target ∧
    ∃ author, x.author = some author ∧
      IsLeast (candidates S slot) (toLex (x.target.display, author))

/-- The texts of the edges are those of tags. -/
def Texts (u : Unicode) (S : Set Edge) : Prop :=
  ∀ e ∈ S, (∃ tag, Reparses u tag ∧ tag.display = e.2.1) ∧
    ∃ tag, Reparses u tag ∧ tag.display = e.2.2.1

section

variable {u : Unicode} {S S' : Set Edge} {slot : Slot} {o o' : Option Cell}

theorem candidates_congr (h : ∀ e, Touches e slot → (e ∈ S ↔ e ∈ S')) :
    candidates S slot = candidates S' slot := by
  ext w
  cases slot with
  | sibling bad => exact and_congr_left fun _ => h _ ⟨rfl, rfl⟩
  | parent child parent => exact and_congr_left fun hw => h _ ⟨rfl, rfl, hw⟩

theorem local_saysCell (u : Unicode) : Local Touches (SaysCell u) := by
  intro S S' slot o hsame h
  rw [SaysCell, ← candidates_congr hsame]
  exact h

theorem SaysCell.unique (h : SaysCell u S slot o) (h' : SaysCell u S slot o') : o = o' :=
  Option.ext fun x => (h x).trans (h' x).symm

/-- The least candidate is a row of a tag. -/
theorem exists_target (hS : Texts u S) {w : Lex (String × String)} (hw : w ∈ candidates S slot) :
    ∃ tag, Reparses u tag ∧ tag.display = (ofLex w).1 := by
  cases slot with
  | sibling bad => exact (hS _ hw.1).2
  | parent child parent => exact (hS _ hw.1).2

theorem saysCell_none (h : ∀ w, ¬ IsLeast (candidates S slot) w) : SaysCell u S slot none := by
  intro x
  refine ⟨fun hx => (by cases hx), ?_⟩
  rintro ⟨_, _, author, _, hleast⟩
  exact absurd hleast (h _)

theorem saysCell_some {tag : Tag} {author : String} (htag : Reparses u tag)
    (h : IsLeast (candidates S slot) (toLex (tag.display, author))) :
    SaysCell u S slot (some ⟨tag, .current, some author⟩) := by
  intro x
  constructor
  · intro hx
    cases hx
    exact ⟨rfl, htag, author, rfl, h⟩
  · rintro ⟨hstatus, hx, author', hauthor, hleast⟩
    obtain ⟨target, status, a⟩ := x
    have heq : (tag.display, author) = (target.display, author') :=
      toLex.injective (h.unique hleast)
    obtain ⟨hdisplay, rfl⟩ := Prod.mk.inj heq
    obtain rfl := htag.inj hx hdisplay
    rw [show a = some author from hauthor, show status = .current from hstatus]

theorem siblingWinner_eq_some {edges : List Edge} {bad : Tag} {w : String × String}
    (hS : ∀ e, e ∈ edges ↔ e ∈ S) : siblingWinner edges bad.display = some w ↔
      IsLeast (candidates S (.sibling bad)) (toLex w) := by
  have hmem : ∀ v : Lex (String × String),
      v ∈ (edges.filter fun e : Edge => e.1 = .sibling ∧ e.2.1 = bad.display ∧
        e.2.2.1 ≠ bad.display).map (fun e => toLex e.2.2) ↔
          v ∈ candidates S (.sibling bad) := by
    intro v
    simp only [List.mem_map, List.mem_filter, decide_eq_true_eq, hS]
    constructor
    · rintro ⟨⟨kind, from', w⟩, ⟨he, rfl, rfl, hne⟩, rfl⟩
      exact ⟨he, hne⟩
    · rintro ⟨he, hne⟩
      exact ⟨_, ⟨he, rfl, rfl, hne⟩, rfl⟩
  simp only [siblingWinner, Option.map_eq_some_iff, List.min?_eq_some_iff, hmem]
  constructor
  · rintro ⟨v, hv, rfl⟩
    exact hv
  · intro hw
    exact ⟨toLex w, hw, rfl⟩

theorem parentWinner_eq_some {edges : List Edge} {child parent : Tag} {author : String}
    (hS : ∀ e, e ∈ edges ↔ e ∈ S) :
    parentWinner edges child.display parent.display = some author ↔
      IsLeast (candidates S (.parent child parent)) (toLex (parent.display, author)) := by
  have hmem : ∀ a, a ∈ (edges.filter fun e : Edge => e.1 = .parent ∧ e.2.1 = child.display ∧
      e.2.2.1 = parent.display).map (fun e => e.2.2.2) ↔
        toLex (parent.display, a) ∈ candidates S (.parent child parent) := by
    intro a
    simp only [List.mem_map, List.mem_filter, decide_eq_true_eq, hS]
    constructor
    · rintro ⟨⟨kind, from', to', a⟩, ⟨he, rfl, rfl, rfl⟩, rfl⟩
      exact ⟨he, rfl⟩
    · rintro ⟨he, _⟩
      exact ⟨_, ⟨he, rfl, rfl, rfl⟩, rfl⟩
  simp only [parentWinner, List.min?_eq_some_iff, hmem]
  refine and_congr_right fun _ => ⟨fun hle w hw => ?_, fun hle a ha => ?_⟩
  · have hw' : w = toLex (parent.display, (ofLex w).2) := by
      rw [← hw.2]
      rfl
    rw [hw'] at hw ⊢
    exact Prod.Lex.right _ (hle _ hw)
  · rcases Prod.Lex.le_iff.1 (hle ha) with hlt | ⟨_, hle⟩
    · exact absurd hlt (lt_irrefl _)
    · exact hle

end

/-! ## One key recomputed -/

/-- The rows of a pulled service are current and fill proper slots. -/
def RelationDb.Pulled (c : RelationDb) (u : Unicode) (service : Nat) : Prop :=
  ∀ slot x, c.cell service slot = some x → slot.Proper u ∧ x.status = .current

/-- What recomputing slots does. -/
structure Recomputed (u : Unicode) (service : Nat) (slots : List Slot) (c c' : RelationDb) :
    Prop where
  references : c'.References
  edges : c'.relationEdges = c.relationEdges
  services : c'.db.services = c.db.services
  pulled : c'.Pulled u service
  fits : ∀ slot ∈ slots, SaysCell u (c.heldEdges service) slot (c'.cell service slot)
  other : ∀ s slot, ¬(s = service ∧ slot ∈ slots) → c'.cell s slot = c.cell s slot

namespace Recomputed

variable {u : Unicode} {service : Nat} {slots slots' : List Slot} {c c' c'' : RelationDb}

theorem refl (h : c.References) (hp : c.Pulled u service) : Recomputed u service [] c c :=
  ⟨h, rfl, rfl, hp, fun _ hs => (by cases hs), fun _ _ _ => rfl⟩

theorem trans (h : Recomputed u service slots c c') (h' : Recomputed u service slots' c' c'') :
    Recomputed u service (slots ++ slots') c c'' where
  references := h'.references
  edges := h'.edges.trans h.edges
  services := h'.services.trans h.services
  pulled := h'.pulled
  fits := by
    intro slot hslot
    have hheld : c'.heldEdges service = c.heldEdges service := RelationDb.heldEdges_congr h.edges
    by_cases hlater : slot ∈ slots'
    · rw [← hheld]
      exact h'.fits slot hlater
    · rw [h'.other service slot fun hs => hlater hs.2]
      exact h.fits slot ((List.mem_append.1 hslot).resolve_right hlater)
  other := by
    intro s slot hs
    rw [h'.other s slot fun hs' => hs ⟨hs'.1, List.mem_append_right _ hs'.2⟩]
    exact h.other s slot fun hs' => hs ⟨hs'.1, List.mem_append_left _ hs'.2⟩

theorem of_setCell {slot : Slot} {o : Option Cell} (hp : c.Pulled u service)
    (hslot : slot.Proper u) (hr : c'.References) (hedges : c'.relationEdges = c.relationEdges)
    (hservices : c'.db.services = c.db.services)
    (hcell : c'.cell = setCell c.cell service slot o)
    (hfits : SaysCell u (c.heldEdges service) slot o) : Recomputed u service [slot] c c' where
  references := hr
  edges := hedges
  services := hservices
  pulled := by
    intro slot' x hx
    simp only [hcell, setCell, true_and] at hx
    split at hx
    · rename_i heq
      rw [heq]
      exact ⟨hslot, ((hfits x).1 hx).1⟩
    · exact hp slot' x hx
  fits := by
    intro slot' hmem
    obtain rfl := List.mem_singleton.1 hmem
    simpa [hcell, setCell] using hfits
  other := by
    intro s slot' hs
    simp only [hcell, setCell]
    rw [if_neg fun hs' => hs ⟨hs'.1, List.mem_singleton.2 hs'.2⟩]

end Recomputed

section

variable {u : Unicode} {service : Nat} {c : RelationDb}

/-- The status a row keeps is the one a new row has. -/
theorem RelationDb.Pulled.status (hp : c.Pulled u service) (slot : Slot) :
    ((c.cell service slot).map Cell.status).getD .current = .current := by
  cases hx : c.cell service slot with
  | none => rfl
  | some x => exact (hp slot x hx).2

theorem recomputeSibling_spec (h : c.References) (hp : c.Pulled u service)
    (hS : Texts u (c.heldEdges service)) {bad : Tag} (hbad : Reparses u bad) :
    ∃ c', c.recomputeSibling u service bad.display = .ok c' ∧
      Recomputed u service [.sibling bad] c c' := by
  have hparse : Tag.parse u bad.display = .ok bad := hbad
  unfold RelationDb.recomputeSibling
  simp only [hparse]
  cases hw : siblingWinner (c.currentEdges service) bad.display with
  | none =>
    obtain ⟨hr, hcell⟩ := @RelationDb.deleteSibling_spec c service h bad
    refine ⟨_, rfl, .of_setCell hp hbad hr ?_ ?_ hcell (saysCell_none fun w hleast => ?_)⟩
    · unfold RelationDb.deleteSibling
      split <;> rfl
    · unfold RelationDb.deleteSibling
      split <;> rfl
    · have hsome : siblingWinner (c.currentEdges service) bad.display = some (ofLex w) :=
        (siblingWinner_eq_some fun e => c.mem_currentEdges).2 hleast
      rw [hw] at hsome
      cases hsome
  | some w =>
    obtain ⟨text, author⟩ := w
    have hleast := (siblingWinner_eq_some fun e => c.mem_currentEdges).1 hw
    obtain ⟨ideal, hideal, rfl⟩ := exists_target hS hleast.1
    have hparse' : Tag.parse u ideal.display = .ok ideal := hideal
    simp only [hparse']
    obtain ⟨hpair, hcells, hb, hi⟩ := RelationDb.internPair_spec h bad ideal
    obtain ⟨hr, hcell⟩ := @RelationDb.upsertSibling_spec _ service hpair _ _ _ _ hb hi author
    rw [hcells, hp.status] at hcell
    exact ⟨_, rfl, .of_setCell hp hbad hr rfl rfl hcell (saysCell_some hideal hleast)⟩

theorem recomputeParent_spec (h : c.References) (hp : c.Pulled u service) {child parent : Tag}
    (hchild : Reparses u child) (hparent : Reparses u parent) (hne : child ≠ parent) :
    ∃ c', c.recomputeParent u service (child.display, parent.display) = .ok c' ∧
      Recomputed u service [.parent child parent] c c' := by
  have hparse : Tag.parse u child.display = .ok child := hchild
  have hparse' : Tag.parse u parent.display = .ok parent := hparent
  have hproper : (Slot.parent child parent).Proper u := ⟨hchild, hparent, hne⟩
  unfold RelationDb.recomputeParent
  simp only [hparse, hparse', if_neg fun heq => hne (hchild.inj hparent heq)]
  cases hw : parentWinner (c.currentEdges service) child.display parent.display with
  | none =>
    obtain ⟨hr, hcell⟩ := @RelationDb.deleteParent_spec c service h child parent
    refine ⟨_, rfl, .of_setCell hp hproper hr ?_ ?_ hcell (saysCell_none fun w hleast => ?_)⟩
    · unfold RelationDb.deleteParent
      split <;> rfl
    · unfold RelationDb.deleteParent
      split <;> rfl
    · have hw' : w = toLex (parent.display, (ofLex w).2) := by
        rw [← hleast.1.2]
        rfl
      rw [hw'] at hleast
      have hsome := (parentWinner_eq_some fun e => c.mem_currentEdges).2 hleast
      rw [hw] at hsome
      cases hsome
  | some author =>
    have hleast := (parentWinner_eq_some fun e => c.mem_currentEdges).1 hw
    obtain ⟨hpair, hcells, ha, hb⟩ := RelationDb.internPair_spec h child parent
    obtain ⟨hr, hcell⟩ := @RelationDb.upsertParent_spec _ service hpair _ _ _ _ ha hb author
    rw [hcells, hp.status] at hcell
    exact ⟨_, rfl, .of_setCell hp hproper hr rfl rfl hcell (saysCell_some hparent hleast)⟩

/-- Keys are recomputed one after another, all from the same staged edges. -/
theorem foldlM_recompute {K : Type} {f : RelationDb → K → Except ParseError RelationDb}
    {slots : K → List Slot} {keys : List K} (h : c.References) (hp : c.Pulled u service)
    (hS : Texts u (c.heldEdges service))
    (hstep : ∀ key ∈ keys, ∀ c : RelationDb, c.References → c.Pulled u service →
      Texts u (c.heldEdges service) →
        ∃ c', f c key = .ok c' ∧ Recomputed u service (slots key) c c') :
    ∃ c', keys.foldlM f c = .ok c' ∧ Recomputed u service (keys.flatMap slots) c c' := by
  induction keys generalizing c with
  | nil => exact ⟨c, rfl, .refl h hp⟩
  | cons key keys ih =>
    obtain ⟨c₁, hone, h₁⟩ := hstep key (by simp) c h hp hS
    have hheld : c₁.heldEdges service = c.heldEdges service :=
      RelationDb.heldEdges_congr h₁.edges
    obtain ⟨c', hrest, h'⟩ := ih h₁.references h₁.pulled (hheld ▸ hS)
      fun key hkey => hstep key (List.mem_cons_of_mem _ hkey)
    refine ⟨c', ?_, h₁.trans h'⟩
    rw [List.foldlM_cons, hone]
    exact hrest

end

/-! ## The delta -/

def siblingSlots (u : Unicode) (text : String) : List Slot :=
  match Tag.parse u text with
  | .ok bad => [.sibling bad]
  | .error _ => []

/-- An edge from a tag to itself has no slot. -/
def parentSlots (u : Unicode) (key : String × String) : List Slot :=
  if key.1 = key.2 then []
  else
    match Tag.parse u key.1, Tag.parse u key.2 with
    | .ok child, .ok parent => [.parent child parent]
    | _, _ => []

def touchedSlots (u : Unicode) (edges : List DeltaEdgeInput) : List Slot :=
  (RelationDb.touchedSiblings edges).flatMap (siblingSlots u) ++
    (RelationDb.touchedParents edges).flatMap (parentSlots u)

/-- The tags of an edge are those of its texts. -/
def DeltaEdgeInput.Parsed (u : Unicode) (e : DeltaEdgeInput) : Prop :=
  Reparses u e.fromTag ∧ Reparses u e.toTag

section

variable {u : Unicode} {service : Nat} {c : RelationDb} {edges : List DeltaEdgeInput}

theorem mem_touchedSlots (hedges : ∀ e ∈ edges, e.Parsed u) {slot : Slot}
    (hslot : slot.Proper u) :
    slot ∈ touchedSlots u edges ↔ ∃ e ∈ edges, Touches e.edge slot := by
  rw [touchedSlots, List.mem_append, List.mem_flatMap, List.mem_flatMap]
  constructor
  · rintro (⟨text, htext, hmem⟩ | ⟨key, hkey, hmem⟩)
    · obtain ⟨e, he, rfl⟩ := List.mem_map.1 (List.mem_dedup.1 htext)
      obtain ⟨he, hkind⟩ := List.mem_filter.1 he
      have hparse : Tag.parse u e.fromTag.display = .ok e.fromTag := (hedges e he).1
      rw [siblingSlots, hparse] at hmem
      obtain rfl := List.mem_singleton.1 hmem
      exact ⟨e, he, of_decide_eq_true hkind, rfl⟩
    · obtain ⟨e, he, rfl⟩ := List.mem_map.1 (List.mem_dedup.1 hkey)
      obtain ⟨he, hkind⟩ := List.mem_filter.1 he
      have hparse : Tag.parse u e.fromTag.display = .ok e.fromTag := (hedges e he).1
      have hparse' : Tag.parse u e.toTag.display = .ok e.toTag := (hedges e he).2
      unfold parentSlots at hmem
      split at hmem
      · cases hmem
      · simp only [hparse, hparse'] at hmem
        obtain rfl := List.mem_singleton.1 hmem
        exact ⟨e, he, of_decide_eq_true hkind, rfl, rfl⟩
  · rintro ⟨e, he, ht⟩
    have hparse : Tag.parse u e.fromTag.display = .ok e.fromTag := (hedges e he).1
    have hparse' : Tag.parse u e.toTag.display = .ok e.toTag := (hedges e he).2
    cases slot with
    | sibling bad =>
      obtain rfl := (hedges e he).1.inj hslot ht.2
      refine .inl ⟨e.fromTag.display, List.mem_dedup.2 (List.mem_map.2 ⟨e, ?_, rfl⟩), ?_⟩
      · exact List.mem_filter.2 ⟨he, decide_eq_true ht.1⟩
      · rw [siblingSlots, hparse]
        exact List.mem_singleton_self _
    | parent child parent =>
      obtain rfl := (hedges e he).1.inj hslot.1 ht.2.1
      obtain rfl := (hedges e he).2.inj hslot.2.1 ht.2.2
      refine .inr ⟨(e.fromTag.display, e.toTag.display),
        List.mem_dedup.2 (List.mem_map.2 ⟨e, ?_, rfl⟩), ?_⟩
      · exact List.mem_filter.2 ⟨he, decide_eq_true ht.1⟩
      · rw [parentSlots, if_neg fun heq => hslot.2.2 (hslot.1.inj hslot.2.1 heq)]
        simp [hparse, hparse']

theorem lookup_stageEdges (service : Nat) (c : RelationDb) (edges : List DeltaEdgeInput)
    (k : EdgeKey) :
    (edges.foldl (RelationDb.stageEdge service) c).relationEdges.lookup k =
      ((edges.filter fun e => (service, e.edge) = k).map fun e =>
        (⟨if e.deleted then .deleted else .current, toI64 e.seq⟩ : EdgeRow)).getLast?.or
          (c.relationEdges.lookup k) := by
  have hfold : (edges.foldl (RelationDb.stageEdge service) c).relationEdges =
      (edges.map fun e => ((service, e.edge),
        (⟨if e.deleted then .deleted else .current, toI64 e.seq⟩ : EdgeRow))).foldl
          (fun t e => t.insert e.1 e.2) c.relationEdges := by
    induction edges generalizing c with
    | nil => rfl
    | cons e edges ih => exact ih _
  rw [hfold, Table.lookup_foldl_insert]
  simp only [List.filter_map, List.map_map]
  rfl

theorem mem_heldEdges_staged {e : Edge} (h : ∀ x ∈ edges, x.edge ≠ e) :
    e ∈ (edges.foldl (RelationDb.stageEdge service) c).heldEdges service ↔
      e ∈ c.heldEdges service := by
  have hnil : (edges.filter fun x => (service, x.edge) = (service, e)) = [] := by
    rw [List.filter_eq_nil_iff]
    intro x hx
    simpa using h x hx
  rw [RelationDb.heldEdges, Set.mem_ofPred_eq, lookup_stageEdges, hnil]
  rfl

/-- An edge that is staged is as its rows say, which all say the same. -/
theorem mem_heldEdges_of_mem {x : DeltaEdgeInput} (hx : x ∈ edges)
    (hall : ∀ y ∈ edges, y.edge = x.edge → y.deleted = x.deleted) :
    x.edge ∈ (edges.foldl (RelationDb.stageEdge service) c).heldEdges service ↔
      x.deleted = false := by
  rw [RelationDb.heldEdges, Set.mem_ofPred_eq, lookup_stageEdges]
  cases hlast : ((edges.filter fun y => (service, y.edge) = (service, x.edge)).map fun y =>
      (⟨if y.deleted then .deleted else .current, toI64 y.seq⟩ : EdgeRow)).getLast? with
  | none =>
    rw [List.getLast?_eq_none_iff, List.map_eq_nil_iff, List.filter_eq_nil_iff] at hlast
    exact absurd (by simp) (hlast x hx)
  | some row =>
    obtain ⟨y, hy, rfl⟩ := List.mem_map.1 (List.mem_of_getLast? hlast)
    obtain ⟨hmem, heq⟩ := List.mem_filter.1 hy
    have hdeleted := hall y hmem (Prod.mk.inj (of_decide_eq_true heq)).2
    cases hd : x.deleted with
    | true => simp [hdeleted, hd]
    | false => simp [hdeleted, hd]

/-- A delta delivered to a client. -/
structure Delivered (u : Unicode) (service : Nat) (edges : List DeltaEdgeInput)
    (c c' : RelationDb) : Prop where
  references : c'.References
  pulled : c'.Pulled u service
  staged : c'.relationEdges = (edges.foldl (RelationDb.stageEdge service) c).relationEdges
  texts : Texts u (c'.heldEdges service)
  fits : ∀ slot, slot.Proper u → (∃ e ∈ edges, Touches e.edge slot) →
    SaysCell u (c'.heldEdges service) slot (c'.cell service slot)
  kept : ∀ slot, slot.Proper u → (¬∃ e ∈ edges, Touches e.edge slot) →
    c'.cell service slot = c.cell service slot
  elsewhere : ∀ s slot, s ≠ service → c'.cell s slot = c.cell s slot

theorem texts_staged (hS : Texts u (c.heldEdges service)) (hedges : ∀ e ∈ edges, e.Parsed u) :
    Texts u ((edges.foldl (RelationDb.stageEdge service) c).heldEdges service) := by
  intro e he
  by_cases hmem : ∃ x ∈ edges, x.edge = e
  · obtain ⟨x, hx, rfl⟩ := hmem
    exact ⟨⟨x.fromTag, (hedges x hx).1, rfl⟩, x.toTag, (hedges x hx).2, rfl⟩
  · exact hS e ((mem_heldEdges_staged fun x hx heq => hmem ⟨x, hx, heq⟩).1 he)

theorem cell_stageEdges (service : Nat) (c : RelationDb) (edges : List DeltaEdgeInput) :
    (edges.foldl (RelationDb.stageEdge service) c).cell = c.cell ∧
      (edges.foldl (RelationDb.stageEdge service) c).db = c.db := by
  induction edges generalizing c with
  | nil => exact ⟨rfl, rfl⟩
  | cons e edges ih => exact ih _

/-- A delta merge delivers its edges to what the reset left. -/
theorem mergeRelationDelta_spec {c₀ : RelationDb} {fullReset : Bool}
    (hreset : c₀ = c.resetRelations service fullReset) (h : c₀.References)
    (hp : c₀.Pulled u service) (hS : Texts u (c₀.heldEdges service))
    (hedges : ∀ e ∈ edges, e.Parsed u) (cursor : Nat) (now : Int) :
    ∃ c' stats, c.mergeRelationDelta u service fullReset cursor edges now = .ok (c', stats) ∧
      Delivered u service edges c₀ c' ∧
      c'.db.services = (c₀.db.setRelationCursor service cursor now).services := by
  obtain ⟨hcells, hdb⟩ := cell_stageEdges service c₀ edges
  let staged := edges.foldl (RelationDb.stageEdge service) c₀
  have href : staged.References := by
    have hdb' : staged.db = c₀.db := hdb
    exact ⟨hdb' ▸ h.tags, hdb' ▸ h.siblings, hdb' ▸ h.parents⟩
  have hpulled : staged.Pulled u service := by
    intro slot x hx
    exact hp slot x (by rw [← hcells]; exact hx)
  have htexts : Texts u (staged.heldEdges service) := texts_staged hS hedges
  have hsiblings : ∀ text ∈ RelationDb.touchedSiblings edges, ∀ c : RelationDb, c.References →
      c.Pulled u service → Texts u (c.heldEdges service) →
        ∃ c', c.recomputeSibling u service text = .ok c' ∧
          Recomputed u service (siblingSlots u text) c c' := by
    intro text htext c h hp hS
    obtain ⟨e, he, rfl⟩ := List.mem_map.1 (List.mem_dedup.1 htext)
    have hbad := (hedges e (List.mem_filter.1 he).1).1
    rw [siblingSlots, show Tag.parse u e.fromTag.display = .ok e.fromTag from hbad]
    exact recomputeSibling_spec h hp hS hbad
  have hparents : ∀ key ∈ RelationDb.touchedParents edges, ∀ c : RelationDb, c.References →
      c.Pulled u service → Texts u (c.heldEdges service) →
        ∃ c', c.recomputeParent u service key = .ok c' ∧
          Recomputed u service (parentSlots u key) c c' := by
    intro key hkey c h hp _
    obtain ⟨e, he, rfl⟩ := List.mem_map.1 (List.mem_dedup.1 hkey)
    obtain ⟨hchild, hparent⟩ := hedges e (List.mem_filter.1 he).1
    by_cases hself : e.fromTag.display = e.toTag.display
    · rw [parentSlots, if_pos hself, RelationDb.recomputeParent, if_pos hself]
      exact ⟨c, rfl, .refl h hp⟩
    · rw [parentSlots, if_neg hself, show Tag.parse u e.fromTag.display = .ok e.fromTag from hchild,
        show Tag.parse u e.toTag.display = .ok e.toTag from hparent]
      exact recomputeParent_spec h hp hchild hparent fun heq => hself (congrArg Tag.display heq)
  obtain ⟨c₁, hone, h₁⟩ := foldlM_recompute href hpulled htexts hsiblings
  have hheld : c₁.heldEdges service = staged.heldEdges service :=
    RelationDb.heldEdges_congr h₁.edges
  obtain ⟨c₂, htwo, h₂⟩ := foldlM_recompute h₁.references h₁.pulled (hheld ▸ htexts) hparents
  have hall := h₁.trans h₂
  have hheld₂ : c₂.heldEdges service = staged.heldEdges service :=
    RelationDb.heldEdges_congr hall.edges
  have hmerge : c.mergeRelationDelta u service fullReset cursor edges now =
      .ok ({ c₂ with db := c₂.db.setRelationCursor service cursor now },
        ⟨c₂.db.siblings.entries.countP fun e => e.1.2 = service,
          c₂.db.parents.entries.countP fun e => e.1.2.2 = service⟩) := by
    simp only [RelationDb.mergeRelationDelta, ← hreset]
    rw [hone]
    simp only [bind, Except.bind]
    rw [htwo]
    rfl
  refine ⟨_, _, hmerge,
    ⟨⟨hall.references.tags, hall.references.siblings, hall.references.parents⟩, hall.pulled,
      hall.edges, ?_, fun slot hslot ht => ?_, fun slot hslot hnot => ?_, fun s slot hs => ?_⟩, ?_⟩
  · exact hheld₂ ▸ htexts
  · exact hheld₂ ▸ hall.fits slot ((mem_touchedSlots hedges hslot).2 ht)
  · have hnot' : ¬(service = service ∧ slot ∈ touchedSlots u edges) := fun hs =>
      hnot ((mem_touchedSlots hedges hslot).1 hs.2)
    exact (hall.other service slot hnot').trans (by rw [hcells])
  · exact (hall.other s slot fun hs' => hs hs'.1).trans (by rw [hcells])
  · have hservices : c₂.db.services = c₀.db.services := hall.services.trans (by rw [hdb])
    simp only [Db.setRelationCursor, Db.updateService, hservices]

end

end Db
end Naiad
