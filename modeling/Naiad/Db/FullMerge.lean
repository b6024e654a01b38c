import Naiad.Db.DeltaMerge

/-!
# Naiad.Db.FullMerge

The full merge of a relation pull: the relations of a service are replaced by a pulled graph, with
one ideal for each tag.

* `chosen_foldl`: the ideal that is kept is the least.
* `insertAll_eq_some`: rows put where there are none.
* `mergePulledRelations_spec`: **the tables say what the pulled edges say**.
-/

namespace Naiad
namespace Db

open Lib Netproto

/-! ## The pulled graph -/

abbrev PulledEdge := Tag × Tag × String

/-- The edges of a pulled graph. -/
def pulledEdges (siblings parents : List PulledEdge) : Set Edge :=
  {e | (∃ x ∈ siblings, e = (.sibling, x.1.display, x.2.1.display, x.2.2)) ∨
    ∃ x ∈ parents, e = (.parent, x.1.display, x.2.1.display, x.2.2)}

/-- Edges of tags, each pair under one author. -/
structure Listed (u : Unicode) (edges : List PulledEdge) : Prop where
  parsed : ∀ e ∈ edges, Reparses u e.1 ∧ Reparses u e.2.1
  author : ∀ e ∈ edges, ∀ e' ∈ edges, e.1 = e'.1 → e.2.1 = e'.2.1 → e.2.2 = e'.2.2

/-- For each `from`, an edge with the least `to` of those seen. -/
structure Chosen (edges : List PulledEdge) (chosen : Table String PulledEdge) : Prop where
  least : ∀ text e, chosen.lookup text = some e → e ∈ edges ∧ e.1 ≠ e.2.1 ∧ e.1.display = text ∧
    ∀ e' ∈ edges, e'.1 ≠ e'.2.1 → e'.1.display = text → e.2.1.display ≤ e'.2.1.display
  all : ∀ e ∈ edges, e.1 ≠ e.2.1 → (chosen.lookup e.1.display).isSome = true

section

variable {u : Unicode} {edges : List PulledEdge} {chosen : Table String PulledEdge}

theorem Chosen.step (h : Chosen edges chosen) (e : PulledEdge) :
    Chosen (edges ++ [e]) (RelationDb.choose chosen e) := by
  have hcons : ∀ e', e' ∈ edges ++ [e] ↔ e' ∈ edges ∨ e' = e := by simp
  unfold RelationDb.choose
  split
  · rename_i hself
    constructor
    · intro text e₁ hl
      obtain ⟨hmem, hne, htext, hle⟩ := h.least text e₁ hl
      refine ⟨(hcons e₁).2 (.inl hmem), hne, htext, fun e' he' hne' => ?_⟩
      rcases (hcons e').1 he' with he' | rfl
      · exact hle e' he' hne'
      · exact absurd hself hne'
    · intro e' he' hne'
      rcases (hcons e').1 he' with he' | rfl
      · exact h.all e' he' hne'
      · exact absurd hself hne'
  rename_i hne
  split
  · -- an edge chosen before is no greater
    rename_i hany
    obtain ⟨prev, hprev, hle⟩ := (Option.any_eq_true _ _).1 hany
    constructor
    · intro text e₁ hl
      obtain ⟨hmem, hne₁, htext, hleast⟩ := h.least text e₁ hl
      refine ⟨(hcons e₁).2 (.inl hmem), hne₁, htext, fun e' he' hne' htext' => ?_⟩
      rcases (hcons e').1 he' with he' | rfl
      · exact hleast e' he' hne' htext'
      · rw [htext', hl] at hprev
        cases hprev
        exact of_decide_eq_true hle
    · intro e' he' hne'
      rcases (hcons e').1 he' with he' | rfl
      · exact h.all e' he' hne'
      · rw [hprev]
        rfl
  · rename_i hany
    constructor
    · intro text e₁ hl
      by_cases htext : text = e.1.display
      · subst htext
        rw [AList.lookup_insert] at hl
        cases hl
        refine ⟨(hcons e).2 (.inr rfl), hne, rfl, fun e' he' hne' htext' => ?_⟩
        rcases (hcons e').1 he' with he' | rfl
        · obtain ⟨prev, hprev⟩ := Option.isSome_iff_exists.1 (h.all e' he' hne')
          rw [htext'] at hprev
          have hless : ¬ prev.2.1.display ≤ e.2.1.display := fun hle =>
            hany ((Option.any_eq_true _ _).2 ⟨prev, hprev, decide_eq_true hle⟩)
          exact (le_of_not_ge hless).trans ((h.least _ prev hprev).2.2.2 e' he' hne' htext')
        · exact le_refl _
      · rw [AList.lookup_insert_ne htext] at hl
        obtain ⟨hmem, hne₁, htext₁, hleast⟩ := h.least text e₁ hl
        refine ⟨(hcons e₁).2 (.inl hmem), hne₁, htext₁, fun e' he' hne' htext' => ?_⟩
        rcases (hcons e').1 he' with he' | rfl
        · exact hleast e' he' hne' htext'
        · exact absurd htext'.symm htext
    · intro e' he' hne'
      by_cases htext : e'.1.display = e.1.display
      · rw [htext, AList.lookup_insert]
        rfl
      · rw [AList.lookup_insert_ne htext]
        rcases (hcons e').1 he' with he' | rfl
        · exact h.all e' he' hne'
        · exact absurd rfl htext

theorem chosen_foldl (edges : List PulledEdge) :
    Chosen edges (edges.foldl RelationDb.choose ∅) := by
  have hgen : ∀ (seen edges : List PulledEdge) (chosen : Table String PulledEdge),
      Chosen seen chosen → Chosen (seen ++ edges) (edges.foldl RelationDb.choose chosen) := by
    intro seen edges
    induction edges generalizing seen with
    | nil =>
      intro chosen h
      rw [List.append_nil]
      exact h
    | cons e edges ih =>
      intro chosen h
      have hrest := ih (seen ++ [e]) _ (h.step e)
      rwa [List.append_assoc] at hrest
  refine hgen [] edges ∅ ⟨fun text e hl => ?_, fun e he => (by cases he)⟩
  rw [AList.lookup_empty] at hl
  cases hl

/-- The edge chosen for a tag is its least candidate. -/
theorem Chosen.isLeast (h : Chosen edges chosen) (hlisted : Listed u edges) {bad : Tag}
    {e : PulledEdge} (hbad : Reparses u bad) (hl : chosen.lookup bad.display = some e)
    (parents : List PulledEdge) : e.1 = bad ∧ IsLeast
      (candidates (pulledEdges edges parents) (.sibling bad)) (toLex (e.2.1.display, e.2.2)) := by
  obtain ⟨hmem, hne, htext, hleast⟩ := h.least _ e hl
  have hfrom : e.1 = bad := (hlisted.parsed e hmem).1.inj hbad htext
  refine ⟨hfrom, ⟨.inl ⟨e, hmem, by rw [hfrom]; rfl⟩, fun heq => ?_⟩, ?_⟩
  · exact hne (hfrom.trans ((hlisted.parsed e hmem).2.inj hbad heq).symm)
  · rintro w ⟨⟨e', he', heq⟩ | ⟨e', _, heq⟩, hself⟩
    · have htext' : e'.1.display = bad.display := (congrArg (fun x : Edge => x.2.1) heq).symm
      have hw : ofLex w = (e'.2.1.display, e'.2.2) := congrArg (fun x : Edge => x.2.2) heq
      have hne' : e'.1 ≠ e'.2.1 := by
        intro hsame
        rw [hw] at hself
        exact hself (by rw [← hsame]; exact htext')
      have hle := hleast e' he' hne' htext'
      rw [show w = toLex (e'.2.1.display, e'.2.2) from hw]
      rcases hle.lt_or_eq with hlt | heq'
      · exact Prod.Lex.toLex_le_toLex.2 (.inl hlt)
      · have hto : e.2.1 = e'.2.1 :=
          (hlisted.parsed e hmem).2.inj (hlisted.parsed e' he').2 heq'
        have hfrom' : e.1 = e'.1 := (hlisted.parsed e hmem).1.inj (hlisted.parsed e' he').1
          (htext.trans htext'.symm)
        rw [hto, hlisted.author e hmem e' he' hfrom' hto]
    · cases congrArg Prod.fst heq

theorem Chosen.none_of (h : Chosen edges chosen) {bad : Tag}
    (hl : chosen.lookup bad.display = none) (parents : List PulledEdge)
    (w : Lex (String × String)) :
    w ∉ candidates (pulledEdges edges parents) (.sibling bad) := by
  rintro ⟨⟨e, he, heq⟩ | ⟨e, _, heq⟩, hself⟩
  · have htext : e.1.display = bad.display := (congrArg (fun x : Edge => x.2.1) heq).symm
    have hw : ofLex w = (e.2.1.display, e.2.2) := congrArg (fun x : Edge => x.2.2) heq
    have hne : e.1 ≠ e.2.1 := by
      intro hsame
      rw [hw] at hself
      exact hself (by rw [← hsame]; exact htext)
    have hsome := h.all e he hne
    rw [htext, hl] at hsome
    cases hsome
  · cases congrArg Prod.fst heq

end

/-! ## The full merge -/

/-- Cells put where there are none, in order. -/
def insertAll (service : Nat) (cells : Nat → Slot → Option Cell) (rows : List (Slot × Cell)) :
    Nat → Slot → Option Cell :=
  rows.foldl (fun cells row => insertCell cells service row.1 row.2) cells

section

variable {cells : Nat → Slot → Option Cell} {service : Nat} {rows : List (Slot × Cell)}

theorem insertAll_cons (row : Slot × Cell) :
    insertAll service cells (row :: rows) =
      insertAll service (insertCell cells service row.1 row.2) rows := rfl

theorem insertCell_elsewhere {slot slot' : Slot} {x : Cell} {s : Nat} (hs : s ≠ service) :
    insertCell cells service slot x s slot' = cells s slot' := by
  unfold insertCell
  split
  · rfl
  · simp [setCell, hs]

theorem insertAll_elsewhere {s : Nat} (hs : s ≠ service) (slot : Slot) :
    insertAll service cells rows s slot = cells s slot := by
  induction rows generalizing cells with
  | nil => rfl
  | cons row rows ih => exact ih.trans (insertCell_elsewhere hs)

theorem insertAll_eq_some (hrows : ∀ slot x y, (slot, x) ∈ rows → (slot, y) ∈ rows → x = y)
    {slot : Slot} {x : Cell} : insertAll service cells rows service slot = some x ↔
      cells service slot = some x ∨ cells service slot = none ∧ (slot, x) ∈ rows := by
  induction rows generalizing cells with
  | nil => simp [insertAll]
  | cons row rows ih =>
    have hrest := fun slot x y hx hy => hrows slot x y (List.mem_cons_of_mem _ hx)
      (List.mem_cons_of_mem _ hy)
    rw [insertAll_cons, ih hrest, insertCell]
    by_cases hsome : (cells service row.1).isSome
    · rw [if_pos hsome]
      refine or_congr_right (and_congr_right fun hnone => ?_)
      refine ⟨List.mem_cons_of_mem _, fun hmem => ?_⟩
      rcases List.mem_cons.1 hmem with rfl | hmem
      · rw [hnone] at hsome
        cases hsome
      · exact hmem
    · have hnone : cells service row.1 = none := Option.not_isSome_iff_eq_none.1 hsome
      rw [if_neg hsome]
      by_cases hslot : slot = row.1
      · subst hslot
        simp only [setCell, hnone, and_self, if_true, Option.some.injEq, reduceCtorEq, false_and,
          or_false, true_and, false_or]
        refine ⟨fun hx => List.mem_cons.2 (.inl (by rw [← hx])), fun hmem => ?_⟩
        exact hrows _ _ _ (by simp) hmem
      · simp only [setCell, hslot, and_false, if_false]
        refine or_congr_right (and_congr_right fun _ => ?_)
        refine ⟨List.mem_cons_of_mem _, fun hmem => ?_⟩
        rcases List.mem_cons.1 hmem with rfl | hmem
        · exact absurd rfl hslot
        · exact hmem

end

/-- What putting rows where there are none does. -/
structure Inserted (service : Nat) (rows : List (Slot × Cell)) (c c' : RelationDb) : Prop where
  references : c'.References
  edges : c'.relationEdges = c.relationEdges
  services : c'.db.services = c.db.services
  cell : c'.cell = insertAll service c.cell rows

namespace Inserted

variable {service : Nat} {rows rows' : List (Slot × Cell)} {c c' c'' : RelationDb}

theorem refl (h : c.References) : Inserted service [] c c := ⟨h, rfl, rfl, rfl⟩

theorem trans (h : Inserted service rows c c') (h' : Inserted service rows' c' c'') :
    Inserted service (rows ++ rows') c c'' where
  references := h'.references
  edges := h'.edges.trans h.edges
  services := h'.services.trans h.services
  cell := by rw [h'.cell, h.cell, insertAll, insertAll, insertAll, List.foldl_append]

end Inserted

def siblingRow (e : PulledEdge) : Slot × Cell := (.sibling e.1, ⟨e.2.1, .current, some e.2.2⟩)

def parentRow (e : PulledEdge) : Slot × Cell := (.parent e.1 e.2.1, ⟨e.2.1, .current, some e.2.2⟩)

section

variable {service : Nat} {c : RelationDb}

theorem pulledSibling_spec (h : c.References) (e : PulledEdge) :
    Inserted service [siblingRow e] c (c.pulledSibling service e) := by
  obtain ⟨hpair, hcells, hb, hi⟩ := RelationDb.internPair_spec h e.1 e.2.1
  obtain ⟨hr, hcell⟩ := @RelationDb.insertSibling_spec _ service hpair _ _ _ _ hb hi e.2.2
  refine ⟨hr, ?_, ?_, hcell.trans (by rw [hcells]; rfl)⟩
  · unfold RelationDb.pulledSibling RelationDb.insertSibling
    dsimp only
    split <;> rfl
  · unfold RelationDb.pulledSibling RelationDb.insertSibling
    dsimp only
    split <;> rfl

theorem pulledSiblings_spec (h : c.References) (edges : List PulledEdge) :
    Inserted service (edges.map siblingRow) c (edges.foldl (RelationDb.pulledSibling service) c) := by
  induction edges generalizing c with
  | nil => exact .refl h
  | cons e edges ih =>
    have hone := @pulledSibling_spec service c h e
    exact hone.trans (ih hone.references)

theorem pulledParents_spec (h : c.References) (edges : List PulledEdge) (n : Nat) :
    Inserted service ((edges.filter fun e => e.1 ≠ e.2.1).map parentRow) c
      (edges.foldl (RelationDb.pulledParent service) (c, n)).1 := by
  induction edges generalizing c n with
  | nil => exact .refl h
  | cons e edges ih =>
    rw [List.foldl_cons, RelationDb.pulledParent]
    by_cases hself : e.1 = e.2.1
    · rw [if_pos hself, List.filter_cons_of_neg (by simpa using hself)]
      exact ih h n
    · rw [if_neg hself, List.filter_cons_of_pos (by simpa using hself)]
      obtain ⟨hpair, hcells, ha, hb⟩ := RelationDb.internPair_spec h e.1 e.2.1
      obtain ⟨hr, hcell⟩ := @RelationDb.insertParent_spec _ service hpair _ _ _ _ ha hb e.2.2
      have hone : Inserted service [parentRow e] c ((c.internPair e.1 e.2.1).1.insertParent
          ((c.internPair e.1 e.2.1).2.1, (c.internPair e.1 e.2.1).2.2, service) e.2.2) := by
        refine ⟨hr, ?_, ?_, hcell.trans (by rw [hcells]; rfl)⟩
        · unfold RelationDb.insertParent
          split <;> rfl
        · unfold RelationDb.insertParent
          split <;> rfl
      exact hone.trans (ih hone.references _)

end

/-- The rows the full merge writes. -/
def pulledRows (siblings parents : List PulledEdge) : List (Slot × Cell) :=
  ((siblings.foldl RelationDb.choose ∅).entries.map Sigma.snd).map siblingRow ++
    (parents.filter fun e => e.1 ≠ e.2.1).map parentRow

section

variable {u : Unicode} {siblings parents : List PulledEdge}

theorem mem_pulledRows_sibling (hs : Listed u siblings) {bad : Tag} (hbad : Reparses u bad)
    {x : Cell} : (.sibling bad, x) ∈ pulledRows siblings parents ↔
      ∃ e, (siblings.foldl RelationDb.choose ∅).lookup bad.display = some e ∧
        x = ⟨e.2.1, .current, some e.2.2⟩ := by
  have hchosen := chosen_foldl siblings
  simp only [pulledRows, List.mem_append, List.mem_map, siblingRow, parentRow, Prod.mk.injEq,
    reduceCtorEq, false_and, and_false, exists_false, or_false, Slot.sibling.injEq]
  constructor
  · rintro ⟨e, ⟨⟨text, e'⟩, hmem, rfl⟩, rfl, rfl⟩
    have hl := Table.mem_entries.1 hmem
    obtain ⟨_, _, htext, _⟩ := hchosen.least text _ hl
    exact ⟨_, htext ▸ hl, rfl⟩
  · rintro ⟨e, hl, rfl⟩
    obtain ⟨hmem, _, htext, _⟩ := hchosen.least _ e hl
    exact ⟨e, ⟨⟨bad.display, e⟩, Table.mem_entries.2 hl, rfl⟩,
      (hs.parsed e hmem).1.inj hbad htext, rfl⟩

theorem mem_pulledRows_parent {child parent : Tag} {x : Cell} :
    (.parent child parent, x) ∈ pulledRows siblings parents ↔
      child ≠ parent ∧ ∃ author, (child, parent, author) ∈ parents ∧
        x = ⟨parent, .current, some author⟩ := by
  simp only [pulledRows, List.mem_append, List.mem_map, List.mem_filter, siblingRow, parentRow,
    Prod.mk.injEq, reduceCtorEq, false_and, and_false, exists_false, false_or, Slot.parent.injEq]
  constructor
  · rintro ⟨⟨a, b, author⟩, ⟨hmem, hne⟩, ⟨rfl, rfl⟩, rfl⟩
    exact ⟨by simpa using hne, author, hmem, rfl⟩
  · rintro ⟨hne, author, hmem, rfl⟩
    exact ⟨_, ⟨hmem, by simpa using hne⟩, ⟨rfl, rfl⟩, rfl⟩

/-- Every row written fills a proper slot, once. -/
theorem proper_pulledRows (hs : Listed u siblings) (hp : Listed u parents) {slot : Slot} {x : Cell}
    (h : (slot, x) ∈ pulledRows siblings parents) : slot.Proper u ∧ x.status = .current := by
  cases slot with
  | sibling bad =>
    have hbad : Reparses u bad := by
      simp only [pulledRows, List.mem_append, List.mem_map, siblingRow, parentRow, Prod.mk.injEq,
        reduceCtorEq, false_and, and_false, exists_false, or_false, Slot.sibling.injEq] at h
      obtain ⟨e, ⟨⟨text, e'⟩, hmem, rfl⟩, rfl, _⟩ := h
      exact (hs.parsed _ ((chosen_foldl siblings).least text _ (Table.mem_entries.1 hmem)).1).1
    obtain ⟨e, _, rfl⟩ := (mem_pulledRows_sibling hs hbad).1 h
    exact ⟨hbad, rfl⟩
  | parent child parent =>
    obtain ⟨hne, author, hmem, rfl⟩ := mem_pulledRows_parent.1 h
    exact ⟨⟨(hp.parsed _ hmem).1, (hp.parsed _ hmem).2, hne⟩, rfl⟩

theorem pulledRows_unique (hs : Listed u siblings) (hp : Listed u parents) (slot : Slot)
    (x y : Cell) (hx : (slot, x) ∈ pulledRows siblings parents)
    (hy : (slot, y) ∈ pulledRows siblings parents) : x = y := by
  have hproper := (proper_pulledRows hs hp hx).1
  cases slot with
  | sibling bad =>
    obtain ⟨e, hl, rfl⟩ := (mem_pulledRows_sibling hs hproper).1 hx
    obtain ⟨e', hl', rfl⟩ := (mem_pulledRows_sibling hs hproper).1 hy
    rw [hl] at hl'
    cases hl'
    rfl
  | parent child parent =>
    obtain ⟨_, author, hmem, rfl⟩ := mem_pulledRows_parent.1 hx
    obtain ⟨_, author', hmem', rfl⟩ := mem_pulledRows_parent.1 hy
    rw [show author = author' from hp.author _ hmem _ hmem' rfl rfl]

/-- The rows written are what the pulled edges say. -/
theorem saysCell_pulledRows (hs : Listed u siblings) (hp : Listed u parents) {slot : Slot}
    (hslot : slot.Proper u) {o : Option Cell}
    (ho : ∀ x, o = some x ↔ (slot, x) ∈ pulledRows siblings parents) :
    SaysCell u (pulledEdges siblings parents) slot o := by
  cases slot with
  | sibling bad =>
    have hchosen := chosen_foldl siblings
    cases hl : (siblings.foldl RelationDb.choose ∅).lookup bad.display with
    | none =>
      have hnone : o = none := by
        cases hx : o with
        | none => rfl
        | some x =>
          obtain ⟨e, hl', _⟩ := (mem_pulledRows_sibling hs hslot).1 ((ho x).1 hx)
          rw [hl] at hl'
          cases hl'
      rw [hnone]
      exact saysCell_none fun w hleast => hchosen.none_of hl parents w hleast.1
    | some e =>
      rw [(ho _).2 ((mem_pulledRows_sibling hs hslot).2 ⟨e, hl, rfl⟩)]
      obtain ⟨hmem, _⟩ := hchosen.least _ e hl
      exact saysCell_some (hs.parsed e hmem).2 (hchosen.isLeast hs hslot hl parents).2
  | parent child parent =>
    have hcandidate : ∀ w, w ∈ candidates (pulledEdges siblings parents) (.parent child parent) →
        ∃ author, (child, parent, author) ∈ parents ∧ w = toLex (parent.display, author) := by
      rintro w ⟨⟨e, _, heq⟩ | ⟨⟨a, b, author⟩, he, heq⟩, hto⟩
      · cases congrArg Prod.fst heq
      · have hfrom : a = child := (hp.parsed _ he).1.inj hslot.1
          (congrArg (fun x : Edge => x.2.1) heq).symm
        have hw : ofLex w = (b.display, author) := congrArg (fun x : Edge => x.2.2) heq
        rw [hw] at hto
        have hb : b = parent := (hp.parsed _ he).2.inj hslot.2.1 hto
        subst hfrom hb
        exact ⟨author, he, hw⟩
    by_cases hex : ∃ author, (child, parent, author) ∈ parents
    · obtain ⟨author, hmem⟩ := hex
      rw [(ho _).2 (mem_pulledRows_parent.2 ⟨hslot.2.2, author, hmem, rfl⟩)]
      refine saysCell_some hslot.2.1 ⟨⟨.inr ⟨_, hmem, rfl⟩, rfl⟩, fun w hw => ?_⟩
      obtain ⟨author', hmem', rfl⟩ := hcandidate w hw
      rw [show author = author' from hp.author _ hmem _ hmem' rfl rfl]
    · have hnone : o = none := by
        cases hx : o with
        | none => rfl
        | some x =>
          obtain ⟨_, author, hmem, _⟩ := mem_pulledRows_parent.1 ((ho x).1 hx)
          exact absurd ⟨author, hmem⟩ hex
      rw [hnone]
      refine saysCell_none fun w hleast => ?_
      obtain ⟨author, hmem, _⟩ := hcandidate w hleast.1
      exact hex ⟨author, hmem⟩

end

/-- The full merge replaces what the tables say of a service by what the pulled edges say. -/
theorem mergePulledRelations_spec {u : Unicode} {c : RelationDb} {service : Nat}
    {siblings parents : List PulledEdge} (h : c.References) (hs : Listed u siblings)
    (hp : Listed u parents) (now : Int) :
    let c' := (c.mergePulledRelations service siblings parents now).1
    c'.References ∧ c'.Pulled u service ∧ c'.relationEdges = c.relationEdges ∧
      (∀ s, c'.db.relationCursor s = c.db.relationCursor s) ∧
      (∀ slot, slot.Proper u →
        SaysCell u (pulledEdges siblings parents) slot (c'.cell service slot)) ∧
      ∀ s slot, s ≠ service → c'.cell s slot = c.cell s slot := by
  intro c'
  obtain ⟨hclear, hcleared⟩ := @RelationDb.clearRelations_spec c service h
  have hsib := @pulledSiblings_spec service _ hclear
    ((siblings.foldl RelationDb.choose ∅).entries.map Sigma.snd)
  have hpar := @pulledParents_spec service _ hsib.references parents 0
  have hall := hsib.trans hpar
  have hcell : ∀ slot x, c'.cell service slot = some x ↔ (slot, x) ∈ pulledRows siblings parents := by
    intro slot x
    have hrow := @insertAll_eq_some (c.clearRelations service).cell service _
      (pulledRows_unique hs hp) slot x
    rw [hcleared, if_pos rfl] at hrow
    rw [show c'.cell = insertAll service (c.clearRelations service).cell
      (pulledRows siblings parents) from hall.cell, hrow]
    simp
  refine ⟨⟨hall.references.tags, hall.references.siblings, hall.references.parents⟩,
    fun slot x hx => proper_pulledRows hs hp ((hcell slot x).1 hx), hall.edges, fun s => ?_,
    fun slot hslot => saysCell_pulledRows hs hp hslot (hcell slot), fun s slot hne => ?_⟩
  · have hservices : c'.db.services =
        (c.db.updateService service fun row => { row with lastRelationPullAt := some now }).services := by
      simp only [Db.updateService, c', RelationDb.mergePulledRelations]
      rw [hall.services]
      rfl
    rw [Db.relationCursor, Db.relationCursor, hservices, Db.lookup_updateService]
    cases c.db.services.lookup s with
    | none => rfl
    | some row =>
      simp only [Option.map_some, Option.bind_some]
      split <;> rfl
  · rw [show c'.cell = insertAll service (c.clearRelations service).cell
      (pulledRows siblings parents) from hall.cell, insertAll_elsewhere hne, hcleared, if_neg hne]

end Db
end Naiad
