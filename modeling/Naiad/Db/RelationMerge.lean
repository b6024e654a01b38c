import Mathlib.Data.Prod.Lex
import Naiad.Db.Staging

/-!
# Naiad.Db.RelationMerge

The two ways in which a pulled relation graph reaches the tables of a client: the full replacement,
and the delta that is staged edge by edge and recomputed for the keys it touched.

* `RelationDb.cell`: what the tables say of a tag, or of a child and its parent.
* `RelationDb.putSibling_spec` and the others: what each statement does to the cells.
-/

namespace Naiad
namespace Db

open Lib Netproto

/-- A client database with the author columns of `tag_siblings` and `tag_parents`, keyed as their
rows; a row without one has no author. -/
structure RelationDb extends ClientDb where
  siblingAuthors : Table (Nat × Nat) String
  parentAuthors : Table (Nat × Nat × Nat) String

structure DeltaEdgeInput where
  kind : RelKind
  fromTag : Tag
  toTag : Tag
  author : String
  deleted : Bool
  seq : Nat
deriving DecidableEq

structure RelationMergeStats where
  siblings : Nat
  parents : Nat
deriving DecidableEq

/-- One author's edge: kind, from, to and author. -/
abbrev Edge := RelKind × String × String × String

def DeltaEdgeInput.edge (e : DeltaEdgeInput) : Edge :=
  (e.kind, e.fromTag.display, e.toTag.display, e.author)

/-- `SELECT to_tag, author .. ORDER BY to_tag, author LIMIT 1` -/
def siblingWinner (edges : List Edge) (fromText : String) : Option (String × String) :=
  let rows := edges.filter fun e : Edge => e.1 = .sibling ∧ e.2.1 = fromText ∧ e.2.2.1 ≠ fromText
  (rows.map fun e => toLex e.2.2).min?.map ofLex

/-- `SELECT MIN(author)` -/
def parentWinner (edges : List Edge) (child parent : String) : Option String :=
  let rows := edges.filter fun e : Edge => e.1 = .parent ∧ e.2.1 = child ∧ e.2.2.1 = parent
  (rows.map fun e => e.2.2.2).min?

namespace RelationDb

/-! ## Statements -/

def intern (c : RelationDb) (tag : Tag) : RelationDb := { c with db := c.db.internTag tag }

/-- Both tags interned, with their ids. -/
def internPair (c : RelationDb) (a b : Tag) : RelationDb × Nat × Nat :=
  ((c.intern a).intern b, c.db.internedTag a, (c.intern a).db.internedTag b)

/-- `DELETE .. WHERE service_id = ?1` of `tag_siblings` and of `tag_parents`. -/
def clearRelations (c : RelationDb) (service : Nat) : RelationDb :=
  { c with
    db := { c.db with
      siblings := c.db.siblings.select fun k _ => k.2 ≠ service
      parents := c.db.parents.select fun k _ => k.2.2 ≠ service }
    siblingAuthors := c.siblingAuthors.select fun k _ => k.2 ≠ service
    parentAuthors := c.parentAuthors.select fun k _ => k.2.2 ≠ service }

def clearStaged (c : RelationDb) (service : Nat) : RelationDb :=
  { c with relationEdges := c.relationEdges.select fun k _ => k.1 ≠ service }

def putSibling (c : RelationDb) (key : Nat × Nat) (row : SiblingRow) (author : String) :
    RelationDb :=
  { c with
    db := { c.db with siblings := c.db.siblings.insert key row }
    siblingAuthors := c.siblingAuthors.insert key author }

/-- `INSERT .. ON CONFLICT(bad_tag_id, service_id) DO NOTHING` -/
def insertSibling (c : RelationDb) (key : Nat × Nat) (ideal : Nat) (author : String) : RelationDb :=
  if (c.db.siblings.lookup key).isSome then c else c.putSibling key ⟨ideal, .current⟩ author

/-- `.. DO UPDATE SET ideal_tag_id = .., author = ..` -/
def upsertSibling (c : RelationDb) (key : Nat × Nat) (ideal : Nat) (author : String) : RelationDb :=
  c.putSibling key ⟨ideal, ((c.db.siblings.lookup key).map SiblingRow.status).getD .current⟩ author

def deleteSibling (c : RelationDb) (service : Nat) (tag : Tag) : RelationDb :=
  match c.db.tagId tag with
  | none => c
  | some bad =>
    { c with
      db := { c.db with siblings := c.db.siblings.erase (bad, service) }
      siblingAuthors := c.siblingAuthors.erase (bad, service) }

def putParent (c : RelationDb) (key : Nat × Nat × Nat) (status : MappingStatus) (author : String) :
    RelationDb :=
  { c with
    db := { c.db with parents := c.db.parents.insert key status }
    parentAuthors := c.parentAuthors.insert key author }

/-- `INSERT .. ON CONFLICT(child_tag_id, parent_tag_id, service_id) DO NOTHING` -/
def insertParent (c : RelationDb) (key : Nat × Nat × Nat) (author : String) : RelationDb :=
  if (c.db.parents.lookup key).isSome then c else c.putParent key .current author

/-- `.. DO UPDATE SET author = ..` -/
def upsertParent (c : RelationDb) (key : Nat × Nat × Nat) (author : String) : RelationDb :=
  c.putParent key ((c.db.parents.lookup key).getD .current) author

def deleteParent (c : RelationDb) (service : Nat) (child parent : Tag) : RelationDb :=
  match c.db.tagId child, c.db.tagId parent with
  | some a, some b =>
    { c with
      db := { c.db with parents := c.db.parents.erase (a, b, service) }
      parentAuthors := c.parentAuthors.erase (a, b, service) }
  | _, _ => c

/-! ## The full merge -/

/-- Collapse conflicting sibling ideals: per `from`, keep the smallest `to`. -/
def choose (chosen : Table String (Tag × Tag × String)) (e : Tag × Tag × String) :
    Table String (Tag × Tag × String) :=
  if e.1 = e.2.1 then chosen
  else if (chosen.lookup e.1.display).any fun prev => prev.2.1.display ≤ e.2.1.display then chosen
  else chosen.insert e.1.display e

def pulledSibling (service : Nat) (c : RelationDb) (e : Tag × Tag × String) : RelationDb :=
  let p := c.internPair e.1 e.2.1
  p.1.insertSibling (p.2.1, service) p.2.2 e.2.2

def pulledParent (service : Nat) (s : RelationDb × Nat) (e : Tag × Tag × String) :
    RelationDb × Nat :=
  if e.1 = e.2.1 then s
  else
    let p := s.1.internPair e.1 e.2.1
    let key := (p.2.1, p.2.2, service)
    (p.1.insertParent key e.2.2, s.2 + if (p.1.db.parents.lookup key).isSome then 0 else 1)

/-- Replace the relations of a service by a pulled graph. -/
def mergePulledRelations (c : RelationDb) (service : Nat)
    (siblings parents : List (Tag × Tag × String)) (now : Int) : RelationDb × RelationMergeStats :=
  let chosen := (siblings.foldl choose ∅).entries.map Sigma.snd
  let c₁ := chosen.foldl (pulledSibling service) (c.clearRelations service)
  let r := parents.foldl (pulledParent service) (c₁, 0)
  ({ r.1 with db := r.1.db.updateService service fun row =>
      { row with lastRelationPullAt := some now } }, ⟨chosen.length, r.2⟩)

/-! ## The delta merge -/

def stageEdge (service : Nat) (c : RelationDb) (e : DeltaEdgeInput) : RelationDb :=
  let status := if e.deleted then .deleted else .current
  { c with toClientDb := c.toClientDb.stageRelationEdge (service, e.edge) status e.seq }

/-- The staged edges of a service that are current. -/
def currentEdges (c : RelationDb) (service : Nat) : List Edge :=
  c.relationEdges.entries.filterMap fun e =>
    if e.1.1 = service ∧ e.2.status = .current then some e.1.2 else none

def recomputeSibling (u : Unicode) (service : Nat) (c : RelationDb) (fromText : String) :
    Except ParseError RelationDb :=
  match Tag.parse u fromText with
  | .error e => .error e
  | .ok bad =>
    match siblingWinner (c.currentEdges service) fromText with
    | none => .ok (c.deleteSibling service bad)
    | some (toText, author) =>
      match Tag.parse u toText with
      | .error e => .error e
      | .ok ideal =>
        let p := c.internPair bad ideal
        .ok (p.1.upsertSibling (p.2.1, service) p.2.2 author)

def recomputeParent (u : Unicode) (service : Nat) (c : RelationDb) (key : String × String) :
    Except ParseError RelationDb :=
  if key.1 = key.2 then .ok c
  else
    match Tag.parse u key.1, Tag.parse u key.2 with
    | .error e, _ => .error e
    | .ok _, .error e => .error e
    | .ok child, .ok parent =>
      match parentWinner (c.currentEdges service) key.1 key.2 with
      | none => .ok (c.deleteParent service child parent)
      | some author =>
        let p := c.internPair child parent
        .ok (p.1.upsertParent (p.2.1, p.2.2, service) author)

def touchedSiblings (edges : List DeltaEdgeInput) : List String :=
  ((edges.filter (·.kind = .sibling)).map (·.fromTag.display)).dedup

def touchedParents (edges : List DeltaEdgeInput) : List (String × String) :=
  ((edges.filter (·.kind = .parent)).map fun e => (e.fromTag.display, e.toTag.display)).dedup

def resetRelations (c : RelationDb) (service : Nat) (fullReset : Bool) : RelationDb :=
  if fullReset then (c.clearStaged service).clearRelations service else c

/-- Stage a delta, and recompute the keys it touched; a tag that does not parse fails it. -/
def mergeRelationDelta (c : RelationDb) (u : Unicode) (service : Nat) (fullReset : Bool)
    (cursor : Nat) (edges : List DeltaEdgeInput) (now : Int) :
    Except ParseError (RelationDb × RelationMergeStats) := do
  let staged := edges.foldl (stageEdge service) (c.resetRelations service fullReset)
  let c₁ ← (touchedSiblings edges).foldlM (recomputeSibling u service) staged
  let c₂ ← (touchedParents edges).foldlM (recomputeParent u service) c₁
  pure ({ c₂ with db := c₂.db.setRelationCursor service cursor now },
    ⟨c₂.db.siblings.entries.countP fun e => e.1.2 = service,
      c₂.db.parents.entries.countP fun e => e.1.2.2 = service⟩)

/-! ## What the tables say -/

end RelationDb

/-- What a row is about: a bad tag, or a child and its parent. -/
inductive Slot
  | sibling (bad : Tag)
  | parent (child parent : Tag)
deriving DecidableEq

/-- What a row says: the ideal or the parent, its status and its author. -/
structure Cell where
  target : Tag
  status : MappingStatus
  author : Option String
deriving DecidableEq

namespace RelationDb

/-- The cell of a slot in a service. -/
def cell (c : RelationDb) (service : Nat) : Slot → Option Cell
  | .sibling bad =>
    (c.db.tags.idOf bad).bind fun b => (c.db.siblings.lookup (b, service)).bind fun row =>
      (c.db.tags.valueOf row.ideal).map fun ideal =>
        ⟨ideal, row.status, c.siblingAuthors.lookup (b, service)⟩
  | .parent child parent =>
    (c.db.tags.idOf child).bind fun a => (c.db.tags.idOf parent).bind fun b =>
      (c.db.parents.lookup (a, b, service)).map fun status =>
        ⟨parent, status, c.parentAuthors.lookup (a, b, service)⟩

/-- `UNIQUE(namespace, subtag)` and the `REFERENCES tags(id)` columns of the relation tables. -/
structure References (c : RelationDb) : Prop where
  tags : c.db.tags.Unique
  siblings : ∀ k row, c.db.siblings.lookup k = some row →
    k.1 ∈ c.db.tags.ids ∧ row.ideal ∈ c.db.tags.ids
  parents : ∀ k st, c.db.parents.lookup k = some st →
    k.1 ∈ c.db.tags.ids ∧ k.2.1 ∈ c.db.tags.ids

/-- The rows of a service in `tag_siblings`, by their tags. -/
def siblingRows (c : RelationDb) (service : Nat) :
    Set (Option Tag × Option Tag × MappingStatus × Option String) :=
  {x | ∃ bad row, c.db.siblings.lookup (bad, service) = some row ∧
    x = (c.db.tags.valueOf bad, c.db.tags.valueOf row.ideal, row.status,
      c.siblingAuthors.lookup (bad, service))}

/-- The rows of a service in `tag_parents`, by their tags. -/
def parentRows (c : RelationDb) (service : Nat) :
    Set (Option Tag × Option Tag × MappingStatus × Option String) :=
  {x | ∃ child parent status, c.db.parents.lookup (child, parent, service) = some status ∧
    x = (c.db.tags.valueOf child, c.db.tags.valueOf parent, status,
      c.parentAuthors.lookup (child, parent, service))}

/-- The edges of a service that are staged as current. -/
def heldEdges (c : RelationDb) (service : Nat) : Set Edge :=
  {e | ∃ row, c.relationEdges.lookup (service, e) = some row ∧ row.status = .current}

end RelationDb

/-- The cells with one of them changed. -/
def setCell (cells : Nat → Slot → Option Cell) (service : Nat) (slot : Slot) (o : Option Cell) :
    Nat → Slot → Option Cell := fun s slot' =>
  if s = service ∧ slot' = slot then o else cells s slot'

/-- A cell put where there is none. -/
def insertCell (cells : Nat → Slot → Option Cell) (service : Nat) (slot : Slot) (x : Cell) :
    Nat → Slot → Option Cell :=
  if (cells service slot).isSome then cells else setCell cells service slot (some x)

namespace RelationDb

section

variable {c : RelationDb} {service : Nat}

theorem mem_currentEdges {e : Edge} : e ∈ c.currentEdges service ↔ e ∈ c.heldEdges service := by
  rw [currentEdges, List.mem_filterMap]
  constructor
  · rintro ⟨⟨k, row⟩, hmem, he⟩
    split at he
    · rename_i h
      cases he
      obtain ⟨rfl, hst⟩ := h
      exact ⟨row, Table.mem_entries.1 hmem, hst⟩
    · cases he
  · rintro ⟨row, hl, hst⟩
    exact ⟨⟨(service, e), row⟩, Table.mem_entries.2 hl, by simp [hst]⟩

theorem heldEdges_congr {c' : RelationDb} (h : c'.relationEdges = c.relationEdges) :
    c'.heldEdges service = c.heldEdges service := by
  rw [heldEdges, heldEdges, h]

theorem References.intern (h : c.References) (tag : Tag) : (c.intern tag).References where
  tags := IdTable.unique_intern h.tags tag
  siblings k row hl :=
    ⟨IdTable.mem_ids_intern (h.siblings k row hl).1, IdTable.mem_ids_intern (h.siblings k row hl).2⟩
  parents k st hl :=
    ⟨IdTable.mem_ids_intern (h.parents k st hl).1, IdTable.mem_ids_intern (h.parents k st hl).2⟩

theorem cell_intern (h : c.References) (tag : Tag) : (c.intern tag).cell = c.cell := by
  funext s slot
  cases slot with
  | sibling bad =>
    have hrow : ∀ b, ((c.db.siblings.lookup (b, s)).bind fun row =>
        ((c.intern tag).db.tags.valueOf row.ideal).map fun ideal =>
          (⟨ideal, row.status, c.siblingAuthors.lookup (b, s)⟩ : Cell)) =
        (c.db.siblings.lookup (b, s)).bind fun row => (c.db.tags.valueOf row.ideal).map
          fun ideal => ⟨ideal, row.status, c.siblingAuthors.lookup (b, s)⟩ := by
      intro b
      cases hl : c.db.siblings.lookup (b, s) with
      | none => rfl
      | some row =>
        have hideal : (c.intern tag).db.tags.valueOf row.ideal = c.db.tags.valueOf row.ideal :=
          IdTable.valueOf_intern (h.siblings _ _ hl).2 tag
        rw [Option.bind_some, Option.bind_some, hideal]
    refine (congrArg _ (funext hrow)).trans (IdTable.bind_idOf_intern (fun b hb => ?_) tag bad)
    cases hl : c.db.siblings.lookup (b, s) with
    | none => rfl
    | some row => exact absurd (h.siblings _ _ hl).1 hb
  | parent child parent =>
    have hnone : ∀ a b, a ∉ c.db.tags.ids ∨ b ∉ c.db.tags.ids →
        (c.intern tag).db.parents.lookup (a, b, s) = none := by
      intro a b hab
      show c.db.parents.lookup (a, b, s) = none
      cases hl : c.db.parents.lookup (a, b, s) with
      | none => rfl
      | some st => exact absurd (h.parents _ _ hl) (fun hids => hab.elim (· hids.1) (· hids.2))
    refine Eq.trans (IdTable.bind_idOf_intern (fun a ha => ?_) tag child) ?_
    · rw [Option.bind_eq_none_iff]
      intro b _
      rw [hnone a b (.inl ha)]
      rfl
    · refine congrArg _ (funext fun a => IdTable.bind_idOf_intern (fun b hb => ?_) tag parent)
      rw [hnone a b (.inr hb)]
      rfl

/-- Both tags have ids, nothing is said of them that was not. -/
theorem internPair_spec (h : c.References) (a b : Tag) :
    (c.internPair a b).1.References ∧ (c.internPair a b).1.cell = c.cell ∧
      (c.internPair a b).1.db.tags.idOf a = some (c.internPair a b).2.1 ∧
      (c.internPair a b).1.db.tags.idOf b = some (c.internPair a b).2.2 :=
  ⟨(h.intern a).intern b, (cell_intern (h.intern a) b).trans (cell_intern h a),
    IdTable.idOf_intern_of_some (IdTable.idOf_intern _ a), IdTable.idOf_intern _ b⟩

theorem eq_of_idOf {a b : Tag} {i : Nat} (ha : c.db.tags.idOf a = some i)
    (hb : c.db.tags.idOf b = some i) : a = b :=
  IdTable.mem_rows_unique (IdTable.mem_of_idOf ha) (IdTable.mem_of_idOf hb)

/-- Ids are as good as tags. -/
theorem sibling_key {bad tag : Tag} {b i s : Nat} (hbad : c.db.tags.idOf bad = some b)
    (htag : c.db.tags.idOf tag = some i) : (i, s) = (b, service) ↔ s = service ∧ tag = bad := by
  constructor
  · intro h
    cases h
    exact ⟨rfl, eq_of_idOf htag hbad⟩
  · rintro ⟨rfl, rfl⟩
    rw [hbad] at htag
    cases htag
    rfl

theorem parent_key {child parent tag tag' : Tag} {a b i j s : Nat}
    (hchild : c.db.tags.idOf child = some a) (hparent : c.db.tags.idOf parent = some b)
    (htag : c.db.tags.idOf tag = some i) (htag' : c.db.tags.idOf tag' = some j) :
    (i, j, s) = (a, b, service) ↔ s = service ∧ tag = child ∧ tag' = parent := by
  constructor
  · intro h
    cases h
    exact ⟨rfl, eq_of_idOf htag hchild, eq_of_idOf htag' hparent⟩
  · rintro ⟨rfl, rfl, rfl⟩
    rw [hchild] at htag
    rw [hparent] at htag'
    cases htag
    cases htag'
    rfl

theorem putSibling_spec (h : c.References) {bad ideal : Tag} {b i : Nat}
    (hbad : c.db.tags.idOf bad = some b) (hideal : c.db.tags.idOf ideal = some i)
    (status : MappingStatus) (author : String) :
    (c.putSibling (b, service) ⟨i, status⟩ author).References ∧
      (c.putSibling (b, service) ⟨i, status⟩ author).cell =
        setCell c.cell service (.sibling bad) (some ⟨ideal, status, some author⟩) := by
  have hvalue : c.db.tags.valueOf i = some ideal := IdTable.valueOf_of_idOf hideal
  refine ⟨⟨h.tags, fun k row hl => ?_, h.parents⟩, ?_⟩
  · by_cases hk : k = (b, service)
    · subst hk
      cases (AList.lookup_insert c.db.siblings).symm.trans hl
      exact ⟨IdTable.mem_ids_of_idOf hbad, IdTable.mem_ids_of_idOf hideal⟩
    · exact h.siblings k row ((AList.lookup_insert_ne hk).symm.trans hl)
  · funext s slot
    cases slot with
    | parent child parent => simp [cell, putSibling, setCell]
    | sibling tag =>
      simp only [cell, putSibling, setCell, Slot.sibling.injEq]
      cases hid : c.db.tags.idOf tag with
      | none =>
        have hne : tag ≠ bad := by
          rintro rfl
          rw [hbad] at hid
          cases hid
        simp [hne]
      | some j =>
        have hkey : (j, s) = (b, service) ↔ s = service ∧ _ := sibling_key hbad hid
        by_cases hk : (j, s) = (b, service)
        · rw [if_pos (hkey.1 hk), Option.bind_some, hk]
          simp [AList.lookup_insert, hvalue]
        · rw [if_neg (mt hkey.2 hk), Option.bind_some, Option.bind_some]
          simp [AList.lookup_insert_ne hk]

theorem putParent_spec (h : c.References) {child parent : Tag} {a b : Nat}
    (hchild : c.db.tags.idOf child = some a) (hparent : c.db.tags.idOf parent = some b)
    (status : MappingStatus) (author : String) :
    (c.putParent (a, b, service) status author).References ∧
      (c.putParent (a, b, service) status author).cell =
        setCell c.cell service (.parent child parent) (some ⟨parent, status, some author⟩) := by
  refine ⟨⟨h.tags, h.siblings, fun k st hl => ?_⟩, ?_⟩
  · by_cases hk : k = (a, b, service)
    · subst hk
      exact ⟨IdTable.mem_ids_of_idOf hchild, IdTable.mem_ids_of_idOf hparent⟩
    · exact h.parents k st ((AList.lookup_insert_ne hk).symm.trans hl)
  · funext s slot
    cases slot with
    | sibling bad => simp [cell, putParent, setCell]
    | parent child' parent' =>
      simp only [cell, putParent, setCell, Slot.parent.injEq]
      cases hid : c.db.tags.idOf child' with
      | none =>
        have hne : child' ≠ child := by
          rintro rfl
          rw [hchild] at hid
          cases hid
        simp [hne]
      | some i =>
        cases hid' : c.db.tags.idOf parent' with
        | none =>
          have hne : parent' ≠ parent := by
            rintro rfl
            rw [hparent] at hid'
            cases hid'
          simp [hne]
        | some j =>
          have hkey : (i, j, s) = (a, b, service) ↔ s = service ∧ _ :=
            parent_key hchild hparent hid hid'
          by_cases hk : (i, j, s) = (a, b, service)
          · rw [if_pos (hkey.1 hk), Option.bind_some, Option.bind_some, hk, (hkey.1 hk).2.2]
            simp [AList.lookup_insert]
          · rw [if_neg (mt hkey.2 hk)]
            simp [AList.lookup_insert_ne hk]

theorem status_sibling (h : c.References) {bad : Tag} {b : Nat}
    (hbad : c.db.tags.idOf bad = some b) : (c.cell service (.sibling bad)).map Cell.status =
      (c.db.siblings.lookup (b, service)).map SiblingRow.status := by
  simp only [cell, hbad, Option.bind_some]
  cases hl : c.db.siblings.lookup (b, service) with
  | none => rfl
  | some row =>
    obtain ⟨ideal, hideal⟩ := IdTable.exists_valueOf (h.siblings _ _ hl).2
    simp [hideal]

theorem status_parent {child parent : Tag} {a b : Nat} (hchild : c.db.tags.idOf child = some a)
    (hparent : c.db.tags.idOf parent = some b) :
    (c.cell service (.parent child parent)).map Cell.status =
      c.db.parents.lookup (a, b, service) := by
  simp only [cell, hchild, hparent, Option.bind_some]
  cases hl : c.db.parents.lookup (a, b, service) with
  | none => rfl
  | some st => rfl

theorem upsertSibling_spec (h : c.References) {bad ideal : Tag} {b i : Nat}
    (hbad : c.db.tags.idOf bad = some b) (hideal : c.db.tags.idOf ideal = some i)
    (author : String) : (c.upsertSibling (b, service) i author).References ∧
      (c.upsertSibling (b, service) i author).cell = setCell c.cell service (.sibling bad)
        (some ⟨ideal, ((c.cell service (.sibling bad)).map Cell.status).getD .current,
          some author⟩) := by
  rw [status_sibling h hbad]
  exact putSibling_spec h hbad hideal _ author

theorem upsertParent_spec (h : c.References) {child parent : Tag} {a b : Nat}
    (hchild : c.db.tags.idOf child = some a) (hparent : c.db.tags.idOf parent = some b)
    (author : String) : (c.upsertParent (a, b, service) author).References ∧
      (c.upsertParent (a, b, service) author).cell = setCell c.cell service (.parent child parent)
        (some ⟨parent, ((c.cell service (.parent child parent)).map Cell.status).getD .current,
          some author⟩) := by
  rw [status_parent hchild hparent]
  exact putParent_spec h hchild hparent _ author

theorem insertSibling_spec (h : c.References) {bad ideal : Tag} {b i : Nat}
    (hbad : c.db.tags.idOf bad = some b) (hideal : c.db.tags.idOf ideal = some i)
    (author : String) : (c.insertSibling (b, service) i author).References ∧
      (c.insertSibling (b, service) i author).cell =
        insertCell c.cell service (.sibling bad) ⟨ideal, .current, some author⟩ := by
  have hsome : (c.cell service (.sibling bad)).isSome =
      (c.db.siblings.lookup (b, service)).isSome := by
    simpa using congrArg Option.isSome (@status_sibling c service h bad b hbad)
  rw [insertSibling, insertCell, hsome]
  split
  · exact ⟨h, rfl⟩
  · exact putSibling_spec h hbad hideal _ author

theorem insertParent_spec (h : c.References) {child parent : Tag} {a b : Nat}
    (hchild : c.db.tags.idOf child = some a) (hparent : c.db.tags.idOf parent = some b)
    (author : String) : (c.insertParent (a, b, service) author).References ∧
      (c.insertParent (a, b, service) author).cell =
        insertCell c.cell service (.parent child parent) ⟨parent, .current, some author⟩ := by
  have hsome : (c.cell service (.parent child parent)).isSome =
      (c.db.parents.lookup (a, b, service)).isSome := by
    simpa using congrArg Option.isSome (@status_parent c service child parent a b hchild hparent)
  rw [insertParent, insertCell, hsome]
  split
  · exact ⟨h, rfl⟩
  · exact putParent_spec h hchild hparent _ author

theorem deleteSibling_spec (h : c.References) (tag : Tag) :
    (c.deleteSibling service tag).References ∧
      (c.deleteSibling service tag).cell = setCell c.cell service (.sibling tag) none := by
  unfold deleteSibling
  rw [show c.db.tagId tag = c.db.tags.idOf tag from rfl]
  cases hbad : c.db.tags.idOf tag with
  | none =>
    refine ⟨h, ?_⟩
    funext s slot
    simp only [setCell]
    split
    · rename_i hslot
      rw [hslot.2]
      simp [cell, hbad]
    · rfl
  | some b =>
    refine ⟨⟨h.tags, fun k row hl => h.siblings k row (Table.of_lookup_erase hl).2, h.parents⟩, ?_⟩
    funext s slot
    cases slot with
    | parent child parent => simp [cell, setCell]
    | sibling bad =>
      simp only [cell, setCell, Slot.sibling.injEq]
      cases hid : c.db.tags.idOf bad with
      | none => simp
      | some j =>
        have hkey : (j, s) = (b, service) ↔ s = service ∧ _ := sibling_key hbad hid
        by_cases hk : (j, s) = (b, service)
        · rw [if_pos (hkey.1 hk), Option.bind_some, hk]
          simp [AList.lookup_erase]
        · rw [if_neg (mt hkey.2 hk)]
          simp [AList.lookup_erase_ne hk]

theorem deleteParent_spec (h : c.References) (child parent : Tag) :
    (c.deleteParent service child parent).References ∧
      (c.deleteParent service child parent).cell =
        setCell c.cell service (.parent child parent) none := by
  have hnone : (∀ a b, c.db.tags.idOf child = some a → c.db.tags.idOf parent = some b → False) →
      c.cell = setCell c.cell service (.parent child parent) none := by
    intro hids
    funext s slot
    simp only [setCell]
    split
    · rename_i hslot
      rw [hslot.2]
      cases ha : c.db.tags.idOf child with
      | none => simp [cell, ha]
      | some a =>
        cases hb : c.db.tags.idOf parent with
        | none => simp [cell, hb]
        | some b => exact absurd hb fun hb => hids a b ha hb
    · rfl
  unfold deleteParent
  rw [show c.db.tagId child = c.db.tags.idOf child from rfl,
    show c.db.tagId parent = c.db.tags.idOf parent from rfl]
  split
  · rename_i a b ha hb
    refine ⟨⟨h.tags, h.siblings, fun k st hl => h.parents k st (Table.of_lookup_erase hl).2⟩, ?_⟩
    funext s slot
    cases slot with
    | sibling bad => simp [cell, setCell]
    | parent child' parent' =>
      simp only [cell, setCell, Slot.parent.injEq]
      cases hid : c.db.tags.idOf child' with
      | none => simp
      | some i =>
        cases hid' : c.db.tags.idOf parent' with
        | none => simp
        | some j =>
          have hkey : (i, j, s) = (a, b, service) ↔ s = service ∧ _ :=
            parent_key ha hb hid hid'
          by_cases hk : (i, j, s) = (a, b, service)
          · rw [if_pos (hkey.1 hk), Option.bind_some, Option.bind_some, hk]
            simp [AList.lookup_erase]
          · rw [if_neg (mt hkey.2 hk)]
            simp [AList.lookup_erase_ne hk]
  · rename_i hids
    exact ⟨h, hnone fun a b ha hb => hids a b ha hb⟩

theorem clearRelations_spec (h : c.References) : (c.clearRelations service).References ∧
    ∀ s slot, (c.clearRelations service).cell s slot =
      if s = service then none else c.cell s slot := by
  refine ⟨⟨h.tags, fun k row hl => ?_, fun k st hl => ?_⟩, fun s slot => ?_⟩
  · simp only [clearRelations, Table.lookup_select] at hl
    exact h.siblings k row (Option.filter_eq_some_iff.1 hl).1
  · simp only [clearRelations, Table.lookup_select] at hl
    exact h.parents k st (Option.filter_eq_some_iff.1 hl).1
  · cases slot with
    | sibling bad =>
      by_cases hs : s = service
      · simp [cell, clearRelations, Table.lookup_select_key, hs]
      · simp [cell, clearRelations, Table.lookup_select_key, hs]
    | parent child parent =>
      by_cases hs : s = service
      · simp [cell, clearRelations, Table.lookup_select_key, hs]
      · simp [cell, clearRelations, Table.lookup_select_key, hs]

theorem mem_siblingRows (h : c.References)
    {x : Option Tag × Option Tag × MappingStatus × Option String} :
    x ∈ c.siblingRows service ↔ ∃ bad y, c.cell service (.sibling bad) = some y ∧
      x = (some bad, some y.target, y.status, y.author) := by
  constructor
  · rintro ⟨b, row, hl, rfl⟩
    obtain ⟨hb, hi⟩ := h.siblings _ _ hl
    obtain ⟨bad, hbad⟩ := IdTable.exists_valueOf hb
    obtain ⟨ideal, hideal⟩ := IdTable.exists_valueOf hi
    have hid : c.db.tags.idOf bad = some b := IdTable.idOf_of_valueOf h.tags hbad
    refine ⟨bad, ⟨ideal, row.status, c.siblingAuthors.lookup (b, service)⟩, ?_, ?_⟩
    · simp [cell, hid, hl, hideal]
    · rw [hbad, hideal]
  · rintro ⟨bad, y, hcell, rfl⟩
    obtain ⟨b, hb, hrow⟩ := Option.bind_eq_some_iff.1 hcell
    obtain ⟨row, hl, hy⟩ := Option.bind_eq_some_iff.1 hrow
    obtain ⟨ideal, hideal, rfl⟩ := Option.map_eq_some_iff.1 hy
    refine ⟨b, row, hl, ?_⟩
    rw [IdTable.valueOf_of_idOf hb, hideal]

theorem mem_parentRows (h : c.References)
    {x : Option Tag × Option Tag × MappingStatus × Option String} :
    x ∈ c.parentRows service ↔ ∃ child parent y,
      c.cell service (.parent child parent) = some y ∧
        x = (some child, some parent, y.status, y.author) := by
  constructor
  · rintro ⟨a, b, status, hl, rfl⟩
    obtain ⟨ha, hb⟩ := h.parents _ _ hl
    obtain ⟨child, hchild⟩ := IdTable.exists_valueOf ha
    obtain ⟨parent, hparent⟩ := IdTable.exists_valueOf hb
    have hida : c.db.tags.idOf child = some a := IdTable.idOf_of_valueOf h.tags hchild
    have hidb : c.db.tags.idOf parent = some b := IdTable.idOf_of_valueOf h.tags hparent
    refine ⟨child, parent, ⟨parent, status, c.parentAuthors.lookup (a, b, service)⟩, ?_, ?_⟩
    · simp [cell, hida, hidb, hl]
    · rw [hchild, hparent]
  · rintro ⟨child, parent, y, hcell, rfl⟩
    obtain ⟨a, ha, hrow⟩ := Option.bind_eq_some_iff.1 hcell
    obtain ⟨b, hb, hrow⟩ := Option.bind_eq_some_iff.1 hrow
    obtain ⟨status, hl, rfl⟩ := Option.map_eq_some_iff.1 hrow
    refine ⟨a, b, status, hl, ?_⟩
    rw [IdTable.valueOf_of_idOf ha, IdTable.valueOf_of_idOf hb]

/-- The cells are the rows. -/
theorem rows_congr {d : RelationDb} (hc : c.References) (hd : d.References)
    (h : c.cell service = d.cell service) :
    c.siblingRows service = d.siblingRows service ∧
      c.parentRows service = d.parentRows service := by
  constructor
  · ext x
    rw [mem_siblingRows hc, mem_siblingRows hd, h]
  · ext x
    rw [mem_parentRows hc, mem_parentRows hd, h]

end

end RelationDb

end Db
end Naiad
