import Naiad.Db.Recanonicalize
import Naiad.Db.Staging
import Naiad.Lib.Resolve

/-!
# Naiad.Db.TagMerge

The hook that rewrites the tags, with everything that refers to a tag: mappings, staged mappings,
relations and rejections. Entries are compared by the names of their tags.

* `step_cases`: what one tag row can do.
* `Merged`, `Renamed`: a step moves ids to ids of the same canonical name.
* `Pending.step`, `step_renamed`: what every step keeps, and where its entries go.
-/

namespace Naiad
namespace Db

open Lib

/-- The text a tag is given; one whose display does not parse has no other. -/
def image (u : Unicode) (tag : Tag) : Tag := (canonicalOf u tag).getD tag

theorem image_idem {u : Unicode} {lower : List Char → Char → List Char → List Char}
    (hu : u.Lowercases lower) (tag : Tag) : image u (image u tag) = image u tag := by
  unfold image
  cases hcanon : canonicalOf u tag with
  | none => simp [hcanon]
  | some canon =>
    have hparse : Tag.parse u tag.display = .ok canon := by
      unfold canonicalOf at hcanon
      split at hcanon
      · cases hcanon
        assumption
      · cases hcanon
    have hback := (Tag.canonical_of_parse hu hparse).parse_display hu
    simp [canonicalOf, hback]

namespace ClientDb

/-! ## The hook -/

/-- Merge a tag into another and delete it, the staged mappings included. -/
def mergeTag (c : ClientDb) (old new : Nat) : Option ClientDb :=
  (c.db.mergeTag old new).map fun db =>
    { c with
      db := db
      staged := (c.staged.rekey fun k => (k.1, repoint old new k.2.1, k.2.2)).select
        fun k _ => k.2.1 ≠ old }

def setTag (c : ClientDb) (id : Nat) (tag : Tag) : ClientDb :=
  { c with db := { c.db with tags := c.db.tags.setValue id tag } }

/-- One stored tag; the flag says that some tag was changed. -/
def recanonicalizeTag (u : Unicode) (s : ClientDb × Bool) (row : Nat × Tag) :
    Option (ClientDb × Bool) :=
  match canonicalOf u row.2 with
  | none => some s
  | some canon =>
    if canon = row.2 then some s
    else
      match s.1.db.tags.idOf canon with
      | none => some (s.1.setTag row.1 canon, true)
      | some new => (s.1.mergeTag row.1 new).map fun c => (c, true)

def recanonicalizeRows (u : Unicode) : List (Nat × Tag) → ClientDb × Bool → Option (ClientDb × Bool)
  | [], s => some s
  | row :: rows, s => (recanonicalizeTag u s row).bind (recanonicalizeRows u rows)

/-- All tags as they were at the start, in the order the query gives them. -/
def recanonicalizeTags (u : Unicode) (order : List (Nat × Tag)) (c : ClientDb) :
    Option (ClientDb × Bool) :=
  recanonicalizeRows u order (c, false)

/-- On the other tables the hook is that of the tables alone. -/
theorem recanonicalizeRows_db (u : Unicode) (rows : List (Nat × Tag)) (s : ClientDb × Bool) :
    (recanonicalizeRows u rows s).map (fun s => (s.1.db, s.2)) =
      Db.recanonicalizeRows u rows (s.1.db, s.2) := by
  induction rows generalizing s with
  | nil => rfl
  | cons row rows ih =>
    have hstep : (recanonicalizeTag u s row).map (fun s => (s.1.db, s.2)) =
        Db.recanonicalizeTag u (s.1.db, s.2) row := by
      unfold recanonicalizeTag Db.recanonicalizeTag
      cases hcanon : canonicalOf u row.2 with
      | none => rfl
      | some canon =>
        simp only
        split
        · rfl
        · cases hid : s.1.db.tags.idOf canon with
          | none => rfl
          | some new => simp [mergeTag, Option.map_map, Function.comp_def]
    rw [recanonicalizeRows, Db.recanonicalizeRows, ← hstep]
    cases recanonicalizeTag u s row with
    | none => rfl
    | some s' => exact ih s'

/-! ## Entries by the names of their tags -/

def name (c : ClientDb) (id : Nat) : Option Tag := c.db.tags.valueOf id

def canonicalName (u : Unicode) (c : ClientDb) (id : Nat) : Option Tag := (c.name id).map (image u)

section

variable (n : Nat → Option Tag) (c : ClientDb)

def stagedBy : Set ((Hash × Tag × Nat) × Netproto.MappingStatus) :=
  { e | ∃ id row, n id = some e.1.2.1 ∧ c.staged.lookup (e.1.1, id, e.1.2.2) = some row ∧
    row.status = e.2 }

def siblingsBy : Set ((Tag × Nat) × Tag × Netproto.MappingStatus) :=
  { e | ∃ bad row, n bad = some e.1.1 ∧ c.db.siblings.lookup (bad, e.1.2) = some row ∧
    n row.ideal = some e.2.1 ∧ row.status = e.2.2 }

def parentsBy : Set ((Tag × Tag × Nat) × Netproto.MappingStatus) :=
  { e | ∃ child parent, n child = some e.1.1 ∧ n parent = some e.1.2.1 ∧
    c.db.parents.lookup (child, parent, e.1.2.2) = some e.2 }

def rejectionsBy : Set (Nat × Nat × Tag) :=
  { e | ∃ id, n id = some e.2.2 ∧ (e.1, e.2.1, id) ∈ c.db.rejections }

end

section

variable {u : Unicode} {c c' : ClientDb} {b b' : Bool} {row : Nat × Tag} {rest : List (Nat × Tag)}

theorem recanonicalizeTag_eq (u : Unicode) (s : ClientDb × Bool) (row : Nat × Tag) :
    recanonicalizeTag u s row =
      if image u row.2 = row.2 then some s
      else
        match s.1.db.tags.idOf (image u row.2) with
        | none => some (s.1.setTag row.1 (image u row.2), true)
        | some new => (s.1.mergeTag row.1 new).map fun c => (c, true) := by
  unfold recanonicalizeTag image
  cases hcanon : canonicalOf u row.2 with
  | none => simp
  | some canon => rfl

/-- A row is left alone, renamed, or merged into the row that has its text. -/
theorem step_cases (h : recanonicalizeTag u (c, b) row = some (c', b')) :
    (image u row.2 = row.2 ∧ c' = c) ∨
      (image u row.2 ≠ row.2 ∧ c.db.tags.idOf (image u row.2) = none ∧
        c' = c.setTag row.1 (image u row.2)) ∨
      image u row.2 ≠ row.2 ∧ ∃ new, c.db.tags.idOf (image u row.2) = some new ∧
        c.mergeTag row.1 new = some c' := by
  rw [recanonicalizeTag_eq] at h
  by_cases hfixed : image u row.2 = row.2
  · rw [if_pos hfixed] at h
    cases h
    exact .inl ⟨hfixed, rfl⟩
  · rw [if_neg hfixed] at h
    cases hid : c.db.tags.idOf (image u row.2) with
    | none =>
      simp only [hid] at h
      cases h
      exact .inr (.inl ⟨hfixed, rfl, rfl⟩)
    | some new =>
      simp only [hid] at h
      obtain ⟨c₁, hmerge, heq⟩ := Option.map_eq_some_iff.1 h
      cases heq
      exact .inr (.inr ⟨hfixed, new, rfl, hmerge⟩)

/-- The tags along the hook: those still to come are as they were, the others are canonical. -/
structure Pending (u : Unicode) (c : ClientDb) (rest : List (Nat × Tag)) : Prop where
  unique : c.db.tags.Unique
  ideals : ∀ bad s row, c.db.siblings.lookup (bad, s) = some row → row.ideal ∈ c.db.tags.ids
  rows : ∀ row ∈ rest, row ∈ c.db.tags.rows
  done : ∀ row ∈ c.db.tags.rows, row ∈ rest ∨ image u row.2 = row.2
  nodup : (rest.map Prod.fst).Nodup

theorem idOf_eq_some (h : c.db.tags.Unique) {T : Tag} {id : Nat} :
    c.db.tags.idOf T = some id ↔ c.name id = some T := by
  rw [← IdTable.mem_rows_iff_idOf h, name, IdTable.valueOf_eq_some]

theorem name_of_mem (h : row ∈ c.db.tags.rows) : c.name row.1 = some row.2 :=
  IdTable.valueOf_eq_some.2 h

/-- A step moves ids to ids of the same canonical name, with all that refers to them. -/
structure Renamed (u : Unicode) (m : Nat → Nat) (c c' : ClientDb) : Prop where
  names : ∀ id, c'.canonicalName u (m id) = c.canonicalName u id
  staged : Table.Moved (fun k => (k.1, m k.2.1, k.2.2)) id c.staged c'.staged
  siblings : Table.Moved (fun k => (m k.1, k.2)) (fun row => { row with ideal := m row.ideal })
    c.db.siblings c'.db.siblings
  parents : Table.Moved (fun k => (m k.1, m k.2.1, k.2.2)) id c.db.parents c'.db.parents
  rejections : c'.db.rejections = c.db.rejections
  rejected : ∀ r ∈ c.db.rejections, m r.2.2 = r.2.2

/-- What a step does to the entries. -/
structure Kept (u : Unicode) (c c' : ClientDb) : Prop where
  staged : Selects (stagedBy (c.canonicalName u) c) (stagedBy (c'.canonicalName u) c')
  siblings : Selects (siblingsBy (c.canonicalName u) c) (siblingsBy (c'.canonicalName u) c')
  parents : Selects (parentsBy (c.canonicalName u) c) (parentsBy (c'.canonicalName u) c')
  rejections : rejectionsBy (c'.canonicalName u) c' = rejectionsBy (c.canonicalName u) c

theorem Kept.refl (u : Unicode) (c : ClientDb) : Kept u c c := ⟨.refl _, .refl _, .refl _, rfl⟩

theorem Kept.trans {c'' : ClientDb} (h : Kept u c c') (h' : Kept u c' c'') : Kept u c c'' where
  staged := h.staged.trans h'.staged
  siblings := h.siblings.trans h'.siblings
  parents := h.parents.trans h'.parents
  rejections := h'.rejections.trans h.rejections

section

variable {m : Nat → Nat}

theorem Renamed.staged_resolves (h : Renamed u m c c') :
    Selects (stagedBy (c.canonicalName u) c) (stagedBy (c'.canonicalName u) c') where
  values := by
    rintro ⟨⟨hash, T, s⟩, st⟩ ⟨id', row', hname, hrow, hst⟩
    obtain ⟨⟨hash₀, id, s₀⟩, row, hold, hkey, rfl⟩ := h.staged.of_new _ _ hrow
    cases hkey
    exact ⟨id, row, by rw [← h.names id]; exact hname, hold, hst⟩
  keys := by
    rintro ⟨hash, T, s⟩ st ⟨id, row, hname, hrow, _⟩
    obtain ⟨row', hnew⟩ := h.staged.of_old _ _ hrow
    exact ⟨row'.status, m id, row', by rw [h.names id]; exact hname, hnew, rfl⟩

theorem Renamed.siblings_resolves (h : Renamed u m c c')
    (hideals : ∀ bad s row, c.db.siblings.lookup (bad, s) = some row → row.ideal ∈ c.db.tags.ids) :
    Selects (siblingsBy (c.canonicalName u) c) (siblingsBy (c'.canonicalName u) c') where
  values := by
    rintro ⟨⟨B, s⟩, I, st⟩ ⟨bad', row', hbad, hrow, hideal, hst⟩
    obtain ⟨⟨bad, s₀⟩, row, hold, hkey, rfl⟩ := h.siblings.of_new _ _ hrow
    cases hkey
    exact ⟨bad, row, by rw [← h.names bad]; exact hbad, hold,
      by rw [← h.names row.ideal]; exact hideal, hst⟩
  keys := by
    rintro ⟨B, s⟩ ⟨I, st⟩ ⟨bad, row, hbad, hrow, _, _⟩
    obtain ⟨row', hnew⟩ := h.siblings.of_old _ _ hrow
    obtain ⟨⟨bad₁, s₁⟩, row₁, hold, _, rfl⟩ := h.siblings.of_new _ _ hnew
    obtain ⟨tag, htag⟩ := IdTable.exists_valueOf (hideals bad₁ s₁ row₁ hold)
    have hideal : c'.canonicalName u (m row₁.ideal) = some (image u tag) := by
      rw [h.names, canonicalName, name, htag]
      rfl
    exact ⟨(image u tag, row₁.status), m bad, _, by rw [h.names bad]; exact hbad, hnew, hideal, rfl⟩

theorem Renamed.parents_resolves (h : Renamed u m c c') :
    Selects (parentsBy (c.canonicalName u) c) (parentsBy (c'.canonicalName u) c') where
  values := by
    rintro ⟨⟨C, P, s⟩, st⟩ ⟨child', parent', hchild, hparent, hrow⟩
    obtain ⟨⟨child, parent, s₀⟩, st₀, hold, hkey, rfl⟩ := h.parents.of_new _ _ hrow
    cases hkey
    exact ⟨child, parent, by rw [← h.names child]; exact hchild,
      by rw [← h.names parent]; exact hparent, hold⟩
  keys := by
    rintro ⟨C, P, s⟩ st ⟨child, parent, hchild, hparent, hrow⟩
    obtain ⟨st', hnew⟩ := h.parents.of_old _ _ hrow
    exact ⟨st', m child, m parent, by rw [h.names child]; exact hchild,
      by rw [h.names parent]; exact hparent, hnew⟩

theorem Renamed.kept (h : Renamed u m c c')
    (hideals : ∀ bad s row, c.db.siblings.lookup (bad, s) = some row → row.ideal ∈ c.db.tags.ids) :
    Kept u c c' where
  staged := h.staged_resolves
  siblings := h.siblings_resolves hideals
  parents := h.parents_resolves
  rejections := by
    ext ⟨service, file, T⟩
    simp only [rejectionsBy, Set.mem_ofPred_eq, h.rejections]
    refine exists_congr fun id => and_congr_left fun hmem => ?_
    rw [← h.names id, h.rejected _ hmem]

end

/-- A merge, table by table. -/
structure Merged (old new : Nat) (c c' : ClientDb) : Prop where
  free : ∀ r ∈ c.db.rejections, r.2.2 ≠ old
  tags : c'.db.tags = c.db.tags.erase old
  rejections : c'.db.rejections = c.db.rejections
  mappings : c'.db.mappings =
    (c.db.mappings.rekey fun k => (k.1, repoint old new k.2.1, k.2.2)).select fun k _ => k.2.1 ≠ old
  staged : c'.staged =
    (c.staged.rekey fun k => (k.1, repoint old new k.2.1, k.2.2)).select fun k _ => k.2.1 ≠ old
  siblings : c'.db.siblings =
    ((c.db.siblings.rekey fun k => (repoint old new k.1, k.2)).modify
      fun _ row => { row with ideal := repoint old new row.ideal }).select
        fun k row => k.1 ≠ old && row.ideal ≠ old
  parents : c'.db.parents =
    ((c.db.parents.rekey fun k => (repoint old new k.1, k.2)).rekey
      fun k => (k.1, repoint old new k.2.1, k.2.2)).select fun k _ => k.1 ≠ old && k.2.1 ≠ old

theorem merged_of_mergeTag {old new : Nat} (h : c.mergeTag old new = some c') :
    Merged old new c c' := by
  obtain ⟨db, hdb, rfl⟩ := Option.map_eq_some_iff.1 h
  unfold Db.mergeTag at hdb
  split at hdb
  · cases hdb
  · rename_i hfree
    cases hdb
    refine ⟨fun r hr heq => hfree ⟨r, hr, heq⟩, rfl, rfl, rfl, rfl, rfl, rfl⟩

section

variable {old new : Nat}

theorem repoint_ne (hne : new ≠ old) (t : Nat) : repoint old new t ≠ old := by
  unfold repoint
  split
  · exact hne
  · assumption

theorem repoint_of_ne {t : Nat} (h : t ≠ old) : repoint old new t = t := if_neg h

theorem repoint_eq_self (hne : new ≠ old) {t : Nat} : repoint old new t = t ↔ t ≠ old := by
  constructor
  · intro h
    rw [← h]
    exact repoint_ne hne t
  · exact repoint_of_ne

theorem repoint_idem (hne : new ≠ old) (t : Nat) :
    repoint old new (repoint old new t) = repoint old new t :=
  repoint_of_ne (repoint_ne hne t)

theorem Merged.moved_siblings (h : Merged old new c c') (hne : new ≠ old) :
    Table.Moved (fun k => (repoint old new k.1, k.2))
      (fun row => { row with ideal := repoint old new row.ideal })
      c.db.siblings c'.db.siblings := by
  rw [h.siblings]
  refine .of_rekey (fun k => by rw [repoint_idem hne]) ?_
  rintro ⟨bad, s⟩ v
  rw [Table.lookup_select, Option.filter_eq_some_iff, Table.lookup_modify, Option.map_eq_some_iff]
  constructor
  · rintro ⟨⟨row, hrow, rfl⟩, hkeep⟩
    simp only [Bool.and_eq_true, decide_eq_true_eq] at hkeep
    exact ⟨by rw [repoint_of_ne hkeep.1], row, hrow, rfl⟩
  · rintro ⟨hkey, row, hrow, rfl⟩
    have hbad : bad ≠ old := (repoint_eq_self hne).1 (Prod.mk.inj hkey).1
    exact ⟨⟨row, hrow, rfl⟩, by simp [hbad, repoint_ne hne]⟩

theorem Merged.name_eq (h : Merged old new c c') (id : Nat) :
    c'.name id = if id = old then none else c.name id := by
  rw [name, h.tags, IdTable.valueOf_erase]
  rfl

theorem name_setTag (c : ClientDb) (id : Nat) (tag : Tag) (i : Nat) :
    (c.setTag id tag).name i = (c.name i).map fun w => if i = id then tag else w :=
  IdTable.valueOf_setValue _ _ _ _

theorem Renamed.refl (u : Unicode) (c : ClientDb) : Renamed u (fun i => i) c c where
  names := fun _ => rfl
  staged := .of_id (fun _ => rfl) (fun _ => rfl) _
  siblings := .of_id (fun _ => rfl) (fun _ => rfl) _
  parents := .of_id (fun _ => rfl) (fun _ => rfl) _
  rejections := rfl
  rejected := fun _ _ => rfl

end

/-! ## Along the hook -/

theorem Pending.name (h : Pending u c rest) (hrow : row ∈ rest) : c.name row.1 = some row.2 :=
  name_of_mem (h.rows row hrow)

theorem Pending.head_name (h : Pending u c (row :: rest)) : c.name row.1 = some row.2 :=
  h.name (List.mem_cons_self ..)

theorem Pending.ne_of_mem (h : Pending u c (row :: rest)) {r : Nat × Tag} (hr : r ∈ rest) :
    r.1 ≠ row.1 := by
  have hnodup := h.nodup
  rw [List.map_cons, List.nodup_cons] at hnodup
  intro heq
  exact hnodup.1 (heq ▸ List.mem_map_of_mem hr)

/-- The row a tag merges into is another one. -/
theorem Pending.target_ne (h : Pending u c (row :: rest)) (hfixed : image u row.2 ≠ row.2)
    {new : Nat} (hnew : c.db.tags.idOf (image u row.2) = some new) : new ≠ row.1 := by
  rintro rfl
  have hname := (idOf_eq_some h.unique).1 hnew
  rw [h.head_name] at hname
  exact hfixed (Option.some.inj hname).symm

/-- Apart from the row itself, tags keep their texts; the row becomes canonical or goes. -/
theorem step_names (h : Pending u c (row :: rest)) {lower : List Char → Char → List Char → List Char}
    (hu : u.Lowercases lower) (hstep : recanonicalizeTag u (c, b) row = some (c', b')) :
    (∀ id, id ≠ row.1 → c'.name id = c.name id) ∧
      ∀ T, c'.name row.1 = some T → image u T = T := by
  obtain ⟨hfixed, rfl⟩ | ⟨_, _, rfl⟩ | ⟨_, new, _, hmerge⟩ := step_cases hstep
  · refine ⟨fun _ _ => rfl, fun T hT => ?_⟩
    rw [h.head_name] at hT
    rw [← Option.some.inj hT, hfixed]
  · refine ⟨fun id hid => ?_, fun T hT => ?_⟩
    · simp [name_setTag, hid]
    · rw [name_setTag, h.head_name, Option.map_some, if_pos rfl] at hT
      rw [← Option.some.inj hT, image_idem hu]
  · have hmerged := merged_of_mergeTag hmerge
    refine ⟨fun id hid => ?_, fun T hT => ?_⟩
    · rw [hmerged.name_eq, if_neg hid]
    · rw [hmerged.name_eq, if_pos rfl] at hT
      cases hT

theorem step_unique (h : Pending u c (row :: rest))
    (hstep : recanonicalizeTag u (c, b) row = some (c', b')) : c'.db.tags.Unique := by
  obtain ⟨_, rfl⟩ | ⟨_, hid, rfl⟩ | ⟨_, new, _, hmerge⟩ := step_cases hstep
  · exact h.unique
  · exact h.unique.setValue row.1 (IdTable.idOf_eq_none.1 hid)
  · rw [(merged_of_mergeTag hmerge).tags]
    exact h.unique.erase row.1

theorem step_ideals (h : Pending u c (row :: rest))
    (hstep : recanonicalizeTag u (c, b) row = some (c', b')) :
    ∀ bad s r, c'.db.siblings.lookup (bad, s) = some r → r.ideal ∈ c'.db.tags.ids := by
  obtain ⟨_, rfl⟩ | ⟨_, _, rfl⟩ | ⟨hfixed, new, hid, hmerge⟩ := step_cases hstep
  · exact h.ideals
  · intro bad s r hr
    change r.ideal ∈ (c.db.tags.setValue row.1 (image u row.2)).ids
    rw [IdTable.ids_setValue]
    exact h.ideals bad s r hr
  · have hmerged := merged_of_mergeTag hmerge
    have hne := h.target_ne hfixed hid
    intro bad s r hr
    obtain ⟨⟨bad₀, s₀⟩, r₀, hold, _, rfl⟩ := (hmerged.moved_siblings hne).of_new _ _ hr
    rw [hmerged.tags, IdTable.mem_ids_erase]
    refine ⟨?_, repoint_ne hne _⟩
    change repoint row.1 new r₀.ideal ∈ _
    unfold repoint
    split
    · exact IdTable.mem_ids_of_idOf hid
    · exact h.ideals bad₀ s₀ r₀ hold

theorem Pending.step (h : Pending u c (row :: rest))
    {lower : List Char → Char → List Char → List Char} (hu : u.Lowercases lower)
    (hstep : recanonicalizeTag u (c, b) row = some (c', b')) : Pending u c' rest := by
  obtain ⟨hothers, hself⟩ := step_names h hu hstep
  refine ⟨step_unique h hstep, step_ideals h hstep, ?_, ?_, (List.nodup_cons.1 h.nodup).2⟩
  · intro r hr
    refine IdTable.valueOf_eq_some.1 ?_
    have hname := hothers r.1 (h.ne_of_mem hr)
    rw [h.name (List.mem_cons_of_mem _ hr)] at hname
    exact hname
  · intro r hr
    have hname := name_of_mem hr
    by_cases hrow : r.1 = row.1
    · rw [hrow] at hname
      exact .inr (hself r.2 hname)
    · rw [hothers r.1 hrow] at hname
      rcases h.done r (IdTable.valueOf_eq_some.1 hname) with hmem | hfixed
      · rcases List.mem_cons.1 hmem with rfl | hmem
        · exact absurd rfl hrow
        · exact .inl hmem
      · exact .inr hfixed

end

end ClientDb

end Db
end Naiad
