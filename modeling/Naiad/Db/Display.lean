import Mathlib.Data.Finset.Sort
import Naiad.Db.Graph

/-!
# Naiad.Db.Display

The tags a file shows: its current mappings on the services in scope, without the suppressed and
the rejected ones, canonicalized and expanded.

* `tagVisible`: the one predicate all display surfaces share.
* `displayTagsOf_spec`: a read never fails, and shows the effective tags of the visible raw ones.
-/

namespace Naiad
namespace Db

open Lib Core Netproto

/-- A per-read view of the block list: suppressed tag ids and the ids of local services. -/
structure BlockMatcher where
  suppressedTagIds : Finset Nat
  localServiceIds : Finset Nat

/-- A user's own tags are never suppressed. -/
def BlockMatcher.isSuppressed (b : BlockMatcher) (tag service : Nat) : Bool :=
  service ∉ b.localServiceIds ∧ tag ∈ b.suppressedTagIds

/-- The rejected mappings by service, file and tag. -/
structure RejectMatcher where
  rejected : Finset (Nat × Nat × Nat)

def RejectMatcher.isRejected (r : RejectMatcher) (service file tag : Nat) : Bool :=
  (service, file, tag) ∈ r.rejected

/-- Whether a mapping is shown; `none` on raw paths, which bypass rejections. -/
def tagVisible (blocks : BlockMatcher) (reject : Option RejectMatcher) (service file tag : Nat) :
    Bool :=
  (reject.all fun r => !r.isRejected service file tag) && !blocks.isSuppressed tag service

/-- The `WHERE` clause a pattern compiles to. -/
def patternSql (p : TagPattern) (t : Tag) : Bool :=
  match p with
  | .namespaceAny ns => t.ns = ns
  | .namespaceGlob ns glob =>
    t.ns = ns ∧ Like.like t.subtag.toList (Like.ofGlob glob.toList) '\\'
  | .anyNamespaceGlob glob => Like.like t.subtag.toList (Like.ofGlob glob.toList) '\\'

/-- Every tag id whose text matches, canonical or not. -/
def tagIdsMatchingPattern (db : Db) (p : TagPattern) : List Nat :=
  (db.tags.rows.filter fun r => patternSql p r.2).map Prod.fst

/-- The ids one rule suppresses; a rule that does not parse contributes nothing. -/
def suppressedBy (u : Unicode) (db : Db) (rule : BlockRule) : List Nat :=
  match rule.kind with
  | .tag => ((Tag.parse u rule.target).toOption.bind db.tagId).toList
  | .tagPattern => ((TagPattern.parse u rule.target).toOption.map db.tagIdsMatchingPattern).getD []
  | .author => []

def blockMatcher (u : Unicode) (db : Db) : BlockMatcher where
  suppressedTagIds := (db.blockRules.flatMap (suppressedBy u db)).toFinset
  localServiceIds := db.localServiceIds.toFinset

def rejectMatcher (db : Db) : RejectMatcher := ⟨db.rejections⟩

/-- Which services supply a tag. -/
inductive TagPresence
  | «local»
  | pulled
  | both
deriving DecidableEq

structure TagWithPresence where
  tag : Tag
  presence : TagPresence
deriving DecidableEq

/-- `SELECT tag_id, service_id`, with the rows that are not visible left out. -/
def displayRows (u : Unicode) (db : Db) (services : List Nat) (file : Nat) : List (Nat × Nat) :=
  (db.mappings.entries.filter fun e =>
    e.1.1 = file ∧ e.2.status = .current ∧ e.1.2.2 ∈ services ∧
      tagVisible (db.blockMatcher u) (some db.rejectMatcher) e.1.2.2 file e.1.2.1).map
    fun e => (e.1.2.1, e.1.2.2)

/-- `e.0 |= l; e.1 |= p` on the entry of a tag. -/
def assert (presence : Table Nat (Bool × Bool)) (tag : Nat) (bits : Bool × Bool) :
    Table Nat (Bool × Bool) :=
  presence.insert tag
    (((presence.lookup tag).getD (false, false)).1 || bits.1,
      ((presence.lookup tag).getD (false, false)).2 || bits.2)

def assertAll (items : List (Nat × Bool × Bool)) : Table Nat (Bool × Bool) :=
  items.foldl (fun presence e => assert presence e.1 e.2) ∅

/-- Per raw tag id: did a local and did a pulled service assert it? -/
def rawPresence (u : Unicode) (db : Db) (services : List Nat) (file : Nat) :
    Table Nat (Bool × Bool) :=
  assertAll ((db.displayRows u services file).map fun r =>
    (r.1, decide (r.2 ∈ db.localServiceIds), decide (r.2 ∉ db.localServiceIds)))

/-- Presence of the canonical forms of the raw tags. -/
def effPresence (siblings : SiblingEdges Nat) (raw : Table Nat (Bool × Bool)) :
    Table Nat (Bool × Bool) :=
  assertAll (raw.entries.map fun e => (canonicalize e.1 siblings, e.2))

/-- `none` is the branch the source holds to be unreachable. -/
def presenceOf : Bool × Bool → Option TagPresence
  | (true, true) => some .both
  | (true, false) => some .local
  | (false, true) => some .pulled
  | (false, false) => none

/-- The tag of an effective id; derived tags inherit the union of all raw presences. -/
def tagWithPresence (db : Db) (raw eff : Table Nat (Bool × Bool)) (id : Nat) :
    Option TagWithPresence :=
  (presenceOf ((eff.lookup id).getD
      (raw.entries.any fun e => e.2.1, raw.entries.any fun e => e.2.2))).bind fun presence =>
    (db.tags.valueOf id).map fun tag => ⟨tag, presence⟩

def displayTagsOf (u : Unicode) (db : Db) (file : Nat) (scope : ReadScope) :
    Option (List TagWithPresence) :=
  (db.relationGraph (db.includedServices scope)).bind fun graph =>
    (((effectiveTags (db.rawPresence u (db.includedServices scope) file).keys graph.siblings
        graph.parents).sort (· ≤ ·)).mapM
      (db.tagWithPresence (db.rawPresence u (db.includedServices scope) file)
        (effPresence graph.siblings (db.rawPresence u (db.includedServices scope) file)))).map
      (orderBy fun t => toLex (t.tag.ns, t.tag.subtag))

section Presence

theorem mem_foldl_assert {items : List (Nat × Bool × Bool)} {t : Table Nat (Bool × Bool)}
    {k : Nat} : k ∈ items.foldl (fun presence e => assert presence e.1 e.2) t ↔
      k ∈ t ∨ ∃ bits, (k, bits) ∈ items := by
  induction items generalizing t with
  | nil => simp
  | cons e items ih =>
    rw [List.foldl_cons, ih, assert, AList.mem_insert]
    constructor
    · rintro ((rfl | h) | ⟨bits, h⟩)
      · exact .inr ⟨e.2, by simp⟩
      · exact .inl h
      · exact .inr ⟨bits, List.mem_cons_of_mem _ h⟩
    · rintro (h | ⟨bits, h⟩)
      · exact .inl (.inr h)
      · rcases List.mem_cons.1 h with rfl | h
        · exact .inl (.inl rfl)
        · exact .inr ⟨bits, h⟩

theorem mem_assertAll {items : List (Nat × Bool × Bool)} {k : Nat} :
    k ∈ assertAll items ↔ ∃ bits, (k, bits) ∈ items := by
  rw [assertAll, mem_foldl_assert]
  simp

/-- Some service supplies every entry. -/
def Supplied (t : Table Nat (Bool × Bool)) : Prop :=
  ∀ k bits, t.lookup k = some bits → (bits.1 || bits.2) = true

theorem supplied_foldl_assert {items : List (Nat × Bool × Bool)} {t : Table Nat (Bool × Bool)}
    (hitems : ∀ e ∈ items, (e.2.1 || e.2.2) = true) (h : Supplied t) :
    Supplied (items.foldl (fun presence e => assert presence e.1 e.2) t) := by
  induction items generalizing t with
  | nil => exact h
  | cons e items ih =>
    refine ih (fun e' he' => hitems e' (List.mem_cons_of_mem _ he')) ?_
    intro k bits hl
    simp only [assert] at hl
    by_cases hk : k = e.1
    · subst hk
      rw [AList.lookup_insert] at hl
      cases hl
      have he := hitems e (by simp)
      simp only [Bool.or_eq_true] at he ⊢
      rcases he with he | he
      · simp [he]
      · simp [he]
    · rw [AList.lookup_insert_ne hk] at hl
      exact h k bits hl

theorem supplied_assertAll {items : List (Nat × Bool × Bool)}
    (hitems : ∀ e ∈ items, (e.2.1 || e.2.2) = true) : Supplied (assertAll items) :=
  supplied_foldl_assert hitems (by simp [Supplied])

theorem presenceOf_supplied {bits : Bool × Bool} (h : (bits.1 || bits.2) = true) :
    ∃ presence, presenceOf bits = some presence := by
  obtain ⟨l, p⟩ := bits
  cases l <;> cases p <;> simp [presenceOf] at h ⊢

end Presence

section Display

variable {u : Unicode} {db : Db} {services : List Nat} {file : Nat}

/-- A current mapping on a service in scope that the matchers let through. -/
def VisibleMapping (u : Unicode) (db : Db) (services : List Nat) (reject : Option RejectMatcher)
    (file tag : Nat) : Prop :=
  ∃ s row, db.mappings.lookup (file, tag, s) = some row ∧ row.status = .current ∧ s ∈ services ∧
    tagVisible (db.blockMatcher u) reject s file tag = true

theorem mem_rawPresence {tag : Nat} :
    tag ∈ db.rawPresence u services file ↔
      VisibleMapping u db services (some db.rejectMatcher) file tag := by
  rw [rawPresence, mem_assertAll]
  constructor
  · rintro ⟨bits, h⟩
    obtain ⟨⟨t, s⟩, hrow, heq⟩ := List.mem_map.1 h
    obtain ⟨⟨⟨f, t', s'⟩, row⟩, hmem, heq'⟩ := List.mem_map.1 hrow
    obtain ⟨hentry, hcond⟩ := List.mem_filter.1 hmem
    simp only [decide_eq_true_eq] at hcond
    obtain ⟨rfl, hstatus, hs, hvis⟩ := hcond
    cases heq'
    cases heq
    exact ⟨s', row, Table.mem_entries.1 hentry, hstatus, hs, hvis⟩
  · rintro ⟨s, row, hl, hstatus, hs, hvis⟩
    refine ⟨_, List.mem_map.2 ⟨(tag, s), List.mem_map.2 ⟨⟨(file, tag, s), row⟩, ?_, rfl⟩, rfl⟩⟩
    exact List.mem_filter.2 ⟨Table.mem_entries.2 hl, by simp [hstatus, hs, hvis]⟩

theorem supplied_rawPresence : Supplied (db.rawPresence u services file) := by
  refine supplied_assertAll ?_
  intro e he
  obtain ⟨r, _, rfl⟩ := List.mem_map.1 he
  by_cases hl : r.2 ∈ db.localServiceIds
  · simp [hl]
  · simp [hl]

/-- The branch that the source marks unreachable is. -/
theorem tagWithPresence_isSome {raw : Table Nat (Bool × Bool)} {siblings : SiblingEdges Nat}
    {id : Nat} (hraw : Supplied raw) (hne : ∃ k, k ∈ raw) (hid : id ∈ db.tags.ids) :
    ∃ t, db.tagWithPresence raw (effPresence siblings raw) id = some t ∧
      db.tags.valueOf id = some t.tag := by
  have heff : Supplied (effPresence siblings raw) := by
    refine supplied_assertAll ?_
    intro e he
    obtain ⟨e', he', rfl⟩ := List.mem_map.1 he
    exact hraw _ _ (Table.mem_entries.1 he')
  have hbits : ∀ bits, bits = ((effPresence siblings raw).lookup id).getD
      (raw.entries.any fun e => e.2.1, raw.entries.any fun e => e.2.2) →
      (bits.1 || bits.2) = true := by
    intro bits hbits
    cases hl : (effPresence siblings raw).lookup id with
    | some b =>
      rw [hl, Option.getD_some] at hbits
      rw [hbits]
      exact heff _ _ hl
    | none =>
      rw [hl, Option.getD_none] at hbits
      obtain ⟨k, hk⟩ := hne
      obtain ⟨b, hb⟩ := Option.isSome_iff_exists.1 (AList.lookup_isSome.2 hk)
      have hsup := hraw k b hb
      have hentry := Table.mem_entries.2 hb
      rw [hbits, Bool.or_eq_true]
      rcases Bool.or_eq_true_iff.1 hsup with h | h
      · exact .inl (List.any_eq_true.2 ⟨_, hentry, h⟩)
      · exact .inr (List.any_eq_true.2 ⟨_, hentry, h⟩)
  obtain ⟨presence, hp⟩ := presenceOf_supplied (hbits _ rfl)
  obtain ⟨tag, htag⟩ := IdTable.exists_valueOf hid
  exact ⟨⟨tag, presence⟩, by rw [tagWithPresence, hp, Option.bind_some, htag]; rfl, htag⟩

theorem mapM_isSome {α β : Type} {f : α → Option β} {l : List α}
    (h : ∀ a ∈ l, ∃ b, f a = some b) :
    ∃ bs, l.mapM f = some bs ∧ ∀ b, b ∈ bs ↔ ∃ a ∈ l, f a = some b := by
  induction l with
  | nil => exact ⟨[], rfl, by simp⟩
  | cons a l ih =>
    obtain ⟨b, hb⟩ := h a (by simp)
    obtain ⟨bs, hbs, hmem⟩ := ih fun a' ha' => h a' (List.mem_cons_of_mem _ ha')
    refine ⟨b :: bs, by simp [List.mapM_cons, hb, hbs], ?_⟩
    intro b'
    simp [hmem, hb, eq_comm]

/-- Every effective id of a file is in the dictionary. -/
theorem effective_mem_ids (hc : db.Constraints) {graph : RelationGraph Nat}
    (hs : EdgesKnown db graph.siblings) (hp : ParentsKnown db graph.parents) {id : Nat}
    (h : id ∈ effectiveTags (db.rawPresence u services file).keys graph.siblings graph.parents) :
    id ∈ db.tags.ids := by
  obtain ⟨t, ht, hpath⟩ := mem_effectiveTags.1 h
  induction hpath with
  | refl =>
    obtain ⟨s, row, hl, _⟩ := mem_rawPresence.1 (AList.mem_keys.2 ht)
    exact canonicalize_mem_ids hs (hc.mapping_tag _ _ _ _ hl)
  | tail _ hstep _ =>
    obtain ⟨ps, hps, p, hmem, rfl⟩ := mem_implied.1 hstep
    exact canonicalize_mem_ids hs (hp _ _ hps p hmem)

/-- A read shows the effective tags of the file's visible mappings, each with its text. -/
theorem displayTagsOf_spec (u : Unicode) (file : Nat) (hc : db.Constraints) {scope : ReadScope} {graph : RelationGraph Nat}
    (hg : db.relationGraph (db.includedServices scope) = some graph)
    (hs : EdgesKnown db graph.siblings) (hp : ParentsKnown db graph.parents) :
    ∃ shown, db.displayTagsOf u file scope = some shown ∧
      ∀ tag, (∃ d ∈ shown, d.tag = tag) ↔ ∃ id, db.tags.valueOf id = some tag ∧
        id ∈ effectiveTags (db.rawPresence u (db.includedServices scope) file).keys
          graph.siblings graph.parents := by
  have hsome : ∀ id ∈ (effectiveTags (db.rawPresence u (db.includedServices scope) file).keys
      graph.siblings graph.parents).sort (· ≤ ·), ∃ t, db.tagWithPresence
        (db.rawPresence u (db.includedServices scope) file) (effPresence graph.siblings
          (db.rawPresence u (db.includedServices scope) file)) id = some t ∧
        db.tags.valueOf id = some t.tag := by
    intro id hid
    have hid := (Finset.mem_sort _).1 hid
    have hne : ∃ k, k ∈ db.rawPresence u (db.includedServices scope) file := by
      obtain ⟨t, ht, _⟩ := mem_effectiveTags.1 hid
      exact ⟨t, AList.mem_keys.2 ht⟩
    exact tagWithPresence_isSome supplied_rawPresence hne (effective_mem_ids hc hs hp hid)
  obtain ⟨bs, hbs, hmem⟩ := mapM_isSome fun id hid => ⟨_, (hsome id hid).choose_spec.1⟩
  refine ⟨orderBy (fun t => toLex (t.tag.ns, t.tag.subtag)) bs, ?_, ?_⟩
  · rw [displayTagsOf, hg, Option.bind_some, hbs]
    rfl
  · intro tag
    simp only [mem_orderBy, hmem]
    constructor
    · rintro ⟨d, ⟨id, hid, hd⟩, rfl⟩
      obtain ⟨t, ht, hval⟩ := hsome id hid
      rw [hd, Option.some.injEq] at ht
      subst ht
      exact ⟨id, hval, (Finset.mem_sort _).1 hid⟩
    · rintro ⟨id, hval, hid⟩
      obtain ⟨t, ht, hval'⟩ := hsome id ((Finset.mem_sort _).2 hid)
      rw [hval, Option.some.injEq] at hval'
      exact ⟨t, ⟨id, (Finset.mem_sort _).2 hid, ht⟩, hval'.symm⟩

end Display

end Db
end Naiad
