import Naiad.Db.Locations
import Naiad.Lib.Segments

/-!
# Naiad.Db.Subtree

Which stored paths the subtree predicate selects. A path is compared byte by byte with the root and
one separator after it; beneath the root it lies component by component.

* `AbsPath`: the absolute paths of a Unix system in the spelling `std::path::absolute` gives.
* `within_of_subtreePredicate`: the predicate selects nothing outside the subtree.
* `subtreePredicate_exact_iff`: **the predicate selects exactly the subtree among the stored paths
  if and only if those beneath the root are spelled like it and it does not end in a separator**.
-/

namespace Naiad
namespace Db

open Lib

/-! ## Absolute paths -/

instance (sep : Byte) (s : List Byte) : Decidable (IsSegment sep s) :=
  decidable_of_iff (s ≠ [] ∧ sep ∉ s) ⟨fun h => ⟨h.1, h.2⟩, fun h => ⟨h.nonempty, h.clear⟩⟩

/-- A component between separators; `.` is none, `..` is. -/
abbrev Component := { c : List Byte // IsSegment separator c ∧ c ≠ [46] }

def component? (c : List Byte) : Option Component :=
  if h : IsSegment separator c ∧ c ≠ [46] then some ⟨c, h⟩ else none

/-- The spelling of an absolute path: two leading separators are kept, more are not, and one
trailing separator is kept. -/
@[ext] structure AbsPath where
  double : Bool
  comps : List Component
  trailing : Bool
  trailing_comps : trailing = true → comps ≠ []
deriving DecidableEq

namespace AbsPath

def names (p : AbsPath) : List (List Byte) := p.comps.map Subtype.val

/-- The filesystem root ends in a separator too. -/
def closing (p : AbsPath) : List Byte :=
  if p.comps = [] ∨ p.trailing = true then [separator] else []

def bytes (p : AbsPath) : Path :=
  (if p.double then [separator] else []) ++ (joinSegments separator p.names ++ p.closing)

def root : AbsPath := ⟨false, [], false, nofun⟩

def ofComponents (double : Bool) (comps : List Component) (trailing : Bool) : AbsPath :=
  ⟨double, comps, trailing && !comps.isEmpty, by
    intro h hnil
    rw [hnil] at h
    simp at h⟩

end AbsPath

/-- `Path::components`, the root aside. -/
def components (path : Path) : List Component := (segments separator path).filterMap component?

def startsDouble (path : Path) : Bool :=
  [separator, separator].isPrefixOf path && !([separator, separator, separator].isPrefixOf path)

/-- `std::path::absolute`, given the current directory. -/
def absolute (cwd : AbsPath) (path : Path) : Option AbsPath :=
  if path = [] then none
  else if path.head? = some separator then
    some (.ofComponents (startsDouble path) (components path) (path.getLast? = some separator))
  else
    some (.ofComponents cwd.double (cwd.comps ++ components path)
      (path.getLast? = some separator))

/-- At the root or beneath it, component by component. -/
def Within (root path : AbsPath) : Prop := root.comps <+: path.comps

namespace AbsPath

section

variable (p : AbsPath)

theorem isSegment_names : ∀ s ∈ p.names, IsSegment separator s := by
  intro s hs
  obtain ⟨c, _, rfl⟩ := List.mem_map.1 hs
  exact c.2.1

theorem closing_cases : p.closing = [] ∨ p.closing = [separator] := by
  unfold closing
  split
  · exact .inr rfl
  · exact .inl rfl

theorem closing_eq_sep : p.closing = [separator] ↔ p.comps = [] ∨ p.trailing = true := by
  unfold closing
  split
  · rename_i h
    exact iff_of_true rfl h
  · rename_i h
    exact iff_of_false nofun h

/-- After the first of two leading separators comes another path. -/
theorem head_bytes : ∃ rest, joinSegments separator p.names ++ p.closing = separator :: rest := by
  cases hcomps : p.comps with
  | nil => exact ⟨[], by simp [names, closing, hcomps, joinSegments]⟩
  | cons c comps => exact ⟨_, by simp only [names, hcomps, List.map_cons, joinSegments_cons]; rfl⟩

theorem getLast_bytes : p.bytes.getLast? = some separator ↔ p.closing = [separator] := by
  obtain ⟨rest, hrest⟩ := p.head_bytes
  have hskip : p.bytes.getLast? = (joinSegments separator p.names ++ p.closing).getLast? := by
    unfold bytes
    rw [hrest]
    cases p.double with
    | false => rfl
    | true => simp
  rw [hskip]
  rcases p.closing_cases with hnil | hsep
  · rw [hnil]
    simp [getLast_joinSegments_ne p.isSegment_names]
  · rw [hsep]
    simp

theorem filterMap_component (comps : List Component) :
    (comps.map Subtype.val).filterMap component? = comps := by
  rw [List.filterMap_map]
  have hself : component? ∘ Subtype.val = (some : Component → Option Component) := by
    funext c
    exact dif_pos c.2
  rw [hself, List.filterMap_some]

theorem components_bytes : components p.bytes = p.comps := by
  have hbody : segments separator (joinSegments separator p.names ++ p.closing) = p.names :=
    segments_joinSegments p.isSegment_names p.closing_cases
  have hbytes : segments separator p.bytes = p.names := by
    unfold bytes
    cases p.double with
    | false => exact hbody
    | true =>
      show segments separator (separator :: (joinSegments separator p.names ++ p.closing)) = _
      rw [segments_sep_cons, hbody]
  rw [components, hbytes, names, filterMap_component]

theorem startsDouble_bytes : startsDouble p.bytes = p.double := by
  obtain ⟨rest, hrest⟩ := p.head_bytes
  have hnext : ∀ x, ¬(separator :: separator :: x) <+: (joinSegments separator p.names ++ p.closing) :=
    fun x => not_starts_sep_sep p.isSegment_names p.closing_cases
  unfold startsDouble bytes
  cases p.double with
  | false =>
    have hno : [separator, separator].isPrefixOf
        (joinSegments separator p.names ++ p.closing) = false := by
      rw [Bool.eq_false_iff]
      exact fun h => hnext [] (List.isPrefixOf_iff_prefix.1 h)
    simp [hno]
  | true =>
    have hno : [separator, separator].isPrefixOf
        (joinSegments separator p.names ++ p.closing) = false := by
      rw [Bool.eq_false_iff]
      exact fun h => hnext [] (List.isPrefixOf_iff_prefix.1 h)
    have hyes : [separator].isPrefixOf (joinSegments separator p.names ++ p.closing) = true := by
      rw [hrest]
      rfl
    have htwo : [separator, separator].isPrefixOf
        (separator :: (joinSegments separator p.names ++ p.closing)) = true := hyes
    have hthree : [separator, separator, separator].isPrefixOf
        (separator :: (joinSegments separator p.names ++ p.closing)) = false := hno
    show ([separator, separator].isPrefixOf
        (separator :: (joinSegments separator p.names ++ p.closing)) &&
      !([separator, separator, separator].isPrefixOf
        (separator :: (joinSegments separator p.names ++ p.closing)))) = true
    rw [htwo, hthree]
    rfl

/-- Every spelling is one that `absolute` gives, and `absolute` leaves it as it is. -/
theorem absolute_bytes (cwd : AbsPath) : absolute cwd p.bytes = some p := by
  obtain ⟨rest, hrest⟩ := p.head_bytes
  have hstart : ∃ tail, p.bytes = separator :: tail := by
    unfold bytes
    rw [hrest]
    cases p.double with
    | false => exact ⟨_, rfl⟩
    | true => exact ⟨_, rfl⟩
  obtain ⟨tail, htail⟩ := hstart
  have hhead : p.bytes.head? = some separator := by rw [htail]; rfl
  have hne : p.bytes ≠ [] := by rw [htail]; nofun
  have htrailing : (decide (p.bytes.getLast? = some separator) && !p.comps.isEmpty) = p.trailing := by
    rw [Bool.eq_iff_iff, Bool.and_eq_true, decide_eq_true_iff, getLast_bytes, closing_eq_sep]
    have hcomps := p.trailing_comps
    constructor
    · rintro ⟨hnil | ht, hsome⟩
      · simp [hnil] at hsome
      · exact ht
    · intro ht
      exact ⟨.inr ht, by simpa using hcomps ht⟩
  unfold absolute
  rw [if_neg hne, if_pos hhead, startsDouble_bytes, components_bytes, ofComponents]
  simp only [htrailing]

theorem bytes_inj {p q : AbsPath} : p.bytes = q.bytes ↔ p = q := by
  constructor
  · intro h
    have hp := absolute_bytes p root
    rw [h, absolute_bytes] at hp
    exact (Option.some.inj hp).symm
  · rintro rfl
    rfl

theorem names_eq_append {p r : AbsPath} {rest : List (List Byte)} (h : p.names = r.names ++ rest) :
    ∃ added, p.comps = r.comps ++ added ∧ added.map Subtype.val = rest := by
  obtain ⟨first, added, hcomps, hfirst, hadded⟩ := List.map_eq_append_iff.1 h
  have hsame : first = r.comps := List.map_injective_iff.2 Subtype.val_injective hfirst
  exact ⟨added, by rw [hcomps, hsame], hadded⟩

end

/-! ## The byte comparison -/

section

variable {r p : AbsPath}

theorem prefix_of_same_start (h : r.double = p.double) :
    (r.bytes ++ [separator]) <+: p.bytes ↔
      r.closing = [] ∧ ∃ added, p.comps = r.comps ++ added ∧
        (added ≠ [] ∨ p.closing = [separator]) := by
  unfold bytes
  rw [h, List.append_assoc, List.prefix_append_right_inj, List.append_assoc]
  rcases r.closing_cases with hopen | hclosed
  · rw [hopen, List.nil_append, prefix_joinSegments r.isSegment_names p.isSegment_names p.closing_cases]
    constructor
    · rintro ⟨rest, hrest, hsep⟩
      obtain ⟨added, hadded, rfl⟩ := names_eq_append hrest
      have hnext := (starts_sep p.closing_cases).1 hsep
      rw [ne_eq, List.map_eq_nil_iff] at hnext
      exact ⟨rfl, added, hadded, hnext⟩
    · rintro ⟨-, added, hadded, hsep⟩
      refine ⟨added.map Subtype.val, by simp [names, hadded], (starts_sep p.closing_cases).2 ?_⟩
      rw [ne_eq, List.map_eq_nil_iff]
      exact hsep
  · rw [hclosed]
    refine iff_of_false ?_ (by simp)
    intro hprefix
    obtain ⟨rest, hrest, hsep⟩ :=
      (prefix_joinSegments (x := [separator]) r.isSegment_names p.isSegment_names
        p.closing_cases).1 hprefix
    refine not_starts_sep_sep (x := []) ?_ p.closing_cases hsep
    intro s hs
    exact p.isSegment_names s (by rw [hrest]; exact List.mem_append_right _ hs)

theorem not_prefix_of_double (hr : r.double = true) (hp : p.double = false) :
    ¬(r.bytes ++ [separator]) <+: p.bytes := by
  obtain ⟨rest, hrest⟩ := r.head_bytes
  unfold bytes
  rw [hr, hp, hrest]
  exact not_starts_sep_sep p.isSegment_names p.closing_cases

theorem prefix_of_single (hr : r.double = false) (hp : p.double = true) :
    (r.bytes ++ [separator]) <+: p.bytes ↔ r.comps = [] := by
  obtain ⟨rest, hrest⟩ := p.head_bytes
  unfold bytes
  rw [hr, hp, hrest]
  cases hcomps : r.comps with
  | nil => simp [names, closing, hcomps, joinSegments]
  | cons c comps =>
    refine iff_of_false ?_ (by simp)
    obtain ⟨b, tail, hb⟩ := List.exists_cons_of_ne_nil c.2.1.nonempty
    have hne : b ≠ separator := fun h => c.2.1.clear (by rw [hb, h]; simp)
    simp [names, hcomps, joinSegments_cons, hb, hne]

end

end AbsPath

/-! ## The subtree -/

section

open AbsPath

variable {root p : AbsPath}

/-- What is selected starts with the root component by component, whatever the spelling. -/
theorem within_of_subtreePredicate (h : subtreePredicate root.bytes p.bytes = true) :
    Within root p := by
  rcases subtreePredicate_iff.1 h with heq | hprefix
  · rw [bytes_inj.1 heq]
    exact List.prefix_rfl
  · cases hr : root.double with
    | true =>
      cases hp : p.double with
      | true =>
        obtain ⟨_, added, hadded, _⟩ := (prefix_of_same_start (hr.trans hp.symm)).1 hprefix
        exact ⟨added, hadded.symm⟩
      | false => exact absurd hprefix (not_prefix_of_double hr hp)
    | false =>
      cases hp : p.double with
      | true =>
        rw [Within, (prefix_of_single hr hp).1 hprefix]
        exact List.nil_prefix
      | false =>
        obtain ⟨_, added, hadded, _⟩ := (prefix_of_same_start (hr.trans hp.symm)).1 hprefix
        exact ⟨added, hadded.symm⟩

theorem eq_root_iff (hdouble : root.double = false) : root = .root ↔ root.comps = [] := by
  constructor
  · rintro rfl
    rfl
  · intro hnil
    have htrailing : root.trailing = false := by
      rw [Bool.eq_false_iff]
      exact fun h => root.trailing_comps h hnil
    exact AbsPath.ext hdouble hnil htrailing

/-- Paths with the same start and components differ in the closing separator alone. -/
theorem eq_of_closing (hdouble : root.double = p.double) (hcomps : p.comps = root.comps)
    (hroot : root.closing = []) (hp : p.closing = []) : p = root := by
  have htrailing : ∀ q : AbsPath, q.closing = [] → q.trailing = false := by
    intro q hq
    rw [Bool.eq_false_iff]
    intro h
    have hsep := q.closing_eq_sep.2 (.inr h)
    rw [hq] at hsep
    cases hsep
  exact AbsPath.ext hdouble.symm hcomps ((htrailing p hp).trans (htrailing root hroot).symm)

theorem prefix_of_within (h : Within root p) (hne : p ≠ root) (hdouble : root.double = p.double) :
    (root.bytes ++ [separator]) <+: p.bytes ↔ root.closing = [] := by
  rw [prefix_of_same_start hdouble, and_iff_left_iff_imp]
  intro hroot
  obtain ⟨added, hadded⟩ := h
  refine ⟨added, hadded.symm, ?_⟩
  by_cases hnil : added = []
  · right
    rcases p.closing_cases with hp | hp
    · rw [hnil, List.append_nil] at hadded
      exact absurd (eq_of_closing hdouble hadded.symm hroot hp) hne
    · exact hp
  · exact .inl hnil

/-- A path of the subtree is selected just where its spelling continues that of the root. -/
theorem subtreePredicate_of_within (h : Within root p) :
    subtreePredicate root.bytes p.bytes = true ↔
      p = root ∨ (root.bytes.getLast? ≠ some separator ∧ root.double = p.double) ∨
        (root = .root ∧ p.double = true) := by
  rw [subtreePredicate_iff, bytes_inj, ne_eq, getLast_bytes]
  by_cases heq : p = root
  · exact iff_of_true (.inl heq) (.inl heq)
  rw [or_iff_right heq, or_iff_right heq]
  have hopen : ¬root.closing = [separator] ↔ root.closing = [] := by
    rcases root.closing_cases with hnil | hsep
    · simp [hnil]
    · simp [hsep]
  rw [hopen]
  by_cases hsame : root.double = p.double
  · have hother : ¬(root = .root ∧ p.double = true) := by
      rintro ⟨rfl, hp⟩
      cases hsame.trans hp
    rw [prefix_of_within h heq hsame, and_iff_left hsame, or_iff_left hother]
  · rw [or_iff_right fun hand => hsame hand.2]
    cases hr : root.double with
    | true =>
      have hp : p.double = false := by simpa [hr] using hsame
      refine iff_of_false (not_prefix_of_double hr hp) ?_
      rintro ⟨rfl, _⟩
      cases hr
    | false =>
      have hp : p.double = true := by simpa [hr] using hsame
      rw [prefix_of_single hr hp, eq_root_iff hr, and_iff_left hp]

end

/-- **Among the stored paths the predicate selects exactly those at the root or beneath it,
component by component, if and only if each of these is the root, or the root does not end in a
separator and the path starts with as many separators, or the root is `/` and the path starts with
two.** -/
theorem subtreePredicate_exact_iff (root : AbsPath) (stored : Set AbsPath) :
    (∀ p ∈ stored, (subtreePredicate root.bytes p.bytes = true ↔ Within root p)) ↔
      ∀ p ∈ stored, Within root p →
        p = root ∨ (root.bytes.getLast? ≠ some separator ∧ root.double = p.double) ∨
          (root = .root ∧ p.double = true) := by
  refine forall₂_congr fun p _ => ?_
  constructor
  · intro h hwithin
    exact (subtreePredicate_of_within hwithin).1 (h.2 hwithin)
  · intro h
    exact ⟨within_of_subtreePredicate, fun hwithin =>
      (subtreePredicate_of_within hwithin).2 (h hwithin)⟩

/-- `/a/` -/
def folder : AbsPath := ⟨false, [⟨[97], by decide⟩], true, by decide⟩

/-- `/a/b` -/
def folderFile : AbsPath := ⟨false, [⟨[97], by decide⟩, ⟨[98], by decide⟩], false, nofun⟩

/-- A file is not selected beneath its folder spelled with a separator at the end, nor beneath the
filesystem root. -/
theorem subtreePredicate_trailing :
    absolute .root [47, 97, 47] = some folder ∧ absolute .root [47] = some .root ∧
      absolute .root [47, 97, 47, 98] = some folderFile ∧
      (Within folder folderFile ∧ subtreePredicate folder.bytes folderFile.bytes = false) ∧
      (Within .root folderFile ∧ subtreePredicate AbsPath.root.bytes folderFile.bytes = false) ∧
      ¬∀ (root : AbsPath) (stored : Set AbsPath),
        ∀ p ∈ stored, (subtreePredicate root.bytes p.bytes = true ↔ Within root p) := by
  have hwithin : Within folder folderFile := by
    rw [Within]
    decide
  have hnot : subtreePredicate folder.bytes folderFile.bytes = false := by decide
  refine ⟨by decide, by decide, by decide, ⟨hwithin, hnot⟩, ⟨List.nil_prefix, by decide⟩, ?_⟩
  intro h
  have hsel := (h folder {folderFile} folderFile rfl).2 hwithin
  rw [hnot] at hsel
  cases hsel

end Db
end Naiad
