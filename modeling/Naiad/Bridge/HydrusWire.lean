import Naiad.Bridge.Sync
import Naiad.Lib.Fallible
import Naiad.Lib.Gather
import Naiad.Lib.JsonValue

/-!
# Naiad.Bridge.HydrusWire

The update files of the upstream: compressed JSON of nested arrays, read with no schema.

* `DefinitionsOf`, `ContentOf`: what a payload says, level by level.
* `decodeUpdate_iff`: a file is decoded to what it says, and to nothing where any part of a
  section of a known kind is malformed.
-/

namespace Naiad
namespace Bridge
namespace HydrusWire

open Lib Lib.Json

def typeContentUpdate : Int := 34

def typeDefinitionsUpdate : Int := 36

def definitionsTypeHashes : Int := 0

def definitionsTypeTags : Int := 1

def contentTypeMappings : Int := 0

def contentTypeSiblings : Int := 1

def contentTypeParents : Int := 2

def actionAdd : Int := 0

def actionDelete : Int := 1

structure SkipCounts where
  unknownContentType : Nat := 0
  unknownDefKind : Nat := 0
deriving DecidableEq

structure DefinitionsUpdate extends Bridge.DefinitionsUpdate where
  unknownDefKind : Nat
deriving DecidableEq

structure ContentUpdate extends Bridge.ContentUpdate where
  skips : SkipCounts
deriving DecidableEq

inductive Update
  | definitions (d : DefinitionsUpdate)
  | content (c : ContentUpdate)
deriving DecidableEq

/-- What a pass of the bridge takes from a decoded file. -/
def Update.applied : Update → Bridge.Update
  | .definitions d => .definitions d.toDefinitionsUpdate
  | .content c => .content c.toContentUpdate

/-! ## The decoder -/

/-- `ok_or_else` -/
def okOr {A : Type} (o : Option A) (msg : String) : Except String A :=
  match o with
  | some a => .ok a
  | none => .error msg

/-- A section, a block or an action group: an array of a key and the items under it. -/
def keyed (notArray noKey noItems : String) (v : Value) : Except String (Int × List Value) := do
  let s ← okOr v.asArray notArray
  let key ← okOr (s[0]?.bind Value.asEnumI64) noKey
  let items ← okOr (s[1]?.bind Value.asArray) noItems
  return (key, items)

def decodePair (pair : Value) : Except String (Nat × String) := do
  let p ← okOr pair.asArray "definitions pair not an array"
  let id ← okOr (p[0]?.bind Value.asU64) "definitions id"
  let sVal ← okOr (p[1]?.bind Value.asStr) "definitions string"
  return (id, sVal)

def pushPair (kind : Int) (d : DefinitionsUpdate) (pair : Value) :
    Except String DefinitionsUpdate := do
  let row ← decodePair pair
  if kind = definitionsTypeHashes then return { d with hashes := d.hashes ++ [row] }
  else return { d with tags := d.tags ++ [row] }

def decodeSection (d : DefinitionsUpdate) (v : Value) : Except String DefinitionsUpdate := do
  let (kind, pairs) ←
    keyed "definitions section not an array" "definitions section kind" "definitions pairs" v
  if kind ≠ definitionsTypeHashes ∧ kind ≠ definitionsTypeTags then
    return { d with unknownDefKind := d.unknownDefKind + pairs.length }
  else pairs.foldlM (pushPair kind) d

def decodeDefinitions (info : Value) : Except String DefinitionsUpdate := do
  let sections ← okOr info.asArray "definitions info not an array"
  sections.foldlM decodeSection ⟨⟨[], []⟩, 0⟩

def decodeMapping (act : UpdateAction) (row : Value) : Except String MappingUpdate := do
  let r ← okOr row.asArray "mappings row not an array"
  let tagId ← okOr (r[0]?.bind Value.asU64) "mappings tag_id"
  let ids ← okOr (r[1]?.bind Value.asArray) "mappings hash_ids"
  let hashIds ← ids.mapM fun h => okOr h.asU64 "hash id not u64"
  return ⟨tagId, hashIds, act⟩

def decodeRelation (act : UpdateAction) (row : Value) : Except String RelationUpdate := do
  let r ← okOr row.asArray "relation row not an array"
  let fromId ← okOr (r[0]?.bind Value.asU64) "relation from_tag_id"
  let toId ← okOr (r[1]?.bind Value.asU64) "relation to_tag_id"
  return ⟨fromId, toId, act⟩

def decodeAction (action : Int) : Except String UpdateAction :=
  if action = actionAdd then .ok .add
  else if action = actionDelete then .ok .delete
  else .error s!"unexpected content action {action} in a server ContentUpdate"

def pushRow (contentType : Int) (act : UpdateAction) (c : ContentUpdate) (row : Value) :
    Except String ContentUpdate :=
  if contentType = contentTypeMappings then do
    let m ← decodeMapping act row
    return { c with mappings := c.mappings ++ [m] }
  else do
    let rel ← decodeRelation act row
    if contentType = contentTypeSiblings then return { c with siblings := c.siblings ++ [rel] }
    else return { c with parents := c.parents ++ [rel] }

def knownContentType (contentType : Int) : Prop :=
  contentType = contentTypeMappings ∨ contentType = contentTypeSiblings ∨
    contentType = contentTypeParents

instance : DecidablePred knownContentType := fun _ => inferInstanceAs (Decidable (_ ∨ _ ∨ _))

def decodeGroup (contentType : Int) (c : ContentUpdate) (v : Value) :
    Except String ContentUpdate := do
  let (action, rows) ← keyed "action group not an array" "action" "rows" v
  if ¬knownContentType contentType then
    let unknown := c.skips.unknownContentType + rows.length
    return { c with skips := { c.skips with unknownContentType := unknown } }
  else
    let act ← decodeAction action
    rows.foldlM (pushRow contentType act) c

def decodeBlock (c : ContentUpdate) (v : Value) : Except String ContentUpdate := do
  let (contentType, groups) ←
    keyed "content block not an array" "content_type" "action groups" v
  groups.foldlM (decodeGroup contentType) c

def decodeContent (info : Value) : Except String ContentUpdate := do
  let blocks ← okOr info.asArray "content info not an array"
  blocks.foldlM decodeBlock ⟨⟨[], [], []⟩, {}⟩

def decodeRoot (root : Value) : Except String Update := do
  let arr ← okOr root.asArray "update envelope is not an array"
  let ty ← okOr (arr[0]?.bind Value.asI64) "missing type"
  let info ← okOr arr[2]? "missing info payload"
  if ty = typeDefinitionsUpdate then return .definitions (← decodeDefinitions info)
  else if ty = typeContentUpdate then return .content (← decodeContent info)
  else
    .error s!"unsupported Hydrus update type {ty} (v1 handles 34 content, 36 definitions)"

/-- `inflate` and `fromSlice` are the decompressor and the JSON parser. -/
def decodeUpdate (inflate : List UInt8 → Except String (List UInt8))
    (fromSlice : List UInt8 → Except String Value) (bytes : List UInt8) :
    Except String Update := do
  let json ← inflate bytes
  let root ← fromSlice json
  decodeRoot root

/-! ## What a file says -/

/-- `v` is an array of a key and the items under it; more elements do no harm. -/
def Keyed (v : Value) (key : Int) (items : List Value) : Prop :=
  ∃ k rest, v = .array (k :: .array items :: rest) ∧ k.IsEnum key

def PairOf (pair : Value) (row : Nat × String) : Prop :=
  ∃ id rest, pair = .array (id :: .string row.2 :: rest) ∧ id.IsU64 row.1

/-- The definitions that the pairs `rows` hold, each with the kind of its section. -/
structure Defines (rows : List (Int × Value)) (d : DefinitionsUpdate) : Prop where
  hashes : List.Forall₂ PairOf ((rows.filter (·.1 = definitionsTypeHashes)).map Prod.snd) d.hashes
  tags : List.Forall₂ PairOf ((rows.filter (·.1 = definitionsTypeTags)).map Prod.snd) d.tags
  unknown : d.unknownDefKind =
    (rows.filter fun r => r.1 ≠ definitionsTypeHashes ∧ r.1 ≠ definitionsTypeTags).length

/-- A section as it stands in the file: its kind and its pairs. -/
abbrev Section := Int × List Value

def Section.rows (s : Section) : List (Int × Value) := s.2.map fun pair => (s.1, pair)

def DefinitionsOf (info : Value) (d : DefinitionsUpdate) : Prop :=
  ∃ values, info = .array values ∧
    ∃ sections : List Section, List.Forall₂ (fun v s => Keyed v s.1 s.2) values sections ∧
      Defines (sections.flatMap Section.rows) d

def codeOf : UpdateAction → Int
  | .add => actionAdd
  | .delete => actionDelete

/-- A row of mappings under the action of its group. -/
def MappingOf (row : Int × Value) (m : MappingUpdate) : Prop :=
  row.1 = codeOf m.action ∧
    ∃ id ids rest, row.2 = .array (id :: .array ids :: rest) ∧ id.IsU64 m.tagId ∧
      List.Forall₂ Value.IsU64 ids m.hashIds

def RelationOf (row : Int × Value) (rel : RelationUpdate) : Prop :=
  row.1 = codeOf rel.action ∧
    ∃ a b rest, row.2 = .array (a :: b :: rest) ∧ a.IsU64 rel.fromId ∧ b.IsU64 rel.toId

/-- The rows of one content type, in document order, with their actions. -/
def rowsOf (contentType : Int) (rows : List (Int × Int × Value)) : List (Int × Value) :=
  (rows.filter (·.1 = contentType)).map Prod.snd

/-- The content that `rows` hold, each row with the type of its block and the action of its
group. -/
structure Tells (rows : List (Int × Int × Value)) (c : ContentUpdate) : Prop where
  mappings : List.Forall₂ MappingOf (rowsOf contentTypeMappings rows) c.mappings
  siblings : List.Forall₂ RelationOf (rowsOf contentTypeSiblings rows) c.siblings
  parents : List.Forall₂ RelationOf (rowsOf contentTypeParents rows) c.parents
  unknownType : c.skips.unknownContentType = (rows.filter fun r => ¬knownContentType r.1).length
  unknownKind : c.skips.unknownDefKind = 0

/-- An action group as it stands in the file: its action and its rows. -/
abbrev Group := Int × List Value

/-- A block: its content type and its groups. -/
abbrev Block := Int × List Group

def Block.rows (b : Block) : List (Int × Int × Value) :=
  b.2.flatMap fun g => g.2.map fun row => (b.1, g.1, row)

/-- A group of a known content type adds or deletes. -/
def GroupOf (contentType : Int) (v : Value) (g : Group) : Prop :=
  Keyed v g.1 g.2 ∧ (knownContentType contentType → ∃ act, g.1 = codeOf act)

def BlockOf (v : Value) (b : Block) : Prop :=
  ∃ groups, Keyed v b.1 groups ∧ List.Forall₂ (GroupOf b.1) groups b.2

def ContentOf (info : Value) (c : ContentUpdate) : Prop :=
  ∃ values, info = .array values ∧
    ∃ blocks : List Block, List.Forall₂ BlockOf values blocks ∧ Tells (blocks.flatMap Block.rows) c

inductive RootOf : Value → Update → Prop
  | definitions {ty version info : Value} {rest : List Value} {d : DefinitionsUpdate} :
      ty.IsI64 typeDefinitionsUpdate → DefinitionsOf info d →
      RootOf (.array (ty :: version :: info :: rest)) (.definitions d)
  | content {ty version info : Value} {rest : List Value} {c : ContentUpdate} :
      ty.IsI64 typeContentUpdate → ContentOf info c →
      RootOf (.array (ty :: version :: info :: rest)) (.content c)

/-- A part of a section of a known kind that cannot be read: a pair, an action or a row. -/
inductive Malformed : Value → Prop
  | pair {ty version v pair : Value} {values rest pairs : List Value} {kind : Int} :
      ty.IsI64 typeDefinitionsUpdate → v ∈ values → Keyed v kind pairs →
      kind = definitionsTypeHashes ∨ kind = definitionsTypeTags →
      pair ∈ pairs → (∀ row, ¬PairOf pair row) →
      Malformed (.array (ty :: version :: .array values :: rest))
  | action {ty version v w : Value} {values rest groups rows : List Value}
      {contentType action : Int} :
      ty.IsI64 typeContentUpdate → v ∈ values → Keyed v contentType groups →
      knownContentType contentType →
      w ∈ groups → Keyed w action rows → (∀ act, action ≠ codeOf act) →
      Malformed (.array (ty :: version :: .array values :: rest))
  | mapping {ty version v w row : Value} {values rest groups rows : List Value} {action : Int} :
      ty.IsI64 typeContentUpdate → v ∈ values → Keyed v contentTypeMappings groups →
      w ∈ groups → Keyed w action rows → row ∈ rows → (∀ m, ¬MappingOf (action, row) m) →
      Malformed (.array (ty :: version :: .array values :: rest))
  | relation {ty version v w row : Value} {values rest groups rows : List Value}
      {contentType action : Int} :
      ty.IsI64 typeContentUpdate → v ∈ values → Keyed v contentType groups →
      contentType = contentTypeSiblings ∨ contentType = contentTypeParents →
      w ∈ groups → Keyed w action rows → row ∈ rows → (∀ rel, ¬RelationOf (action, row) rel) →
      Malformed (.array (ty :: version :: .array values :: rest))

/-! ## One element -/

@[simp] theorem okOr_eq_ok {A : Type} {o : Option A} {msg : String} {a : A} :
    okOr o msg = .ok a ↔ o = some a := by
  cases o <;> simp [okOr]

theorem keyed_eq_ok {notArray noKey noItems : String} {v : Value} {g : Int × List Value} :
    keyed notArray noKey noItems v = .ok g ↔ Keyed v g.1 g.2 := by
  simp only [keyed, bind_eq_ok, okOr_eq_ok, pure_eq_ok, Option.bind_eq_some_iff,
    Value.asArray_eq_some, Value.asEnumI64_eq_some]
  constructor
  · rintro ⟨s, rfl, key, ⟨k, hk, hkey⟩, items, ⟨w, hw, rfl⟩, rfl⟩
    match s, hk, hw with
    | _ :: _ :: rest, hk, hw =>
      cases hk
      cases hw
      exact ⟨k, rest, rfl, hkey⟩
  · rintro ⟨k, rest, rfl, hkey⟩
    exact ⟨_, rfl, g.1, ⟨k, rfl, hkey⟩, g.2, ⟨_, rfl, rfl⟩, rfl⟩

theorem decodePair_eq_ok {pair : Value} {row : Nat × String} :
    decodePair pair = .ok row ↔ PairOf pair row := by
  simp only [decodePair, bind_eq_ok, okOr_eq_ok, pure_eq_ok, Option.bind_eq_some_iff,
    Value.asArray_eq_some, Value.asU64_eq_some, Value.asStr_eq_some]
  constructor
  · rintro ⟨p, rfl, n, ⟨id, hid, hn⟩, sVal, ⟨w, hw, rfl⟩, rfl⟩
    match p, hid, hw with
    | _ :: _ :: rest, hid, hw =>
      cases hid
      cases hw
      exact ⟨id, rest, rfl, hn⟩
  · rintro ⟨id, rest, rfl, hn⟩
    exact ⟨_, rfl, row.1, ⟨id, rfl, hn⟩, row.2, ⟨_, rfl, rfl⟩, rfl⟩

theorem codeOf_inj {x y : UpdateAction} (h : codeOf x = codeOf y) : x = y := by
  cases x <;> cases y <;> simp_all [codeOf, actionAdd, actionDelete]

theorem decodeAction_eq_ok {action : Int} {act : UpdateAction} :
    decodeAction action = .ok act ↔ action = codeOf act := by
  unfold decodeAction
  cases act with
  | add =>
    split
    · simp [codeOf, *]
    · split
      · simp [codeOf, *, actionAdd, actionDelete]
      · simp [codeOf, *]
  | delete =>
    split
    · simp [codeOf, *, actionAdd, actionDelete]
    · split
      · simp [codeOf, *]
      · simp [codeOf, *]

theorem decodeMapping_eq_ok {a : Int} {act : UpdateAction} (ha : a = codeOf act) {row : Value}
    {m : MappingUpdate} : decodeMapping act row = .ok m ↔ MappingOf (a, row) m := by
  simp only [decodeMapping, bind_eq_ok, okOr_eq_ok, pure_eq_ok, Option.bind_eq_some_iff,
    Value.asArray_eq_some, Value.asU64_eq_some, mapM_eq_ok_iff]
  constructor
  · rintro ⟨r, rfl, n, ⟨id, hid, hn⟩, ids, ⟨w, hw, rfl⟩, hashIds, hhash, rfl⟩
    match r, hid, hw with
    | _ :: _ :: rest, hid, hw =>
      cases hid
      cases hw
      exact ⟨ha, id, ids, rest, rfl, hn, hhash⟩
  · rintro ⟨hact, id, ids, rest, rfl, hn, hhash⟩
    obtain rfl := codeOf_inj (ha.symm.trans hact)
    exact ⟨_, rfl, m.tagId, ⟨id, rfl, hn⟩, ids, ⟨_, rfl, rfl⟩, m.hashIds, hhash, rfl⟩

theorem decodeRelation_eq_ok {a : Int} {act : UpdateAction} (ha : a = codeOf act) {row : Value}
    {rel : RelationUpdate} : decodeRelation act row = .ok rel ↔ RelationOf (a, row) rel := by
  simp only [decodeRelation, bind_eq_ok, okOr_eq_ok, pure_eq_ok, Option.bind_eq_some_iff,
    Value.asArray_eq_some, Value.asU64_eq_some]
  constructor
  · rintro ⟨r, rfl, n, ⟨x, hx, hn⟩, n', ⟨y, hy, hn'⟩, rfl⟩
    match r, hx, hy with
    | _ :: _ :: rest, hx, hy =>
      cases hx
      cases hy
      exact ⟨ha, x, y, rest, rfl, hn, hn'⟩
  · rintro ⟨hact, x, y, rest, rfl, hn, hn'⟩
    obtain rfl := codeOf_inj (ha.symm.trans hact)
    exact ⟨_, rfl, rel.fromId, ⟨x, rfl, hn⟩, rel.toId, ⟨y, rfl, hn'⟩, rfl⟩

/-! ## Definitions -/

instance : Zero DefinitionsUpdate := ⟨⟨⟨[], []⟩, 0⟩⟩

instance : Add DefinitionsUpdate :=
  ⟨fun a b => ⟨⟨a.hashes ++ b.hashes, a.tags ++ b.tags⟩, a.unknownDefKind + b.unknownDefKind⟩⟩

theorem DefinitionsUpdate.add_def (a b : DefinitionsUpdate) :
    a + b = ⟨⟨a.hashes ++ b.hashes, a.tags ++ b.tags⟩, a.unknownDefKind + b.unknownDefKind⟩ := rfl

theorem DefinitionsUpdate.zero_def : (0 : DefinitionsUpdate) = ⟨⟨[], []⟩, 0⟩ := rfl

instance : AddMonoid DefinitionsUpdate where
  add_assoc a b c := by simp [DefinitionsUpdate.add_def, Nat.add_assoc]
  zero_add a := by simp [DefinitionsUpdate.add_def, DefinitionsUpdate.zero_def]
  add_zero a := by simp [DefinitionsUpdate.add_def, DefinitionsUpdate.zero_def]
  nsmul := nsmulRec

theorem defines : Gathers Defines where
  nil d := by
    constructor
    · rintro ⟨hhashes, htags, hunknown⟩
      obtain ⟨⟨hashes, tags⟩, unknown⟩ := d
      cases hhashes
      cases htags
      cases hunknown
      rfl
    · rintro rfl
      exact ⟨.nil, .nil, rfl⟩
  append xs ys d := by
    constructor
    · rintro ⟨hhashes, htags, hunknown⟩
      rw [List.filter_append, List.map_append, forall₂_append_iff] at hhashes htags
      rw [List.filter_append, List.length_append] at hunknown
      obtain ⟨⟨hashes, tags⟩, unknown⟩ := d
      obtain ⟨hashes₁, hashes₂, h₁, h₂, rfl⟩ := hhashes
      obtain ⟨tags₁, tags₂, t₁, t₂, rfl⟩ := htags
      cases hunknown
      exact ⟨⟨⟨hashes₁, tags₁⟩, _⟩, ⟨⟨hashes₂, tags₂⟩, _⟩, ⟨h₁, t₁, rfl⟩, ⟨h₂, t₂, rfl⟩, rfl⟩
    · rintro ⟨d₁, d₂, ⟨h₁, t₁, u₁⟩, ⟨h₂, t₂, u₂⟩, rfl⟩
      constructor
      · rw [List.filter_append, List.map_append, forall₂_append_iff]
        exact ⟨_, _, h₁, h₂, rfl⟩
      · rw [List.filter_append, List.map_append, forall₂_append_iff]
        exact ⟨_, _, t₁, t₂, rfl⟩
      · rw [List.filter_append, List.length_append, ← u₁, ← u₂]
        rfl

theorem pushPair_eq_ok {kind : Int} (hkind : kind = definitionsTypeHashes ∨ kind = definitionsTypeTags)
    {d d' : DefinitionsUpdate} {pair : Value} :
    pushPair kind d pair = .ok d' ↔ ∃ e, Defines [(kind, pair)] e ∧ d' = d + e := by
  simp only [pushPair, bind_eq_ok, decodePair_eq_ok]
  rcases hkind with rfl | rfl
  · constructor
    · rintro ⟨row, hrow, h⟩
      rw [if_pos rfl, pure_eq_ok] at h
      subst h
      exact ⟨⟨⟨[row], []⟩, 0⟩, ⟨.cons hrow .nil, .nil, rfl⟩, by simp [DefinitionsUpdate.add_def]⟩
    · rintro ⟨e, ⟨hhashes, htags, hunknown⟩, rfl⟩
      obtain ⟨⟨hashes, tags⟩, unknown⟩ := e
      cases hhashes with
      | cons hrow hnil =>
        cases hnil
        cases htags
        cases hunknown
        exact ⟨_, hrow, by simp [pure, Except.pure, DefinitionsUpdate.add_def]⟩
  · constructor
    · rintro ⟨row, hrow, h⟩
      rw [if_neg (by decide), pure_eq_ok] at h
      subst h
      exact ⟨⟨⟨[], [row]⟩, 0⟩, ⟨.nil, .cons hrow .nil, rfl⟩, by simp [DefinitionsUpdate.add_def]⟩
    · rintro ⟨e, ⟨hhashes, htags, hunknown⟩, rfl⟩
      obtain ⟨⟨hashes, tags⟩, unknown⟩ := e
      cases htags with
      | cons hrow hnil =>
        cases hnil
        cases hhashes
        cases hunknown
        have hne : definitionsTypeTags ≠ definitionsTypeHashes := by decide
        exact ⟨_, hrow, by simp [pure, Except.pure, DefinitionsUpdate.add_def, hne]⟩

/-- What a section of an unknown kind adds. -/
theorem defines_unknown {kind : Int}
    (hkind : kind ≠ definitionsTypeHashes ∧ kind ≠ definitionsTypeTags) {pairs : List Value}
    {d : DefinitionsUpdate} :
    Defines (Section.rows (kind, pairs)) d ↔ d = ⟨⟨[], []⟩, pairs.length⟩ := by
  have hnone : ∀ k, kind ≠ k → (Section.rows (kind, pairs)).filter (·.1 = k) = [] := by
    intro k hk
    simp [Section.rows, List.filter_eq_nil_iff, hk]
  have hall : ((Section.rows (kind, pairs)).filter fun r =>
      r.1 ≠ definitionsTypeHashes ∧ r.1 ≠ definitionsTypeTags) = Section.rows (kind, pairs) := by
    simp [Section.rows, List.filter_eq_self, hkind.1, hkind.2]
  constructor
  · rintro ⟨hhashes, htags, hunknown⟩
    rw [hnone _ hkind.1] at hhashes
    rw [hnone _ hkind.2] at htags
    rw [hall] at hunknown
    obtain ⟨⟨hashes, tags⟩, unknown⟩ := d
    cases hhashes
    cases htags
    simp [Section.rows] at hunknown
    rw [hunknown]
  · rintro rfl
    constructor
    · rw [hnone _ hkind.1]
      exact .nil
    · rw [hnone _ hkind.2]
      exact .nil
    · rw [hall]
      simp [Section.rows]

theorem decodeSection_eq_ok {d d' : DefinitionsUpdate} {v : Value} :
    decodeSection d v = .ok d' ↔
      ∃ s : Section, Keyed v s.1 s.2 ∧ ∃ e, Defines s.rows e ∧ d' = d + e := by
  simp only [decodeSection, bind_eq_ok, keyed_eq_ok]
  refine exists_congr fun s => and_congr_right fun _ => ?_
  obtain ⟨kind, pairs⟩ := s
  by_cases hkind : kind ≠ definitionsTypeHashes ∧ kind ≠ definitionsTypeTags
  · rw [if_pos hkind, pure_eq_ok]
    simp [defines_unknown hkind, DefinitionsUpdate.add_def]
  · have hknown : kind = definitionsTypeHashes ∨ kind = definitionsTypeTags := by
      by_contra hn
      exact hkind (not_or.1 hn)
    rw [if_neg hkind]
    rw [defines.foldlM (P := Eq) (pushPair kind) (fun pair => [(kind, pair)])
      fun acc a acc' => by simp [pushPair_eq_ok hknown]]
    simp [List.forall₂_eq_eq_eq, Section.rows, ← List.map_eq_flatMap]

theorem decodeDefinitions_eq_ok {info : Value} {d : DefinitionsUpdate} :
    decodeDefinitions info = .ok d ↔ DefinitionsOf info d := by
  simp only [decodeDefinitions, bind_eq_ok, okOr_eq_ok, Value.asArray_eq_some]
  refine exists_congr fun values => and_congr_right fun _ => ?_
  change values.foldlM decodeSection 0 = .ok d ↔ _
  rw [defines.foldlM decodeSection Section.rows fun acc v acc' => decodeSection_eq_ok]
  simp

/-! ## Content -/

instance : Zero ContentUpdate := ⟨⟨⟨[], [], []⟩, {}⟩⟩

instance : Add ContentUpdate :=
  ⟨fun a b =>
    ⟨⟨a.mappings ++ b.mappings, a.siblings ++ b.siblings, a.parents ++ b.parents⟩,
      ⟨a.skips.unknownContentType + b.skips.unknownContentType,
        a.skips.unknownDefKind + b.skips.unknownDefKind⟩⟩⟩

theorem ContentUpdate.add_def (a b : ContentUpdate) :
    a + b =
      ⟨⟨a.mappings ++ b.mappings, a.siblings ++ b.siblings, a.parents ++ b.parents⟩,
        ⟨a.skips.unknownContentType + b.skips.unknownContentType,
          a.skips.unknownDefKind + b.skips.unknownDefKind⟩⟩ := rfl

theorem ContentUpdate.zero_def : (0 : ContentUpdate) = ⟨⟨[], [], []⟩, ⟨0, 0⟩⟩ := rfl

instance : AddMonoid ContentUpdate where
  add_assoc a b c := by simp [ContentUpdate.add_def, Nat.add_assoc]
  zero_add a := by simp [ContentUpdate.add_def, ContentUpdate.zero_def]
  add_zero a := by simp [ContentUpdate.add_def, ContentUpdate.zero_def]
  nsmul := nsmulRec

theorem rowsOf_append (k : Int) (xs ys : List (Int × Int × Value)) :
    rowsOf k (xs ++ ys) = rowsOf k xs ++ rowsOf k ys := by
  simp [rowsOf]

theorem tells : Gathers Tells where
  nil c := by
    constructor
    · rintro ⟨hmappings, hsiblings, hparents, htype, hkind⟩
      obtain ⟨⟨mappings, siblings, parents⟩, ⟨unknownType, unknownKind⟩⟩ := c
      cases hmappings
      cases hsiblings
      cases hparents
      cases htype
      cases hkind
      rfl
    · rintro rfl
      exact ⟨.nil, .nil, .nil, rfl, rfl⟩
  append xs ys c := by
    constructor
    · rintro ⟨hmappings, hsiblings, hparents, htype, hkind⟩
      rw [rowsOf_append, forall₂_append_iff] at hmappings hsiblings hparents
      rw [List.filter_append, List.length_append] at htype
      obtain ⟨⟨mappings, siblings, parents⟩, ⟨unknownType, unknownKind⟩⟩ := c
      obtain ⟨m₁, m₂, hm₁, hm₂, rfl⟩ := hmappings
      obtain ⟨s₁, s₂, hs₁, hs₂, rfl⟩ := hsiblings
      obtain ⟨p₁, p₂, hp₁, hp₂, rfl⟩ := hparents
      cases htype
      cases hkind
      exact ⟨⟨⟨m₁, s₁, p₁⟩, ⟨_, 0⟩⟩, ⟨⟨m₂, s₂, p₂⟩, ⟨_, 0⟩⟩, ⟨hm₁, hs₁, hp₁, rfl, rfl⟩,
        ⟨hm₂, hs₂, hp₂, rfl, rfl⟩, rfl⟩
    · rintro ⟨c₁, c₂, ⟨hm₁, hs₁, hp₁, ht₁, hk₁⟩, ⟨hm₂, hs₂, hp₂, ht₂, hk₂⟩, rfl⟩
      constructor
      · rw [rowsOf_append, forall₂_append_iff]
        exact ⟨_, _, hm₁, hm₂, rfl⟩
      · rw [rowsOf_append, forall₂_append_iff]
        exact ⟨_, _, hs₁, hs₂, rfl⟩
      · rw [rowsOf_append, forall₂_append_iff]
        exact ⟨_, _, hp₁, hp₂, rfl⟩
      · rw [List.filter_append, List.length_append, ← ht₁, ← ht₂]
        rfl
      · simp [ContentUpdate.add_def, hk₁, hk₂]

theorem tells_mapping {a : Int} {row : Value} {c : ContentUpdate} :
    Tells [(contentTypeMappings, a, row)] c ↔
      ∃ m, MappingOf (a, row) m ∧ c = ⟨⟨[m], [], []⟩, ⟨0, 0⟩⟩ := by
  constructor
  · rintro ⟨hmappings, hsiblings, hparents, htype, hkind⟩
    obtain ⟨⟨mappings, siblings, parents⟩, ⟨unknownType, unknownKind⟩⟩ := c
    cases hmappings with
    | cons hrow hnil =>
      cases hnil
      cases hsiblings
      cases hparents
      cases htype
      cases hkind
      exact ⟨_, hrow, rfl⟩
  · rintro ⟨m, hm, rfl⟩
    exact ⟨.cons hm .nil, .nil, .nil, rfl, rfl⟩

theorem tells_sibling {a : Int} {row : Value} {c : ContentUpdate} :
    Tells [(contentTypeSiblings, a, row)] c ↔
      ∃ rel, RelationOf (a, row) rel ∧ c = ⟨⟨[], [rel], []⟩, ⟨0, 0⟩⟩ := by
  constructor
  · rintro ⟨hmappings, hsiblings, hparents, htype, hkind⟩
    obtain ⟨⟨mappings, siblings, parents⟩, ⟨unknownType, unknownKind⟩⟩ := c
    cases hsiblings with
    | cons hrow hnil =>
      cases hnil
      cases hmappings
      cases hparents
      cases htype
      cases hkind
      exact ⟨_, hrow, rfl⟩
  · rintro ⟨rel, hrel, rfl⟩
    exact ⟨.nil, .cons hrel .nil, .nil, rfl, rfl⟩

theorem tells_parent {a : Int} {row : Value} {c : ContentUpdate} :
    Tells [(contentTypeParents, a, row)] c ↔
      ∃ rel, RelationOf (a, row) rel ∧ c = ⟨⟨[], [], [rel]⟩, ⟨0, 0⟩⟩ := by
  constructor
  · rintro ⟨hmappings, hsiblings, hparents, htype, hkind⟩
    obtain ⟨⟨mappings, siblings, parents⟩, ⟨unknownType, unknownKind⟩⟩ := c
    cases hparents with
    | cons hrow hnil =>
      cases hnil
      cases hmappings
      cases hsiblings
      cases htype
      cases hkind
      exact ⟨_, hrow, rfl⟩
  · rintro ⟨rel, hrel, rfl⟩
    exact ⟨.nil, .nil, .cons hrel .nil, rfl, rfl⟩

theorem pushRow_eq_ok {contentType a : Int} {act : UpdateAction}
    (hknown : knownContentType contentType) (ha : a = codeOf act) {c c' : ContentUpdate}
    {row : Value} :
    pushRow contentType act c row = .ok c' ↔ ∃ e, Tells [(contentType, a, row)] e ∧ c' = c + e := by
  have hsm : contentTypeSiblings ≠ contentTypeMappings := by decide
  have hpm : contentTypeParents ≠ contentTypeMappings := by decide
  have hps : contentTypeParents ≠ contentTypeSiblings := by decide
  rcases hknown with rfl | rfl | rfl
  · simp only [pushRow, if_true, bind_eq_ok, pure_eq_ok, decodeMapping_eq_ok ha, tells_mapping]
    simp [ContentUpdate.add_def]
  · simp only [pushRow, if_neg hsm, if_true, bind_eq_ok, pure_eq_ok, decodeRelation_eq_ok ha,
      tells_sibling]
    simp [ContentUpdate.add_def]
  · simp only [pushRow, if_neg hpm, if_neg hps, bind_eq_ok, pure_eq_ok, decodeRelation_eq_ok ha,
      tells_parent]
    simp [ContentUpdate.add_def]

/-- What a group of an unknown content type adds. -/
theorem tells_unknown {contentType a : Int} (hunknown : ¬knownContentType contentType)
    {rows : List Value} {c : ContentUpdate} :
    Tells (rows.map fun row => (contentType, a, row)) c ↔ c = ⟨⟨[], [], []⟩, ⟨rows.length, 0⟩⟩ := by
  have hnone : ∀ k, contentType ≠ k →
      rowsOf k (rows.map fun row => (contentType, a, row)) = [] := by
    intro k hk
    simp [rowsOf, List.filter_eq_nil_iff, hk]
  have hall : ((rows.map fun row => (contentType, a, row)).filter fun r =>
      ¬knownContentType r.1) = rows.map fun row => (contentType, a, row) := by
    simp [List.filter_eq_self, hunknown]
  simp only [knownContentType, not_or] at hunknown
  constructor
  · rintro ⟨hmappings, hsiblings, hparents, htype, hkind⟩
    rw [hnone _ hunknown.1] at hmappings
    rw [hnone _ hunknown.2.1] at hsiblings
    rw [hnone _ hunknown.2.2] at hparents
    rw [hall, List.length_map] at htype
    obtain ⟨⟨mappings, siblings, parents⟩, ⟨unknownType, unknownKind⟩⟩ := c
    cases hmappings
    cases hsiblings
    cases hparents
    cases htype
    cases hkind
    rfl
  · rintro rfl
    constructor
    · rw [hnone _ hunknown.1]
      exact .nil
    · rw [hnone _ hunknown.2.1]
      exact .nil
    · rw [hnone _ hunknown.2.2]
      exact .nil
    · rw [hall, List.length_map]
    · rfl

theorem decodeGroup_eq_ok {contentType : Int} {c c' : ContentUpdate} {v : Value} :
    decodeGroup contentType c v = .ok c' ↔
      ∃ g : Group, GroupOf contentType v g ∧
        ∃ e, Tells (g.2.map fun row => (contentType, g.1, row)) e ∧ c' = c + e := by
  simp only [decodeGroup, bind_eq_ok, keyed_eq_ok]
  refine exists_congr fun g => ?_
  obtain ⟨action, rows⟩ := g
  by_cases hknown : knownContentType contentType
  · have hnot : ¬¬knownContentType contentType := not_not.2 hknown
    rw [if_neg hnot, bind_eq_ok]
    simp only [decodeAction_eq_ok, GroupOf, and_assoc]
    refine and_congr_right fun _ => ?_
    have hrows : ∀ act, action = codeOf act →
        (rows.foldlM (pushRow contentType act) c = .ok c' ↔
          ∃ e, Tells (rows.map fun row => (contentType, action, row)) e ∧ c' = c + e) := by
      intro act hact
      rw [tells.foldlM (P := Eq) (pushRow contentType act) (fun row => [(contentType, action, row)])
        fun acc a acc' => by simp [pushRow_eq_ok hknown hact]]
      simp [List.forall₂_eq_eq_eq, ← List.map_eq_flatMap]
    constructor
    · rintro ⟨act, hact, h⟩
      exact ⟨fun _ => ⟨act, hact⟩, (hrows act hact).1 h⟩
    · rintro ⟨hadds, h⟩
      obtain ⟨act, hact⟩ := hadds hknown
      exact ⟨act, hact, (hrows act hact).2 h⟩
  · simp [hknown, GroupOf, pure_eq_ok, tells_unknown hknown, ContentUpdate.add_def]

theorem decodeBlock_eq_ok {c c' : ContentUpdate} {v : Value} :
    decodeBlock c v = .ok c' ↔ ∃ b, BlockOf v b ∧ ∃ e, Tells b.rows e ∧ c' = c + e := by
  simp only [decodeBlock, bind_eq_ok, keyed_eq_ok]
  have hgroups : ∀ (contentType : Int) (groups : List Value),
      groups.foldlM (decodeGroup contentType) c = .ok c' ↔
        ∃ gs, List.Forall₂ (GroupOf contentType) groups gs ∧
          ∃ e, Tells (Block.rows (contentType, gs)) e ∧ c' = c + e :=
    fun contentType groups =>
      tells.foldlM (decodeGroup contentType)
        (fun g : Group => g.2.map fun row => (contentType, g.1, row))
        fun acc g acc' => decodeGroup_eq_ok
  constructor
  · rintro ⟨⟨contentType, groups⟩, hkeyed, h⟩
    obtain ⟨gs, hgs, h⟩ := (hgroups _ _).1 h
    exact ⟨(contentType, gs), ⟨groups, hkeyed, hgs⟩, h⟩
  · rintro ⟨⟨contentType, gs⟩, ⟨groups, hkeyed, hgs⟩, h⟩
    exact ⟨(contentType, groups), hkeyed, (hgroups _ _).2 ⟨gs, hgs, h⟩⟩

theorem decodeContent_eq_ok {info : Value} {c : ContentUpdate} :
    decodeContent info = .ok c ↔ ContentOf info c := by
  simp only [decodeContent, bind_eq_ok, okOr_eq_ok, Value.asArray_eq_some]
  refine exists_congr fun values => and_congr_right fun _ => ?_
  change values.foldlM decodeBlock 0 = .ok c ↔ _
  rw [tells.foldlM decodeBlock Block.rows fun acc v acc' => decodeBlock_eq_ok]
  simp

/-! ## A file -/

theorem decodeRoot_eq_ok {root : Value} {u : Update} : decodeRoot root = .ok u ↔ RootOf root u := by
  have htypes : typeContentUpdate ≠ typeDefinitionsUpdate := by decide
  simp only [decodeRoot, bind_eq_ok, okOr_eq_ok, Option.bind_eq_some_iff, Value.asArray_eq_some,
    Value.asI64_eq_some]
  constructor
  · rintro ⟨arr, rfl, i, ⟨ty, hty, hi⟩, info, hinfo, h⟩
    match arr, hty, hinfo with
    | _ :: _ :: _ :: rest, hty, hinfo =>
      cases hty
      cases hinfo
      split at h
      · rename_i hdefs
        subst hdefs
        obtain ⟨d, hd, hu⟩ := bind_eq_ok.1 h
        cases pure_eq_ok.1 hu
        exact .definitions hi (decodeDefinitions_eq_ok.1 hd)
      · split at h
        · rename_i hcontent
          subst hcontent
          obtain ⟨c, hc, hu⟩ := bind_eq_ok.1 h
          cases pure_eq_ok.1 hu
          exact .content hi (decodeContent_eq_ok.1 hc)
        · cases h
  · intro h
    cases h with
    | definitions hty hd =>
      refine ⟨_, rfl, _, ⟨_, rfl, hty⟩, _, rfl, ?_⟩
      rw [if_pos rfl, decodeDefinitions_eq_ok.2 hd]
      rfl
    | content hty hc =>
      refine ⟨_, rfl, _, ⟨_, rfl, hty⟩, _, rfl, ?_⟩
      rw [if_neg htypes, if_pos rfl, decodeContent_eq_ok.2 hc]
      rfl

theorem Keyed.unique {v : Value} {k k' : Int} {items items' : List Value} (h : Keyed v k items)
    (h' : Keyed v k' items') : k = k' ∧ items = items' := by
  obtain ⟨w, rest, rfl, hk⟩ := h
  obtain ⟨w', rest', heq, hk'⟩ := h'
  cases heq
  have hsome := (Value.asEnumI64_eq_some.2 hk).symm.trans (Value.asEnumI64_eq_some.2 hk')
  exact ⟨Option.some.inj hsome, rfl⟩

theorem typeContent_ne_typeDefinitions {ty : Value} (h : ty.IsI64 typeContentUpdate)
    (h' : ty.IsI64 typeDefinitionsUpdate) : False := by
  have hsome := (Value.asI64_eq_some.2 h).symm.trans (Value.asI64_eq_some.2 h')
  exact absurd (Option.some.inj hsome) (by decide)

/-- The rows of a group of a decoded file are among those the file is read by. -/
theorem mem_rows_of_contentOf {values : List Value} {c : ContentUpdate}
    (h : ContentOf (.array values) c) {v w : Value} (hv : v ∈ values) {k a : Int}
    {groups rows : List Value} (hblock : Keyed v k groups) (hw : w ∈ groups)
    (hgroup : Keyed w a rows) :
    (knownContentType k → ∃ act, a = codeOf act) ∧
      ∃ all, Tells all c ∧ ∀ row ∈ rows, (k, a, row) ∈ all := by
  obtain ⟨_, heq, blocks, hblocks, htells⟩ := h
  cases heq
  obtain ⟨b, hb, groups', hkeyed, hgroups⟩ := forall₂_mem_left hblocks hv
  obtain ⟨hk, rfl⟩ := hblock.unique hkeyed
  obtain ⟨g, hg, hgkeyed, hadds⟩ := forall₂_mem_left hgroups hw
  obtain ⟨ha, hrows⟩ := hgroup.unique hgkeyed
  subst hk ha hrows
  refine ⟨hadds, _, htells, fun row hrow => List.mem_flatMap.2 ⟨b, hb, ?_⟩⟩
  exact List.mem_flatMap.2 ⟨g, hg, List.mem_map_of_mem hrow⟩

theorem mem_rowsOf {k a : Int} {row : Value} {all : List (Int × Int × Value)}
    (h : (k, a, row) ∈ all) : (a, row) ∈ rowsOf k all := by
  simp [rowsOf, h]

theorem RootOf.not_malformed {root : Value} {u : Update} (h : RootOf root u) :
    ¬Malformed root := by
  intro hbad
  cases hbad with
  | pair hty hv hkeyed hkind hpair hrow =>
    cases h with
    | content hty' _ => exact typeContent_ne_typeDefinitions hty' hty
    | definitions _ hd =>
      obtain ⟨_, heq, sections, hsections, hdefines⟩ := hd
      cases heq
      obtain ⟨s, hs, hskeyed⟩ := forall₂_mem_left hsections hv
      obtain ⟨rfl, rfl⟩ := hkeyed.unique hskeyed
      have hmem : (s.1, _) ∈ sections.flatMap Section.rows :=
        List.mem_flatMap.2 ⟨s, hs, List.mem_map_of_mem hpair⟩
      rcases hkind with hkind | hkind
      · obtain ⟨row, _, hpairOf⟩ := forall₂_mem_left hdefines.hashes
          (List.mem_map_of_mem (List.mem_filter.2 ⟨hmem, by simpa using hkind⟩))
        exact hrow row hpairOf
      · obtain ⟨row, _, hpairOf⟩ := forall₂_mem_left hdefines.tags
          (List.mem_map_of_mem (List.mem_filter.2 ⟨hmem, by simpa using hkind⟩))
        exact hrow row hpairOf
  | action hty hv hblock hknown hw hgroup hact =>
    cases h with
    | definitions hty' _ => exact typeContent_ne_typeDefinitions hty hty'
    | content _ hc =>
      obtain ⟨act, ha⟩ := (mem_rows_of_contentOf hc hv hblock hw hgroup).1 hknown
      exact hact act ha
  | mapping hty hv hblock hw hgroup hrow hbad =>
    cases h with
    | definitions hty' _ => exact typeContent_ne_typeDefinitions hty hty'
    | content _ hc =>
      obtain ⟨_, all, htells, hmem⟩ := mem_rows_of_contentOf hc hv hblock hw hgroup
      obtain ⟨m, _, hm⟩ := forall₂_mem_left htells.mappings (mem_rowsOf (hmem _ hrow))
      exact hbad m hm
  | relation hty hv hblock hkind hw hgroup hrow hbad =>
    cases h with
    | definitions hty' _ => exact typeContent_ne_typeDefinitions hty hty'
    | content _ hc =>
      obtain ⟨_, all, htells, hmem⟩ := mem_rows_of_contentOf hc hv hblock hw hgroup
      rcases hkind with rfl | rfl
      · obtain ⟨rel, _, hrel⟩ := forall₂_mem_left htells.siblings (mem_rowsOf (hmem _ hrow))
        exact hbad rel hrel
      · obtain ⟨rel, _, hrel⟩ := forall₂_mem_left htells.parents (mem_rowsOf (hmem _ hrow))
        exact hbad rel hrel

theorem decodeUpdate_eq_ok {inflate : List UInt8 → Except String (List UInt8)}
    {fromSlice : List UInt8 → Except String Value} {bytes : List UInt8} {u : Update} :
    decodeUpdate inflate fromSlice bytes = .ok u ↔
      ∃ json root, inflate bytes = .ok json ∧ fromSlice json = .ok root ∧ RootOf root u := by
  simp only [decodeUpdate, bind_eq_ok, decodeRoot_eq_ok, exists_and_left]

/-- The upstream of a pass, over the files it sends. -/
def updateSource (metadata : Nat → Except BridgeError (List MetadataEntry))
    (fetchUpdate : String → Except String (List UInt8))
    (inflate : List UInt8 → Except String (List UInt8))
    (fromSlice : List UInt8 → Except String Value) : UpdateSource where
  metadata := metadata
  fetchUpdate hash :=
    match fetchUpdate hash >>= decodeUpdate inflate fromSlice with
    | .ok u => .ok u.applied
    | .error e => .error (.upstream e)

/-- A pass sees what the files say. -/
theorem updateSource_eq_ok {metadata : Nat → Except BridgeError (List MetadataEntry)}
    {fetchUpdate : String → Except String (List UInt8)}
    {inflate : List UInt8 → Except String (List UInt8)}
    {fromSlice : List UInt8 → Except String Value} {hash : String} {f : Bridge.Update} :
    (updateSource metadata fetchUpdate inflate fromSlice).fetchUpdate hash = .ok f ↔
      ∃ bytes json root u, fetchUpdate hash = .ok bytes ∧ inflate bytes = .ok json ∧
        fromSlice json = .ok root ∧ RootOf root u ∧ f = u.applied := by
  constructor
  · intro h
    simp only [updateSource] at h
    split at h
    · rename_i u hu
      cases h
      obtain ⟨bytes, hbytes, hu⟩ := bind_eq_ok.1 hu
      obtain ⟨json, root, hjson, hroot, hof⟩ := decodeUpdate_eq_ok.1 hu
      exact ⟨bytes, json, root, u, hbytes, hjson, hroot, hof, rfl⟩
    · cases h
  · rintro ⟨bytes, json, root, u, hbytes, hjson, hroot, hof, rfl⟩
    have hu : fetchUpdate hash >>= decodeUpdate inflate fromSlice = .ok u :=
      bind_eq_ok.2 ⟨bytes, hbytes, decodeUpdate_eq_ok.2 ⟨json, root, hjson, hroot, hof⟩⟩
    simp only [updateSource, hu]

/-- **Decoding loses nothing.** A file that decompresses and parses is decoded to what it says, or
fails; it fails wherever a part of a section of a known kind is malformed. -/
theorem decodeUpdate_iff (inflate : List UInt8 → Except String (List UInt8))
    (fromSlice : List UInt8 → Except String Value) (bytes : List UInt8) :
    (∀ u, decodeUpdate inflate fromSlice bytes = .ok u ↔
      ∃ json root, inflate bytes = .ok json ∧ fromSlice json = .ok root ∧ RootOf root u) ∧
    ∀ json root, inflate bytes = .ok json → fromSlice json = .ok root → Malformed root →
      ∃ e, decodeUpdate inflate fromSlice bytes = .error e := by
  refine ⟨fun u => decodeUpdate_eq_ok, fun json root hjson hroot hbad => ?_⟩
  cases h : decodeUpdate inflate fromSlice bytes with
  | error e => exact ⟨e, rfl⟩
  | ok u =>
    obtain ⟨json', root', hjson', hroot', hof⟩ := decodeUpdate_eq_ok.1 h
    rw [hjson] at hjson'
    cases hjson'
    rw [hroot] at hroot'
    cases hroot'
    exact absurd hbad hof.not_malformed

/-- A file with one mapping row, whose tag id is a text: `[34,1,[[0,[[0,[["5",[7]]]]]]]]`. -/
def textTagId : List UInt8 :=
  [120, 218, 139, 54, 54, 209, 49, 212, 137, 142, 54, 128, 98, 37, 83, 37, 157, 104, 243, 88, 40,
    0, 0, 118, 98, 8, 69]

def textTagIdJson : List UInt8 :=
  [91, 51, 52, 44, 49, 44, 91, 91, 48, 44, 91, 91, 48, 44, 91, 91, 34, 53, 34, 44, 91, 55, 93, 93,
    93, 93, 93, 93, 93, 93]

def textTagIdRow : Value := .array [.string "5", .array [.number (.posInt 7)]]

def textTagIdRoot : Value :=
  .array [.number (.posInt 34), .number (.posInt 1),
    .array [.array [.number (.posInt 0),
      .array [.array [.number (.posInt 0), .array [textTagIdRow]]]]]]

theorem decodeUpdate_iff_textTagId :
    ∃ e, decodeUpdate
      (fun bytes => if bytes = textTagId then .ok textTagIdJson else .error "zlib inflate failed")
      (fun json =>
        if json = textTagIdJson then .ok textTagIdRoot else .error "update is not JSON")
      textTagId = .error e := by
  have hzero : Value.IsEnum (.number (.posInt 0)) 0 := .number (.posInt (by decide))
  have htype : Value.IsI64 (.number (.posInt 34)) typeContentUpdate := .posInt (by decide)
  apply (decodeUpdate_iff _ _ textTagId).2 textTagIdJson textTagIdRoot (if_pos rfl) (if_pos rfl)
  apply Malformed.mapping htype (List.mem_singleton.2 rfl) ⟨_, [], rfl, hzero⟩
    (List.mem_singleton.2 rfl) ⟨_, [], rfl, hzero⟩ (List.mem_singleton.2 rfl)
  rintro m ⟨_, id, ids, rest, hrow, ⟨n, hn, _⟩, _⟩
  cases hrow
  cases hn

end HydrusWire
end Bridge
end Naiad
