import Naiad.Db.Detail
import Naiad.Db.Rejections
import Naiad.Lib.Autocommit

/-!
# Naiad.Daemon.Reject

A tag of the detail panel is rejected on each service the panel names, and the rejections are taken
back. A call names the service, the file and the tag by their texts; what it stores is the spelling
that the panel shows.

* `rejectMapping`, `undoRejection`: one call.
* `rejectAll_spec`: a run of calls succeeds, and rejects just the keys it names.
* `reject_hides`: **after a rejection the panel shows a tag just when a mapping is left that leads to
  it**, so another spelling, the user's own mapping or a detached service may keep what was rejected.
* `undo_restores`: **taking it back restores the database just when none of it was rejected before**.
-/

namespace Naiad

open Lib Core Netproto

namespace Db

/-- `name TEXT NOT NULL UNIQUE` -/
def NamesUnique (db : Db) : Prop :=
  ∀ s s' row row', db.services.lookup s = some row → db.services.lookup s' = some row' →
    row.name = row'.name → s = s'

theorem NamesUnique.of_entries {db : Db}
    (h : (db.services.entries.map fun e => e.2.name).Nodup) : db.NamesUnique := by
  intro s s' row row' hl hl' heq
  have hsame := List.inj_on_of_nodup_map h (Table.mem_entries.2 hl) (Table.mem_entries.2 hl') heq
  exact congrArg Sigma.fst hsame

theorem sharedServiceByName_of_mem {db : Db} (hnames : db.NamesUnique) {svc : SharedService}
    (h : svc ∈ db.listSharedServices) : db.sharedServiceByName svc.name = some svc := by
  cases hfind : db.sharedServiceByName svc.name with
  | none =>
    have hnone := List.find?_eq_none.1 hfind svc h
    simp at hnone
  | some svc' =>
    have hname : svc'.name = svc.name := by simpa using List.find?_some hfind
    obtain ⟨row, hl, _, hrow, hurl⟩ := mem_listSharedServices.1 h
    obtain ⟨row', hl', _, hrow', hurl'⟩ :=
      mem_listSharedServices.1 (List.mem_of_find?_eq_some hfind)
    have hid := hnames _ _ _ _ hl' hl (by rw [hrow', hrow, hname])
    rw [hid, hl] at hl'
    cases hl'
    rw [hurl] at hurl'
    cases svc
    cases svc'
    simp only [SharedService.mk.injEq, Option.some.injEq] at hid hname hurl' ⊢
    exact ⟨hid, hname, hurl'.symm⟩

namespace RejectedDb

def internTag (c : RejectedDb) (tag : Tag) : RejectedDb where
  db := c.db.internTag tag
  rows := c.rows
  same := c.same
  refs := by
    intro k hk
    obtain ⟨hservice, hfile, htag⟩ := c.refs k hk
    exact ⟨hservice, hfile, IdTable.mem_ids_intern htag⟩

theorem eq_of_db {c c' : RejectedDb} (hdb : c.db = c'.db) (hrows : c.rows = c'.rows) : c = c' := by
  cases c
  cases c'
  cases hdb
  cases hrows
  rfl

theorem internTag_of_idOf {c : RejectedDb} {tag : Tag} {id : Nat} (h : c.db.tags.idOf tag = some id) :
    c.internTag tag = c := by
  have hdb : c.db.internTag tag = c.db := by
    rw [Db.internTag, IdTable.intern_of_idOf h]
  exact eq_of_db hdb rfl

/-- `DELETE FROM mapping_rejections ..` -/
def removeRejection (c : RejectedDb) (service file tag : Nat) : RejectedDb where
  db := { c.db with rejections := c.db.rejections.erase (service, file, tag) }
  rows := c.rows.erase (service, file, tag)
  same := by
    intro k
    rw [AList.mem_erase, Finset.mem_erase, c.same k]
  refs := by
    intro k hk
    exact c.refs k (AList.mem_erase.1 hk).2

end RejectedDb

end Db

namespace Daemon

open Db

/-! ## One call -/

inductive RejectError
  | message (text : String)
  | parsingTag (tag : String) (e : ParseError)
  | db (e : ServiceError)
deriving DecidableEq

/-- A reference of 64 lowercase hex digits is a hash, any other one a path. -/
def isHash (reference : String) : Bool :=
  reference.length = 64 &&
    reference.toList.all fun c => decide ('0' ≤ c ∧ c ≤ '9') || decide ('a' ≤ c ∧ c ≤ 'f')

section Calls

variable (u : Unicode) (byPath : String → Option Nat)

def resolveFile (db : Db) (reference : String) : Except RejectError Nat :=
  match if isHash reference then (Hash.parse reference).bind db.fileIdByHash
    else byPath reference with
  | some file => .ok file
  | none => .error (.message (reference ++ ": not in library; scan it first"))

/-- The texts of a call read as a key, the tag interned. -/
def resolveMapping (noRepo : String) (c : RejectedDb) (service file tag : String) :
    Except RejectError (RejectedDb × Nat × Nat × Nat) :=
  match c.db.sharedServiceByName service with
  | none => .error (.message noRepo)
  | some svc =>
    match resolveFile byPath c.db file with
    | .error e => .error e
    | .ok fileId =>
      match Tag.parse u tag with
      | .error e => .error (.parsingTag tag e)
      | .ok parsed => .ok (c.internTag parsed, svc.id, fileId, c.db.internedTag parsed)

def rejectMapping (c : RejectedDb) (service file tag : String) (note : Option String) (now : Int) :
    Except RejectError RejectedDb :=
  match resolveMapping u byPath ("no such shared repo: " ++ service ++
      " (local tags are deleted, not rejected)") c service file tag with
  | .error e => .error e
  | .ok (c', svcId, fileId, tagId) => (c'.addRejection svcId fileId tagId note now).mapError .db

def undoRejection (c : RejectedDb) (service file tag : String) : Except RejectError RejectedDb :=
  match resolveMapping u byPath ("no such shared repo: " ++ service) c service file tag with
  | .error e => .error e
  | .ok (c', svcId, fileId, tagId) => .ok (c'.removeRejection svcId fileId tagId)

/-- `reject`: one call for each service, at its own time; the first that fails ends the flow. -/
def reject (now : String → Int) (c : RejectedDb) (tag : String) (services : List String)
    (hash : String) : RejectedDb × Except RejectError Unit :=
  autocommit (services.map fun s c => rejectMapping u byPath c s hash tag none (now s)) c

/-- `undoFlash` -/
def undoFlash (c : RejectedDb) (tag : String) (services : List String) (hash : String) :
    RejectedDb × Except RejectError Unit :=
  autocommit (services.map fun s c => undoRejection u byPath c s hash tag) c

end Calls

section

variable {u : Unicode} {byPath : String → Option Nat}

theorem isHash_toHex (hash : Hash) : isHash hash.toHex = true := by
  have hdigit : ∀ i : Fin 16, (decide ('0' ≤ fromDigit i.val ∧ fromDigit i.val ≤ '9') ||
      decide ('a' ≤ fromDigit i.val ∧ fromDigit i.val ≤ 'f')) = true := by decide
  have hlength : hash.toHex.length = 64 := by
    rw [Hash.toHex, String.length_ofList, hexChars_length, hash.size]
  rw [isHash, hlength, Hash.toHex, String.toList_ofList, Bool.and_eq_true, List.all_eq_true]
  refine ⟨rfl, ?_⟩
  intro ch hch
  obtain ⟨b, _, hb⟩ := List.mem_flatMap.1 hch
  have hlt := b.isLt
  simp only [List.mem_cons, List.not_mem_nil, or_false] at hb
  rcases hb with rfl | rfl
  · exact hdigit ⟨b.val / 16, by omega⟩
  · exact hdigit ⟨b.val % 16, by omega⟩

theorem resolveFile_toHex (db : Db) {hash : Hash} {file : Nat}
    (h : db.fileIdByHash hash = some file) : resolveFile byPath db hash.toHex = .ok file := by
  rw [resolveFile, if_pos (isHash_toHex hash), Hash.parse_toHex, Option.bind_some, h]

/-- The texts of the calls name this file and this tag. -/
structure Names (u : Unicode) (byPath : String → Option Nat) (db : Db) (hash tag : String)
    (file id : Nat) : Prop where
  resolves : resolveFile byPath db hash = .ok file
  stored : (db.files.lookup file).isSome
  parses : ∃ parsed, Tag.parse u tag = .ok parsed ∧ db.tags.idOf parsed = some id

variable {c c' : RejectedDb} {hash tag : String} {file id : Nat} {svc : SharedService}
  {svcs : List SharedService} {now : String → Int}

theorem Names.resolveMapping (h : Names u byPath c.db hash tag file id)
    (hsvc : c.db.sharedServiceByName svc.name = some svc) (noRepo : String) :
    resolveMapping u byPath noRepo c svc.name hash tag = .ok (c, svc.id, file, id) := by
  obtain ⟨parsed, hparse, hid⟩ := h.parses
  rw [Daemon.resolveMapping, hsvc]
  simp only [h.resolves, hparse, RejectedDb.internTag_of_idOf hid, internedTag,
    IdTable.intern_of_idOf hid]

theorem Names.of_rejections (h : Names u byPath c.db hash tag file id)
    {ks : Finset (Nat × Nat × Nat)} (hdb : c'.db = { c.db with rejections := ks }) :
    Names u byPath c'.db hash tag file id := by
  rw [hdb]
  exact ⟨h.resolves, h.stored, h.parses⟩

/-! ## Runs of calls -/

/-- What rejecting leaves: the keys, and the row of each rejection there was. -/
structure Rejects (c c' : RejectedDb) (ks : Finset (Nat × Nat × Nat)) : Prop where
  db : c'.db = { c.db with rejections := c.db.rejections ∪ ks }
  rows : ∀ k, k ∈ c.db.rejections ∨ k ∉ ks → c'.rows.lookup k = c.rows.lookup k

/-- What taking back leaves: the rejections of other keys, with their rows. -/
structure Undoes (c c' : RejectedDb) (ks : Finset (Nat × Nat × Nat)) : Prop where
  db : c'.db = { c.db with rejections := c.db.rejections \ ks }
  rows : ∀ k ∉ ks, c'.rows.lookup k = c.rows.lookup k

theorem Rejects.trans {c'' : RejectedDb} {ks ks' : Finset (Nat × Nat × Nat)}
    (h : Rejects c c' ks) (h' : Rejects c' c'' ks') : Rejects c c'' (ks ∪ ks') where
  db := by rw [h'.db, h.db, Finset.union_assoc]
  rows := by
    intro k hk
    rw [h'.rows k, h.rows k]
    · exact hk.imp id fun hk hmem => hk (Finset.mem_union_left _ hmem)
    · rw [h.db]
      exact hk.imp (Finset.mem_union_left _) fun hk hmem => hk (Finset.mem_union_right _ hmem)

theorem Undoes.trans {c'' : RejectedDb} {ks ks' : Finset (Nat × Nat × Nat)}
    (h : Undoes c c' ks) (h' : Undoes c' c'' ks') : Undoes c c'' (ks ∪ ks') where
  db := by rw [h'.db, h.db, sdiff_sdiff, Finset.sup_eq_union]
  rows := by
    intro k hk
    obtain ⟨hleft, hright⟩ := not_or.1 (mt Finset.mem_union.2 hk)
    rw [h'.rows k hright, h.rows k hleft]

theorem Names.rejectMapping (h : Names u byPath c.db hash tag file id)
    (hsvc : c.db.sharedServiceByName svc.name = some svc) (note : Option String) (now : Int) :
    ∃ c', rejectMapping u byPath c svc.name hash tag note now = .ok c' ∧
      Rejects c c' {(svc.id, file, id)} := by
  obtain ⟨row, hl, _⟩ := mem_listSharedServices.1 (List.mem_of_find?_eq_some hsvc)
  obtain ⟨parsed, _, hid⟩ := h.parses
  have hrefs : (c.db.services.lookup svc.id).isSome ∧ (c.db.files.lookup file).isSome ∧
      id ∈ c.db.tags.ids :=
    ⟨by rw [hl]; rfl, h.stored, IdTable.mem_ids_of_idOf hid⟩
  rw [Daemon.rejectMapping, h.resolveMapping hsvc]
  simp only [RejectedDb.addRejection, dif_pos hrefs]
  by_cases hrow : (svc.id, file, id) ∈ c.rows
  · rw [dif_pos hrow]
    have hsame : c.db.rejections ∪ {(svc.id, file, id)} = c.db.rejections :=
      Finset.union_eq_left.2 (Finset.singleton_subset_iff.2 ((c.same _).1 hrow))
    exact ⟨c, rfl, by rw [hsame], fun k _ => rfl⟩
  · rw [dif_neg hrow]
    refine ⟨_, rfl, ?_, ?_⟩
    · have hkeys : insert (svc.id, file, id) c.db.rejections =
          c.db.rejections ∪ {(svc.id, file, id)} := by
        rw [Finset.insert_eq, Finset.union_comm]
      exact congrArg (fun ks => { c.db with rejections := ks }) hkeys
    · intro k hk
      refine AList.lookup_insert_ne ?_
      rintro rfl
      rcases hk with hk | hk
      · exact hrow ((c.same _).2 hk)
      · exact hk (Finset.mem_singleton_self _)

theorem Names.undoRejection (h : Names u byPath c.db hash tag file id)
    (hsvc : c.db.sharedServiceByName svc.name = some svc) :
    ∃ c', undoRejection u byPath c svc.name hash tag = .ok c' ∧
      Undoes c c' {(svc.id, file, id)} := by
  rw [Daemon.undoRejection, h.resolveMapping hsvc]
  refine ⟨_, rfl, ?_, ?_⟩
  · rw [RejectedDb.removeRejection, Finset.sdiff_singleton_eq_erase]
  · intro k hk
    exact AList.lookup_erase_ne fun heq => hk (Finset.mem_singleton.2 heq)

/-- The keys of a tag of a file on some services. -/
def keysOn (svcs : List SharedService) (file id : Nat) : Finset (Nat × Nat × Nat) :=
  (svcs.map fun svc => (svc.id, file, id)).toFinset

theorem keysOn_cons : keysOn (svc :: svcs) file id = {(svc.id, file, id)} ∪ keysOn svcs file id := by
  rw [keysOn, List.map_cons, List.toFinset_cons, Finset.insert_eq]
  rfl

/-- Effects of calls that add up over a run and change the rejections only. -/
structure Additive (effect : RejectedDb → RejectedDb → Finset (Nat × Nat × Nat) → Prop) : Prop where
  refl : ∀ c, effect c c ∅
  trans : ∀ {c c' c'' ks ks'}, effect c c' ks → effect c' c'' ks' → effect c c'' (ks ∪ ks')
  frame : ∀ {c c' ks}, effect c c' ks → ∃ ks', c'.db = { c.db with rejections := ks' }

theorem Rejects.additive : Additive Rejects where
  refl c := ⟨by rw [Finset.union_empty], fun k _ => rfl⟩
  trans := Rejects.trans
  frame h := ⟨_, h.db⟩

theorem Undoes.additive : Additive Undoes where
  refl c := ⟨by rw [Finset.sdiff_empty], fun k _ => rfl⟩
  trans := Undoes.trans
  frame h := ⟨_, h.db⟩

/-- A flow over services that resolve succeeds, with the effects of its calls. -/
theorem Names.run {call : String → RejectedDb → Except RejectError RejectedDb}
    {effect : RejectedDb → RejectedDb → Finset (Nat × Nat × Nat) → Prop} (hadd : Additive effect)
    (hcall : ∀ c svc, Names u byPath c.db hash tag file id →
      c.db.sharedServiceByName svc.name = some svc →
        ∃ c', call svc.name c = .ok c' ∧ effect c c' {(svc.id, file, id)})
    (h : Names u byPath c.db hash tag file id)
    (hsvcs : ∀ svc ∈ svcs, c.db.sharedServiceByName svc.name = some svc) :
    ∃ c', autocommit ((svcs.map SharedService.name).map call) c = (c', .ok ()) ∧
      effect c c' (keysOn svcs file id) := by
  induction svcs generalizing c with
  | nil => exact ⟨c, rfl, hadd.refl c⟩
  | cons svc svcs ih =>
    obtain ⟨c', hok, heffect⟩ := hcall c svc h (hsvcs svc (by simp))
    obtain ⟨ks, hframe⟩ := hadd.frame heffect
    have hrest : ∀ svc' ∈ svcs, c'.db.sharedServiceByName svc'.name = some svc' := by
      intro svc' hsvc'
      rw [hframe]
      exact hsvcs svc' (List.mem_cons_of_mem _ hsvc')
    obtain ⟨c'', hrun, heffect'⟩ := ih (h.of_rejections hframe) hrest
    refine ⟨c'', ?_, ?_⟩
    · rw [List.map_cons, List.map_cons, autocommit, hok]
      exact hrun
    · rw [keysOn_cons]
      exact hadd.trans heffect heffect'

theorem Names.reject (now : String → Int) (h : Names u byPath c.db hash tag file id)
    (hsvcs : ∀ svc ∈ svcs, c.db.sharedServiceByName svc.name = some svc) :
    ∃ c', reject u byPath now c tag (svcs.map SharedService.name) hash = (c', .ok ()) ∧
      Rejects c c' (keysOn svcs file id) :=
  Names.run Rejects.additive
    (fun _ svc hnames hsvc => hnames.rejectMapping hsvc none (now svc.name)) h hsvcs

theorem Names.undoFlash (h : Names u byPath c.db hash tag file id)
    (hsvcs : ∀ svc ∈ svcs, c.db.sharedServiceByName svc.name = some svc) :
    ∃ c', undoFlash u byPath c tag (svcs.map SharedService.name) hash = (c', .ok ()) ∧
      Undoes c c' (keysOn svcs file id) :=
  Names.run Undoes.additive (fun _ _ hnames hsvc => hnames.undoRejection hsvc) h hsvcs

end

end Daemon

/-! ## The panel -/

namespace Db

section

variable {u : Unicode} {db : Db} {services : List Nat} {file id : Nat} {order : HashOrder Nat}
  {scope : ReadScope}

theorem detailRows_reject (ks : Finset (Nat × Nat × Nat)) :
    detailRows u { db with rejections := db.rejections ∪ ks } services file =
      (db.detailRows u services file).filter fun r => (r.service, file, r.tag) ∉ ks := by
  rw [detailRows, detailRows, List.filter_map, List.filter_filter]
  refine congrArg _ (List.filter_congr ?_)
  rintro ⟨⟨f, t, s⟩, row⟩ _
  rw [Bool.eq_iff_iff]
  simp only [tagVisible, rejectMatcher, RejectMatcher.isRejected, Option.all_some, Finset.mem_union,
    Bool.and_eq_true, Bool.not_eq_true', decide_eq_false_iff_not, decide_eq_true_eq, not_or,
    Function.comp]
  constructor
  · rintro ⟨rfl, hstatus, hs, ⟨hold, hnew⟩, hblock⟩
    exact ⟨hnew, rfl, hstatus, hs, hold, hblock⟩
  · rintro ⟨hnew, rfl, hstatus, hs, hold, hblock⟩
    exact ⟨rfl, hstatus, hs, ⟨hold, hnew⟩, hblock⟩

/-- A read of a file none of whose mappings is rejected. -/
theorem displayTagsDetailed_reject_other {ks : Finset (Nat × Nat × Nat)}
    (hks : ∀ k ∈ ks, k.2.1 ≠ file) :
    displayTagsDetailed order u { db with rejections := db.rejections ∪ ks } file scope =
      db.displayTagsDetailed order u file scope := by
  have hrows : detailRows u { db with rejections := db.rejections ∪ ks } (db.includedServices scope)
      file = db.detailRows u (db.includedServices scope) file := by
    rw [detailRows_reject, List.filter_eq_self]
    intro r _
    exact decide_eq_true fun hmem => hks _ hmem rfl
  exact congrArg (fun rows : List DetailRow =>
    (db.relationGraph (db.includedServices scope)).bind fun graph =>
      let raw := gather db.localServiceIds rows
      let canon := raw.canonical order graph.siblings
      (((effectiveTags raw.presence.keys graph.siblings graph.parents).sort (· ≤ ·)).mapM
        (db.tagDetail graph raw canon)).map (orderBy fun d => toLex (d.tag.ns, d.tag.subtag))) hrows

theorem mem_rawPresence_rows {t : Nat} : t ∈ (db.rawPresence u services file).keys ↔
    ∃ r ∈ db.detailRows u services file, r.tag = t := by
  rw [← presence_gather, ← AList.mem_keys, gather, mem_assertAll]
  simp only [List.mem_map, Prod.mk.injEq]
  constructor
  · rintro ⟨_, r, hr, rfl, _⟩
    exact ⟨r, hr, rfl⟩
  · rintro ⟨r, hr, rfl⟩
    exact ⟨_, r, hr, rfl, rfl⟩

theorem Constraints.of_rejections (hc : db.Constraints) (ks : Finset (Nat × Nat × Nat)) :
    Constraints { db with rejections := ks } where
  files_unique := hc.files_unique
  location_file := hc.location_file
  tags_unique := hc.tags_unique
  mapping_tag := hc.mapping_tag
  sibling_ideal := hc.sibling_ideal
  parent_tag := hc.parent_tag

/-- After a rejection a read shows the tags that a mapping which is left leads to. -/
theorem details_reject (order : HashOrder Nat) (u : Unicode) (hc : db.Constraints) (file : Nat)
    {scope : ReadScope} {graph : RelationGraph Nat}
    (hg : db.relationGraph (db.includedServices scope) = some graph)
    (hs : EdgesKnown db graph.siblings) (hp : ParentsKnown db graph.parents)
    (ks : Finset (Nat × Nat × Nat)) :
    ∃ details, displayTagsDetailed order u { db with rejections := db.rejections ∪ ks } file scope =
        some details ∧
      ∀ t tag, db.tags.valueOf t = some tag → ((∃ d ∈ details, d.tag = tag) ↔
        ∃ r ∈ db.detailRows u (db.includedServices scope) file, (r.service, file, r.tag) ∉ ks ∧
          t ∈ effectiveTags [r.tag] graph.siblings graph.parents) := by
  have hc' := hc.of_rejections (db.rejections ∪ ks)
  obtain ⟨details, hdetails, hshown, _⟩ :=
    displayTagsDetailed_spec order u file hc' hg hs hp
  obtain ⟨shown, hshown', hmem⟩ := displayTagsOf_spec u file hc' hg hs hp
  rw [hshown'] at hshown
  cases hshown
  refine ⟨details, hdetails, ?_⟩
  intro t tag htag
  have hpanel : (∃ d ∈ details, d.tag = tag) ↔
      ∃ d ∈ details.map TagDetail.shown, d.tag = tag := by
    constructor
    · rintro ⟨d, hd, rfl⟩
      exact ⟨d.shown, List.mem_map_of_mem hd, rfl⟩
    · rintro ⟨s, hs, hs'⟩
      obtain ⟨d, hd, rfl⟩ := List.mem_map.1 hs
      exact ⟨d, hd, hs'⟩
  have hleft : t ∈ effectiveTags (rawPresence u { db with rejections := db.rejections ∪ ks }
      (db.includedServices scope) file).keys graph.siblings graph.parents ↔
      ∃ r ∈ db.detailRows u (db.includedServices scope) file, (r.service, file, r.tag) ∉ ks ∧
        t ∈ effectiveTags [r.tag] graph.siblings graph.parents := by
    simp only [mem_effectiveTags, mem_rawPresence_rows, detailRows_reject, List.mem_filter,
      decide_eq_true_eq, List.mem_singleton, exists_eq_left]
    constructor
    · rintro ⟨_, ⟨r, ⟨hr, hks⟩, rfl⟩, hpath⟩
      exact ⟨r, hr, hks, hpath⟩
    · rintro ⟨r, hr, hks, hpath⟩
      exact ⟨r.tag, ⟨r, ⟨hr, hks⟩, rfl⟩, hpath⟩
  rw [hpanel, hmem tag, ← hleft]
  constructor
  · rintro ⟨t', htag', hpath⟩
    have hid := IdTable.idOf_of_valueOf hc.tags_unique htag
    have hid' := IdTable.idOf_of_valueOf hc.tags_unique htag'
    rw [hid] at hid'
    cases hid'
    exact hpath
  · intro hpath
    exact ⟨t, htag, hpath⟩

end

end Db

namespace Daemon

open Db

section

variable {u : Unicode} {lower : List Char → Char → List Char → List Char}
  {byPath : String → Option Nat} {c : RejectedDb} {scope : ReadScope} {file id : Nat}
  {row : FileRow} {graph : RelationGraph Nat} {d : TagDetail}

/-- The attached shared services that carry some spelling of a tag. -/
def suppliers (u : Unicode) (db : Db) (scope : ReadScope) (file : Nat) (siblings : SiblingEdges Nat)
    (id : Nat) : List SharedService :=
  db.listSharedServices.filter fun svc => db.supplies u scope file siblings id svc.id

theorem services_eq_suppliers (h : Explained u c.db scope file graph d id) : d.services =
    (suppliers u c.db scope file graph.siblings id).map SharedService.name :=
  h.services

theorem suppliers_resolve {db : Db} (hnames : db.NamesUnique) {svc : SharedService}
    (h : svc ∈ suppliers u db scope file graph.siblings id) :
    db.sharedServiceByName svc.name = some svc :=
  sharedServiceByName_of_mem hnames (List.mem_filter.1 h).1

/-- An entry of the panel names its file and its tag. -/
theorem names_of_explained (hu : u.Lowercases lower) (hc : c.db.Constraints)
    (htags : ∀ r ∈ c.db.tags.rows, r.2.Canonical u lower)
    (hfile : c.db.files.lookup file = some row) (h : Explained u c.db scope file graph d id) :
    Names u byPath c.db row.blake3.toHex d.tag.display file id where
  resolves := resolveFile_toHex c.db (hc.fileIdByHash_eq_some.2 ⟨row, hfile, rfl⟩)
  stored := by rw [hfile]; rfl
  parses := by
    exact ⟨d.tag, (htags _ (IdTable.valueOf_eq_some.1 h.text)).parse_display hu,
      IdTable.idOf_of_valueOf hc.tags_unique h.text⟩

theorem mem_keysOn_suppliers {r : DetailRow}
    (hr : r ∈ c.db.detailRows u (c.db.includedServices scope) file)
    (hid : canonicalize id graph.siblings = id) :
    (r.service, file, r.tag) ∈ keysOn (suppliers u c.db scope file graph.siblings id) file id ↔
      r.tag = id ∧ r.service ∈ c.db.listSharedServices.map SharedService.id := by
  simp only [keysOn, suppliers, List.mem_toFinset, List.mem_map, List.mem_filter, Prod.mk.injEq,
    true_and]
  constructor
  · rintro ⟨svc, ⟨hsvc, _⟩, hservice, htag⟩
    exact ⟨htag.symm, svc, hsvc, hservice⟩
  · rintro ⟨htag, svc, hsvc, hservice⟩
    refine ⟨svc, ⟨hsvc, ?_⟩, hservice, htag.symm⟩
    refine List.any_eq_true.2 ⟨r, hr, decide_eq_true ⟨?_, hservice.symm⟩⟩
    rw [htag, hid]

/-- **What a rejection hides.** The calls for an entry of the panel succeed and leave the panels of
other files as they are. On its own file a tag is still shown just when a mapping is left that leads
to it: any but those of the rejected spelling on the attached shared services. -/
theorem reject_hides (hu : u.Lowercases lower) (order : HashOrder Nat)
    (byPath : String → Option Nat) (now : String → Int) (c : RejectedDb) (hc : c.db.Constraints)
    (hnames : c.db.NamesUnique) (htags : ∀ r ∈ c.db.tags.rows, r.2.Canonical u lower) (file : Nat)
    (row : FileRow) (hfile : c.db.files.lookup file = some row) (scope : ReadScope) :
    ∃ graph details, c.db.relationGraph (c.db.includedServices scope) = some graph ∧
      c.db.displayTagsDetailed order u file scope = some details ∧
      ∀ d ∈ details, ∃ id c', c.db.tags.valueOf id = some d.tag ∧
        reject u byPath now c d.tag.display d.services row.blake3.toHex = (c', .ok ()) ∧
        (∀ f ≠ file, c'.db.displayTagsDetailed order u f scope =
          c.db.displayTagsDetailed order u f scope) ∧
        ∃ details', c'.db.displayTagsDetailed order u file scope = some details' ∧
          ∀ t tag, c.db.tags.valueOf t = some tag → ((∃ d' ∈ details', d'.tag = tag) ↔
            ∃ r ∈ c.db.detailRows u (c.db.includedServices scope) file,
              ¬(r.tag = id ∧ r.service ∈ c.db.listSharedServices.map SharedService.id) ∧
                t ∈ effectiveTags [r.tag] graph.siblings graph.parents) := by
  obtain ⟨graph, hg, hs, hp⟩ := relationGraph_spec hc scope
  obtain ⟨details, hdetails, _, hexplained⟩ := displayTagsDetailed_spec order u file hc hg hs hp
  refine ⟨graph, details, hg, hdetails, ?_⟩
  intro d hd
  obtain ⟨id, _, hentry⟩ := hexplained d hd
  have hnamed : Names u byPath c.db row.blake3.toHex d.tag.display file id :=
    names_of_explained hu hc htags hfile hentry
  obtain ⟨c', hrun, heffect⟩ := hnamed.reject now fun _ => suppliers_resolve hnames
  refine ⟨id, c', hentry.text, ?_, ?_, ?_⟩
  · rw [services_eq_suppliers hentry]
    exact hrun
  · intro f hf
    rw [heffect.db]
    refine displayTagsDetailed_reject_other ?_
    intro k hk
    obtain ⟨svc, _, rfl⟩ := List.mem_map.1 (List.mem_toFinset.1 hk)
    exact hf.symm
  · obtain ⟨details', hdetails', hleft⟩ := details_reject order u hc file hg hs hp
      (keysOn (suppliers u c.db scope file graph.siblings id) file id)
    refine ⟨details', by rw [heffect.db]; exact hdetails', ?_⟩
    intro t tag htag
    rw [hleft t tag htag]
    refine exists_congr fun r => and_congr_right fun hr => ?_
    rw [mem_keysOn_suppliers hr hentry.canonical]

/-- A file that the repository tags with an alias of a tag it was rejected for. -/
def rejectedBefore : RejectedDb where
  db :=
    { twoSpellings with
      files := AList.singleton 1
        { blake3 := Hash.fill 1, size := 0, mime := none, width := none, height := none,
          durationMs := none, sha256 := none, sha256Seq := none, importedAt := 0 }
      rejections := {(2, 1, 2)} }
  rows := AList.insert (2, 1, 2) ⟨some "wrong", 5⟩ ∅
  same := by
    intro k
    rw [AList.mem_insert, Finset.mem_singleton]
    exact or_iff_left (AList.notMem_empty k)
  refs := by
    intro k hk
    obtain rfl := (AList.mem_insert _).1 hk |>.resolve_right (AList.notMem_empty k)
    decide

theorem rejectedBefore_constraints : rejectedBefore.db.Constraints :=
  .of_entries (by decide) (by decide) (by decide) (by decide) (by decide) (by decide)

theorem rejectedBefore_canonical : ∀ r ∈ rejectedBefore.db.tags.rows,
    r.2.Canonical .asciiText fun _ c _ => [c.toLower] := by
  have hparse : ∀ r ∈ rejectedBefore.db.tags.rows,
      Tag.parse .asciiText r.2.display = .ok r.2 := by decide +kernel
  intro r hr
  exact Tag.canonical_of_parse Unicode.asciiText_lowercases (hparse r hr)

theorem reject_hides_rejectedBefore :
    ∃ graph details, rejectedBefore.db.relationGraph (rejectedBefore.db.includedServices .merged) =
        some graph ∧
      rejectedBefore.db.displayTagsDetailed (.reversed Nat) .asciiText 1 .merged = some details ∧
      ∀ d ∈ details, ∃ id c', rejectedBefore.db.tags.valueOf id = some d.tag ∧
        reject .asciiText (fun _ => none) (fun _ => 7) rejectedBefore d.tag.display d.services
          (Hash.fill 1).toHex = (c', .ok ()) ∧
        (∀ f ≠ 1, c'.db.displayTagsDetailed (.reversed Nat) .asciiText f .merged =
          rejectedBefore.db.displayTagsDetailed (.reversed Nat) .asciiText f .merged) ∧
        ∃ details',
          c'.db.displayTagsDetailed (.reversed Nat) .asciiText 1 .merged = some details' ∧
          ∀ t tag, rejectedBefore.db.tags.valueOf t = some tag →
            ((∃ d' ∈ details', d'.tag = tag) ↔
              ∃ r ∈ rejectedBefore.db.detailRows .asciiText
                  (rejectedBefore.db.includedServices .merged) 1,
                ¬(r.tag = id ∧
                    r.service ∈ rejectedBefore.db.listSharedServices.map SharedService.id) ∧
                  t ∈ effectiveTags [r.tag] graph.siblings graph.parents) :=
  reject_hides Unicode.asciiText_lowercases (.reversed Nat) (fun _ => none) (fun _ => 7)
    rejectedBefore rejectedBefore_constraints (.of_entries (by decide)) rejectedBefore_canonical 1 _
    rfl .merged

theorem not_rejected_of_detailRow {db : Db} {services : List Nat} {r : DetailRow}
    (hr : r ∈ db.detailRows u services file) : (r.service, file, r.tag) ∉ db.rejections := by
  obtain ⟨⟨⟨f, t, s⟩, mrow⟩, he, rfl⟩ := List.mem_map.1 hr
  obtain ⟨rfl, _, _, hvisible⟩ := of_decide_eq_true (List.mem_filter.1 he).2
  have hreject := (Bool.and_eq_true_iff.1 hvisible).1
  simpa [rejectMatcher, RejectMatcher.isRejected] using hreject

theorem restores_iff {c' c'' : RejectedDb} {ks : Finset (Nat × Nat × Nat)} (h : Rejects c c' ks)
    (h' : Undoes c' c'' ks) : c''.db = c.db ↔ ∀ k ∈ ks, k ∉ c.db.rejections := by
  have hdb : c''.db = { c.db with rejections := c.db.rejections \ ks } := by
    rw [h'.db, h.db, Finset.union_sdiff_right]
  have hsame : c''.db = c.db ↔ c.db.rejections \ ks = c.db.rejections := by
    rw [hdb]
    constructor
    · intro heq
      exact congrArg Db.rejections heq
    · intro heq
      rw [heq]
  rw [hsame, sdiff_eq_left, Finset.disjoint_right]

theorem Rejects.rows_restored {c' c'' : RejectedDb} {ks : Finset (Nat × Nat × Nat)}
    (h : Rejects c c' ks) (h' : Undoes c' c'' ks) (hdb : c''.db = c.db) (k : Nat × Nat × Nat) :
    c''.rows.lookup k = c.rows.lookup k := by
  by_cases hk : k ∈ ks
  · have hfresh := (restores_iff h h').1 hdb k hk
    have hnone : k ∉ c''.rows := by
      rw [c''.same, hdb]
      exact hfresh
    rw [AList.lookup_eq_none.2 hnone, AList.lookup_eq_none.2 (mt (c.same k).1 hfresh)]
  · rw [h'.rows k hk, h.rows k (.inr hk)]

/-- **What Undo restores.** Undo leaves no rejection of the entry's tag by the services named, so it
restores the database just when none of them had rejected it before, and then with every row; that is
so when each carries the tag as it is shown. -/
theorem undo_restores (hu : u.Lowercases lower) (order : HashOrder Nat)
    (byPath : String → Option Nat) (now : String → Int) (c : RejectedDb) (hc : c.db.Constraints)
    (hnames : c.db.NamesUnique) (htags : ∀ r ∈ c.db.tags.rows, r.2.Canonical u lower) (file : Nat)
    (row : FileRow) (hfile : c.db.files.lookup file = some row) (scope : ReadScope) :
    ∃ graph details, c.db.relationGraph (c.db.includedServices scope) = some graph ∧
      c.db.displayTagsDetailed order u file scope = some details ∧
      ∀ d ∈ details, ∃ id c' c'', c.db.tags.valueOf id = some d.tag ∧
        reject u byPath now c d.tag.display d.services row.blake3.toHex = (c', .ok ()) ∧
        undoFlash u byPath c' d.tag.display d.services row.blake3.toHex = (c'', .ok ()) ∧
        (c''.db = c.db ↔ ∀ svc ∈ suppliers u c.db scope file graph.siblings id,
          (svc.id, file, id) ∉ c.db.rejections) ∧
        (c''.db = c.db → ∀ k, c''.rows.lookup k = c.rows.lookup k) ∧
        ((∀ svc ∈ suppliers u c.db scope file graph.siblings id,
            ∃ r ∈ c.db.detailRows u (c.db.includedServices scope) file,
              r.tag = id ∧ r.service = svc.id) → c''.db = c.db) := by
  obtain ⟨graph, hg, hs, hp⟩ := relationGraph_spec hc scope
  obtain ⟨details, hdetails, _, hexplained⟩ := displayTagsDetailed_spec order u file hc hg hs hp
  refine ⟨graph, details, hg, hdetails, ?_⟩
  intro d hd
  obtain ⟨id, _, hentry⟩ := hexplained d hd
  have hnamed : Names u byPath c.db row.blake3.toHex d.tag.display file id :=
    names_of_explained hu hc htags hfile hentry
  obtain ⟨c', hreject, hrejects⟩ := hnamed.reject now fun _ => suppliers_resolve hnames
  have hsvcs : ∀ svc ∈ suppliers u c.db scope file graph.siblings id,
      c'.db.sharedServiceByName svc.name = some svc := by
    rw [hrejects.db]
    exact fun _ => suppliers_resolve hnames
  obtain ⟨c'', hundo, hundoes⟩ := (hnamed.of_rejections hrejects.db).undoFlash hsvcs
  rw [← services_eq_suppliers hentry] at hreject hundo
  have hrestores := restores_iff hrejects hundoes
  have hfresh : c''.db = c.db ↔ ∀ svc ∈ suppliers u c.db scope file graph.siblings id,
      (svc.id, file, id) ∉ c.db.rejections := by
    rw [hrestores]
    simp only [keysOn, List.mem_toFinset, List.forall_mem_map]
  refine ⟨id, c', c'', hentry.text, hreject, hundo, hfresh, hrejects.rows_restored hundoes, ?_⟩
  intro hcarried
  refine hfresh.2 ?_
  intro svc hsvc hrejected
  obtain ⟨r, hr, htag, hservice⟩ := hcarried svc hsvc
  rw [← htag, ← hservice] at hrejected
  exact not_rejected_of_detailRow hr hrejected

theorem undo_restores_rejectedBefore :
    ∃ graph details, rejectedBefore.db.relationGraph (rejectedBefore.db.includedServices .merged) =
        some graph ∧
      rejectedBefore.db.displayTagsDetailed (.reversed Nat) .asciiText 1 .merged = some details ∧
      ∀ d ∈ details, ∃ id c' c'', rejectedBefore.db.tags.valueOf id = some d.tag ∧
        reject .asciiText (fun _ => none) (fun _ => 7) rejectedBefore d.tag.display d.services
          (Hash.fill 1).toHex = (c', .ok ()) ∧
        undoFlash .asciiText (fun _ => none) c' d.tag.display d.services
          (Hash.fill 1).toHex = (c'', .ok ()) ∧
        (c''.db = rejectedBefore.db ↔
          ∀ svc ∈ suppliers .asciiText rejectedBefore.db .merged 1 graph.siblings id,
            (svc.id, 1, id) ∉ rejectedBefore.db.rejections) ∧
        (c''.db = rejectedBefore.db → ∀ k, c''.rows.lookup k = rejectedBefore.rows.lookup k) ∧
        ((∀ svc ∈ suppliers .asciiText rejectedBefore.db .merged 1 graph.siblings id,
            ∃ r ∈ rejectedBefore.db.detailRows .asciiText
                (rejectedBefore.db.includedServices .merged) 1,
              r.tag = id ∧ r.service = svc.id) → c''.db = rejectedBefore.db) :=
  undo_restores Unicode.asciiText_lowercases (.reversed Nat) (fun _ => none) (fun _ => 7)
    rejectedBefore rejectedBefore_constraints (.of_entries (by decide)) rejectedBefore_canonical 1 _
    rfl .merged

end

end Daemon
end Naiad
