import Naiad.Core.Tag
import Naiad.Db.Domains
import Naiad.Db.Services
import Naiad.Lib.Sort
import Naiad.Netproto.Sign
import Naiad.Server.Reply

/-!
# Naiad.Daemon.DomainPull

One leg of a pull: what is read of the database in one lock, the requests for the buckets of the
owned files, and the merge of their replies. A delta asks each bucket from the stored cursor, or
from the beginning where a file is new, and starts over once when the repository answers with a
cursor behind the stored one.

* `Answers`: what the replies so far say, key by key.
* `exact_merge`: a leg that asked every bucket from the beginning leaves, of every file it read,
  the current tags of a store that answered.
-/

namespace Naiad
namespace Daemon

open Lib Netproto Db Server RepoStore

/-- The arm of a pull, with the prefix width it asks at. -/
inductive FetchMode
  | whole
  | buckets (prefixBits : Nat)
  | delta (prefixBits : Nat)
deriving DecidableEq

def FetchMode.isDelta : FetchMode → Bool
  | .delta _ => true
  | _ => false

def domainKey (domain : HashDomain) (row : FileRow) : Option Hash :=
  match domain with
  | .blake3 => some row.blake3
  | .sha256 => row.sha256

/-- The owned files of a domain, by their hash in it and their content hash. -/
def ownedIn (db : Naiad.Db) (domain : HashDomain) : List (Hash × Hash) :=
  db.files.entries.filterMap fun e => (domainKey domain e.2).map fun key => (key, e.2.blake3)

/-- `max_file_id`, or `max_sha256_seq`. -/
def maxMarker (db : Naiad.Db) : HashDomain → Nat
  | .blake3 => db.maxFileId
  | .sha256 => db.sha256SeqCounter

/-- The buckets of the files that came into the domain after a marker. -/
def newKeys (db : Naiad.Db) (domain : HashDomain) (prefixBits marker : Nat) : List String :=
  sortDedup (db.files.entries.filterMap fun e =>
    match domain with
    | .blake3 => if e.1 > marker then some (bucketKey e.2.blake3 prefixBits) else none
    | .sha256 =>
      if e.2.sha256Seq.any (· > marker) then e.2.sha256.map fun h => bucketKey h prefixBits else none)

def FetchMode.keys (owned : List (Hash × Hash)) : FetchMode → List String
  | .whole => []
  | .buckets bits | .delta bits => sortDedup (owned.map fun o => bucketKey o.1 bits)

/-- The tag a text of the repository stands for. -/
def readTag (u : Unicode) (text : String) : Option Tag := (Tag.parse u text).toOption

structure Leg where
  domain : HashDomain
  mode : FetchMode
  owned : List (Hash × Hash)
  keys : List String
  storedCursor : Option Nat
  storedMarker : Option Nat
  currentMarker : Nat
  since : List Nat
  retried : Bool
  /-- How many keys the replies cover, and the least cursor among them. -/
  served : Nat
  cursor : Option Nat
  changes : List DeltaMapping
  tags : Table Hash (List OriginTag)

namespace Leg

/-- The cursors to ask from: zero for the bucket of a new file, and for all when no marker is stored. -/
def firstSince (db : Naiad.Db) (domain : HashDomain) (keys : List String) (prefixBits : Nat)
    (cursor marker : Option Nat) : List Nat :=
  keys.map fun key =>
    if marker.isNone then 0
    else if key ∈ newKeys db domain prefixBits (marker.getD 0) then 0 else cursor.getD 0

/-- The reads of one lock. -/
def read (db : Naiad.Db) (service : Nat) (domain : HashDomain) (mode : FetchMode) : Leg :=
  let owned := ownedIn db domain
  let cursor := db.mappingCursor service domain.asStr
  let marker := (db.pullState.lookup (service, domain.asStr)).bind PullState.lastPullFileMarker
  { domain := domain
    mode := mode
    owned := owned
    keys := mode.keys owned
    storedCursor := cursor
    storedMarker := marker
    currentMarker := maxMarker db domain
    since :=
      match mode with
      | .delta bits => firstSince db domain (mode.keys owned) bits cursor marker
      | _ => []
    retried := false
    served := 0
    cursor := none
    changes := []
    tags := ∅ }

/-- Every key has been asked for; an empty list is asked for once. -/
def complete (leg : Leg) : Bool := leg.cursor.isSome && leg.keys.length ≤ leg.served

def minCursor (leg : Leg) (reply : Nat) : Option Nat := some (leg.cursor.elim reply (min · reply))

/-- A finished fetch whose cursor is behind the stored one is made again from the beginning. -/
def resync (leg : Leg) : Leg :=
  if leg.complete && !leg.retried &&
      leg.storedCursor.any (fun stored => leg.cursor.any (· < stored)) then
    { leg with
      since := leg.keys.map fun _ => 0
      retried := true
      served := 0
      cursor := none
      changes := [] }
  else leg

/-- The next keys, and their reply. A refused request leaves what has been fetched: the client asks
for fewer keys or gives the pull up. -/
def ask (leg : Leg) (st : RepoStore) (budget n : Nat) : Leg :=
  if leg.complete then leg
  else
    match leg.mode with
    | .whole => { leg with cursor := some st.mappingCursor, tags := st.snapshot }
    | .buckets bits =>
      match st.nativeBuckets budget bits ((leg.keys.drop leg.served).take n) none with
      | .ok (.snapshot cursor tags) =>
        { leg with
          served := leg.served + n
          cursor := leg.minCursor cursor
          tags := extendTags leg.tags tags }
      | _ => leg
    | .delta bits =>
      match st.nativeBuckets budget bits ((leg.keys.drop leg.served).take n)
          (some ((leg.since.drop leg.served).take n)) with
      | .ok (.delta cursor changes) =>
        { leg with
          served := leg.served + n
          cursor := leg.minCursor cursor
          changes := leg.changes ++ changes }.resync
      | _ => leg

/-! ## The merge -/

/-- The content hash of a hash of the domain; a SHA-256 that is not owned has none. -/
def translate (leg : Leg) (h : Hash) : Option Hash :=
  match leg.domain with
  | .blake3 => some h
  | .sha256 => (Table.collect leg.owned).lookup h

def fullBuckets (leg : Leg) (prefixBits : Nat) : List (String × String) :=
  (leg.keys.zip leg.since).filterMap fun p =>
    if p.2 = 0 then
      (Hash.parse p.1).map fun lo => (bucketKey lo prefixBits, bucketUpper lo prefixBits)
    else none

/-- Rows whose tag does not parse are discarded. -/
def mappingDeltaInput (u : Unicode) (d : DeltaMapping) : Option MappingDeltaInput :=
  (readTag u d.tag).map fun tag => ⟨d.hash, tag, d.status, d.seq, d.origin⟩

def deltaInputs (u : Unicode) (leg : Leg) : List MappingDeltaInput :=
  (leg.changes.filterMap (mappingDeltaInput u)).filterMap fun c =>
    (leg.translate c.hash).map fun hash => { c with hash }

def parsedTags (u : Unicode) (tags : List OriginTag) : List (Tag × Option String) :=
  tags.filterMap fun o => (readTag u o.tag).map fun tag => (tag, o.origin)

/-- The entries of a snapshot; one without a parseable tag is left out. -/
def entries (u : Unicode) (leg : Leg) : TaggedEntries :=
  (leg.tags.entries.filterMap fun e =>
    if parsedTags u e.2 = [] then none else some (e.1, parsedTags u e.2)).filterMap fun e =>
      (leg.translate e.1).map fun hash => (hash, e.2)

def pulled (u : Unicode) (service : Nat) (now : Int) (leg : Leg) : Pulled :=
  { service := service
    domain := leg.domain.asStr
    merge :=
      match leg.mode with
      | .delta bits =>
        .delta (leg.deltaInputs u) (leg.fullBuckets bits) (leg.cursor.getD 0) leg.currentMarker
      | _ => .snapshot (leg.entries u)
    now := now }

/-- A repository without a cursor drops the state; a whole one pulled by content covers every file. -/
def recordDomainCursor (db : Naiad.Db) (service : Nat) (leg : Leg) : Naiad.Db :=
  if leg.cursor.getD 0 > 0 then
    db.committed (db.setMappingPullState service leg.domain.asStr (leg.cursor.getD 0)
      (if leg.mode = .whole ∧ leg.domain = .blake3 then db.maxFileId else leg.currentMarker))
  else db.clearMappingPullState service leg.domain.asStr

def merge (u : Unicode) (service : Nat) (now : Int) (leg : Leg) (db : Naiad.Db) : Naiad.Db :=
  match leg.mode with
  | .delta _ => db.pull (leg.pulled u service now)
  | _ => recordDomainCursor (db.pull (leg.pulled u service now)) service leg

end Leg

section

variable {db : Naiad.Db} {leg : Leg} {st : RepoStore} {held : List RepoStore}

/-! ## What was read -/

/-- A leg keeps what it read: the keys of its mode, and files that no two entries share. -/
structure Leg.Planned (leg : Leg) : Prop where
  keys : leg.keys = leg.mode.keys leg.owned
  native : leg.domain = .blake3 → ∀ o ∈ leg.owned, o.1 = o.2
  unique : ∀ o ∈ leg.owned, ∀ o' ∈ leg.owned, o.2 = o'.2 → o = o'

theorem mem_ownedIn {domain : HashDomain} {o : Hash × Hash} :
    o ∈ ownedIn db domain ↔
      ∃ f row, db.files.lookup f = some row ∧ domainKey domain row = some o.1 ∧ row.blake3 = o.2 := by
  simp only [ownedIn, List.mem_filterMap, Option.map_eq_some_iff]
  constructor
  · rintro ⟨e, he, key, hkey, rfl⟩
    exact ⟨e.1, e.2, Table.mem_entries.1 he, hkey, rfl⟩
  · rintro ⟨f, row, hl, hkey, hblake⟩
    exact ⟨⟨f, row⟩, Table.mem_entries.2 hl, o.1, hkey, by rw [hblake]⟩

theorem planned_read (hc : db.FilesUnique) (service : Nat) (domain : HashDomain)
    (mode : FetchMode) : (Leg.read db service domain mode).Planned := by
  refine ⟨rfl, ?_, ?_⟩
  · intro hdomain o ho
    cases hdomain
    obtain ⟨_, row, _, hkey, hblake⟩ := mem_ownedIn.1 ho
    exact (Option.some.inj hkey).symm.trans hblake
  · intro o ho o' ho' heq
    obtain ⟨f, row, hl, hkey, hblake⟩ := mem_ownedIn.1 ho
    obtain ⟨f', row', hl', hkey', hblake'⟩ := mem_ownedIn.1 ho'
    have hfile : f = f' :=
      hc f f' row row' hl hl' (hblake.trans (heq.trans hblake'.symm))
    rw [← hfile, hl] at hl'
    cases hl'
    rw [hkey] at hkey'
    exact Prod.ext (Option.some.inj hkey') heq

/-- No two of the files have one hash in the domain. -/
def Leg.Unshared (leg : Leg) : Prop :=
  ∀ o ∈ leg.owned, ∀ o' ∈ leg.owned, o.1 = o'.1 → o.2 = o'.2

instance (leg : Leg) : Decidable leg.Unshared :=
  inferInstanceAs (Decidable (∀ o ∈ leg.owned, ∀ o' ∈ leg.owned, o.1 = o'.1 → o.2 = o'.2))

/-- A file is told by its own hash in the domain, and by no other. -/
theorem Leg.Planned.translate_iff (h : leg.Planned) (hu : leg.Unshared) {o : Hash × Hash}
    (ho : o ∈ leg.owned) {hash : Hash} : leg.translate hash = some o.2 ↔ hash = o.1 := by
  unfold translate
  cases hdomain : leg.domain with
  | blake3 =>
    rw [h.native hdomain o ho]
    exact Option.some_inj
  | sha256 =>
    constructor
    · intro hl
      exact congrArg Prod.fst (h.unique _ (Table.collect_some hl) _ ho rfl)
    · rintro rfl
      exact Table.collect_of_mem ho fun w hw => hu _ hw _ ho rfl

/-! ## What the replies say -/

theorem covers_keys {keys : List String} {bits : Nat}
    (hkeys : ∀ key ∈ keys, ∃ lo, key = bucketKey lo bits) {h : Hash} :
    Covers keys bits h ↔ bucketKey h bits ∈ keys := by
  constructor
  · rintro ⟨key, hmem, lo, hparse, heq⟩
    obtain ⟨lo', rfl⟩ := hkeys key hmem
    rw [parse_bucketKey] at hparse
    rw [heq, ← Option.some.inj hparse, bucketKey_masked]
    exact hmem
  · intro hmem
    obtain ⟨lo, hlo⟩ := hkeys _ hmem
    exact ⟨_, hmem, masked lo bits, by rw [hlo, parse_bucketKey], by rw [hlo, bucketKey_masked]⟩

/-- The answers to some keys: nothing of any other key, and of each key what is true of a store
that answered. -/
structure Answers {α : Type} (bits : Nat) (hash : α → Hash) (truth : RepoStore → α → Prop)
    (good : RepoStore → Prop) (held : List RepoStore) (keys : List String) (said : α → Prop) :
    Prop where
  named : ∀ a, said a → bucketKey (hash a) bits ∈ keys
  rows : ∀ key ∈ keys, ∃ st ∈ held, good st ∧
    ∀ a, bucketKey (hash a) bits = key → (said a ↔ truth st a)

section Answers

variable {α : Type} {bits : Nat} {hash : α → Hash} {truth : RepoStore → α → Prop}
  {good : RepoStore → Prop} {keys : List String} {said said' : α → Prop}

theorem Answers.nil (h : ∀ a, ¬ said a) : Answers bits hash truth good held [] said :=
  ⟨fun a ha => absurd ha (h a), fun _ hkey => by cases hkey⟩

theorem Answers.mono {held' : List RepoStore} (h : Answers bits hash truth good held keys said)
    (hsub : held ⊆ held') : Answers bits hash truth good held' keys said := by
  refine ⟨h.named, ?_⟩
  intro key hkey
  obtain ⟨st, hst, hrows⟩ := h.rows key hkey
  exact ⟨st, hsub hst, hrows⟩

/-- A store answers further keys. -/
theorem Answers.window {window : List String} (h : Answers bits hash truth good held keys said)
    (hst : st ∈ held) (hgood : good st) (hnew : ∀ key ∈ window, key ∉ keys)
    (hsaid : ∀ a, said' a ↔ said a ∨ bucketKey (hash a) bits ∈ window ∧ truth st a) :
    Answers bits hash truth good held (keys ++ window) said' := by
  refine ⟨?_, ?_⟩
  · intro a ha
    rcases (hsaid a).1 ha with hold | ⟨hkey, _⟩
    · exact List.mem_append_left _ (h.named a hold)
    · exact List.mem_append_right _ hkey
  · intro key hkey
    by_cases hold : key ∈ keys
    · obtain ⟨st', hst', hgood', hrows⟩ := h.rows key hold
      refine ⟨st', hst', hgood', ?_⟩
      intro a ha
      have hwindow : ¬ (bucketKey (hash a) bits ∈ window ∧ truth st a) := by
        rintro ⟨hkey', _⟩
        rw [ha] at hkey'
        exact hnew key hkey' hold
      rw [hsaid, hrows a ha]
      exact or_iff_left hwindow
    · have hwindow : key ∈ window := (List.mem_append.1 hkey).resolve_left hold
      refine ⟨st, hst, hgood, ?_⟩
      intro a ha
      have hnone : ¬ said a := fun hs => hold (ha ▸ h.named a hs)
      rw [hsaid, ha]
      simp [hnone, hwindow]

end Answers

/-- A store that writes made from nothing: its sequence numbers start at one. -/
structure Grown (st : RepoStore) : Prop where
  sound : st.Sound
  started : Advances 0 (fun _ => none) st.log

theorem Grown.seq_pos (h : Grown st) {hash : Hash} {t : String} {r : Server.MappingRow}
    (hrow : st.row hash t = some r) : 0 < r.seq := by
  have hlog : st.log (hash, t) = some (r.status, r.seq) := RepoStore.log_eq_some.2 ⟨r, hrow, rfl, rfl⟩
  rcases h.started (hash, t) with hnone | ⟨v, n, heq, hn⟩
  · rw [hlog] at hnone
    cases hnone
  · rw [hlog] at heq
    cases heq
    exact hn

/-- No hash has two rows whose texts stand for one tag. -/
def Legible (u : Unicode) (st : RepoStore) : Prop :=
  ∀ r ∈ st.joinRows, ∀ r' ∈ st.joinRows, r.1 = r'.1 → (readTag u r.2.1).isSome →
    readTag u r.2.1 = readTag u r'.2.1 → r.2.1 = r'.2.1

instance (u : Unicode) (st : RepoStore) : Decidable (Legible u st) :=
  inferInstanceAs (Decidable (∀ r ∈ st.joinRows, ∀ r' ∈ st.joinRows, r.1 = r'.1 →
    (readTag u r.2.1).isSome → readTag u r.2.1 = readTag u r'.2.1 → r.2.1 = r'.2.1))

theorem Legible.text_eq {u : Unicode} (h : Legible u st) (hs : st.Sound) {hash : Hash}
    {t t' : String} {r r' : Server.MappingRow} {tag : Tag} (hrow : st.row hash t = some r)
    (hrow' : st.row hash t' = some r') (ht : readTag u t = some tag)
    (ht' : readTag u t' = some tag) : t = t' :=
  h (hash, t, r) ((mem_joinRows hs).2 hrow) (hash, t', r') ((mem_joinRows hs).2 hrow') rfl
    (by rw [ht]; rfl) (ht.trans ht'.symm)

/-- A change is a row of the store. -/
def RowOf (st : RepoStore) (d : DeltaMapping) : Prop :=
  st.row d.hash d.tag = some ⟨d.status, d.seq, d.origin⟩

namespace Leg

/-- A delta leg in a round that asks every bucket from the beginning. -/
structure Fresh (u : Unicode) (bits : Nat) (held : List RepoStore) (leg : Leg) : Prop where
  mode : leg.mode = .delta bits
  since : leg.since = leg.keys.map fun _ => 0
  answers : Answers bits DeltaMapping.hash RowOf (fun st => Grown st ∧ Legible u st) held
    (leg.keys.take leg.served) (· ∈ leg.changes)

/-- A delta leg that a store has answered with a cursor behind the stored one. -/
structure Behind (bits : Nat) (leg : Leg) : Prop where
  mode : leg.mode = .delta bits
  retried : leg.retried = false
  complete : leg.complete = false
  behind : ∃ stored cursor, leg.storedCursor = some stored ∧ leg.cursor = some cursor ∧
    cursor < stored

/-- A delta leg as it was read: without a marker, or from a cursor of zero, it asks every bucket from
the beginning. -/
structure Unasked (bits : Nat) (leg : Leg) : Prop where
  mode : leg.mode = .delta bits
  retried : leg.retried = false
  served : leg.served = 0
  cursor : leg.cursor = none
  changes : leg.changes = []
  since : leg.storedMarker = none ∨ leg.storedCursor.getD 0 = 0 →
    leg.since = leg.keys.map fun _ => 0

/-- A leg of bucket snapshots. -/
structure Gathered (bits : Nat) (held : List RepoStore) (leg : Leg) : Prop where
  mode : leg.mode = .buckets bits
  answers : Answers bits Prod.fst (fun st p => st.Current p.1 p.2) RepoStore.Sound held
    (leg.keys.take leg.served) (· ∈ pairs leg.tags)

/-- A leg of one snapshot. -/
structure Whole (held : List RepoStore) (leg : Leg) : Prop where
  mode : leg.mode = .whole
  tags : leg.complete = true → ∃ st ∈ held, st.Sound ∧ leg.tags = st.snapshot

/-! ## One request -/

section

variable {u : Unicode} {bits budget n : Nat}

theorem Planned.key_eq (h : leg.Planned) (hmode : leg.mode = .delta bits ∨ leg.mode = .buckets bits) :
    leg.keys.Nodup ∧ ∀ key, key ∈ leg.keys ↔ ∃ o ∈ leg.owned, bucketKey o.1 bits = key := by
  have hkeys : leg.keys = sortDedup (leg.owned.map fun o => bucketKey o.1 bits) := by
    rw [h.keys]
    rcases hmode with hmode | hmode <;> rw [hmode] <;> rfl
  rw [hkeys]
  refine ⟨sortDedup_nodup _, ?_⟩
  intro key
  simp

theorem take_window (l : List String) (k n : Nat) :
    l.take (k + n) = l.take k ++ (l.drop k).take n := List.take_add

theorem not_mem_taken {l : List String} (h : l.Nodup) (k n : Nat) {key : String}
    (hkey : key ∈ (l.drop k).take n) : key ∉ l.take k := by
  have hsplit : (l.take k ++ l.drop k).Nodup := by rw [List.take_append_drop]; exact h
  exact fun htaken => List.disjoint_of_nodup_append hsplit htaken (List.mem_of_mem_take hkey)

theorem covers_window (h : leg.Planned) (hmode : leg.mode = .delta bits ∨ leg.mode = .buckets bits)
    (k n : Nat) {hash : Hash} : Covers ((leg.keys.drop k).take n) bits hash ↔
      bucketKey hash bits ∈ (leg.keys.drop k).take n := by
  refine covers_keys ?_
  intro key hkey
  obtain ⟨o, _, ho⟩ := ((h.key_eq hmode).2 key).1 (List.mem_of_mem_drop (List.mem_of_mem_take hkey))
  exact ⟨o.1, ho.symm⟩

theorem Fresh.mono {held' : List RepoStore} (h : leg.Fresh u bits held) (hsub : held ⊆ held') :
    leg.Fresh u bits held' := ⟨h.mode, h.since, h.answers.mono hsub⟩

theorem Gathered.mono {held' : List RepoStore} (h : leg.Gathered bits held) (hsub : held ⊆ held') :
    leg.Gathered bits held' := ⟨h.mode, h.answers.mono hsub⟩

theorem Whole.mono {held' : List RepoStore} (h : leg.Whole held) (hsub : held ⊆ held') :
    leg.Whole held' := by
  refine ⟨h.mode, ?_⟩
  intro hcomplete
  obtain ⟨st, hst, hrest⟩ := h.tags hcomplete
  exact ⟨st, hsub hst, hrest⟩

/-- A round from the beginning with no reply yet. -/
theorem fresh_start (hmode : leg.mode = .delta bits) (hsince : leg.since = leg.keys.map fun _ => 0)
    (hserved : leg.served = 0) (hchanges : leg.changes = []) : leg.Fresh u bits held := by
  refine ⟨hmode, hsince, ?_⟩
  rw [hserved, List.take_zero]
  refine Answers.nil ?_
  intro d hd
  rw [hchanges] at hd
  cases hd

theorem Fresh.resync (h : leg.Fresh u bits held) : leg.resync.Fresh u bits held := by
  unfold Leg.resync
  split
  · exact fresh_start h.mode rfl rfl rfl
  · exact h

theorem resync_frame (leg : Leg) : leg.resync.domain = leg.domain ∧ leg.resync.mode = leg.mode ∧
    leg.resync.owned = leg.owned ∧ leg.resync.keys = leg.keys := by
  unfold Leg.resync
  split
  · exact ⟨rfl, rfl, rfl, rfl⟩
  · exact ⟨rfl, rfl, rfl, rfl⟩

/-- A request changes nothing of what was read. -/
theorem ask_frame (leg : Leg) (st : RepoStore) (budget n : Nat) :
    (leg.ask st budget n).domain = leg.domain ∧ (leg.ask st budget n).mode = leg.mode ∧
      (leg.ask st budget n).owned = leg.owned ∧ (leg.ask st budget n).keys = leg.keys := by
  unfold Leg.ask
  split
  · exact ⟨rfl, rfl, rfl, rfl⟩
  · cases hmode : leg.mode with
    | whole => exact ⟨rfl, rfl, rfl, rfl⟩
    | buckets bits =>
      simp only
      split
      · exact ⟨rfl, rfl, rfl, rfl⟩
      · exact ⟨rfl, hmode, rfl, rfl⟩
    | delta bits =>
      simp only
      split
      · exact resync_frame _
      · exact ⟨rfl, hmode, rfl, rfl⟩

theorem Planned.ask (h : leg.Planned) : (leg.ask st budget n).Planned := by
  obtain ⟨hdomain, hmode, howned, hkeys⟩ := leg.ask_frame st budget n
  refine ⟨?_, ?_, ?_⟩
  · rw [hkeys, hmode, howned]
    exact h.keys
  · rw [hdomain, howned]
    exact h.native
  · rw [howned]
    exact h.unique

theorem Unshared.ask (h : leg.Unshared) : (leg.ask st budget n).Unshared := by
  unfold Unshared
  rw [(leg.ask_frame st budget n).2.2.1]
  exact h

/-- A request of a delta leg is refused, or answered with the store's cursor and some rows. -/
theorem ask_delta (hmode : leg.mode = .delta bits) (hopen : leg.complete = false)
    (st : RepoStore) (budget n : Nat) :
    leg.ask st budget n = leg ∨ ∃ changes,
      st.nativeBuckets budget bits ((leg.keys.drop leg.served).take n)
        (some ((leg.since.drop leg.served).take n)) = .ok (.delta st.mappingCursor changes) ∧
      leg.ask st budget n =
        { leg with
          served := leg.served + n
          cursor := leg.minCursor st.mappingCursor
          changes := leg.changes ++ changes }.resync := by
  simp only [ask, hopen, hmode, Bool.false_eq_true, if_false]
  cases hreq : st.nativeBuckets budget bits ((leg.keys.drop leg.served).take n)
      (some ((leg.since.drop leg.served).take n)) with
  | error e => exact .inl rfl
  | ok reply =>
    cases reply with
    | snapshot cursor tags => exact .inl rfl
    | delta cursor changes =>
      right
      have hcursor : cursor = st.mappingCursor := by
        simp only [nativeBuckets] at hreq
        split at hreq
        · cases hreq
        · split at hreq
          · cases hreq
          · split at hreq
            · cases hreq
            · cases hreq
              rfl
      subst hcursor
      exact ⟨changes, rfl, rfl⟩

theorem Fresh.ask (h : leg.Fresh u bits held) (hp : leg.Planned) (hst : st ∈ held)
    (hgrown : Grown st) (hlegible : Legible u st) : (leg.ask st budget n).Fresh u bits held := by
  cases hcomplete : leg.complete with
  | true =>
    simp only [Leg.ask, hcomplete, if_true]
    exact h
  | false =>
    rcases ask_delta h.mode hcomplete st budget n with heq | ⟨changes, hreq, heq⟩
    · rw [heq]
      exact h
    · rw [heq]
      refine Fresh.resync ⟨h.mode, h.since, ?_⟩
      rw [h.since, ← List.map_drop, ← List.map_take] at hreq
      obtain ⟨_, hmem⟩ := nativeBuckets_delta hgrown.sound hreq
      show Answers bits DeltaMapping.hash RowOf _ held (leg.keys.take (leg.served + n)) _
      rw [take_window]
      refine h.answers.window hst ⟨hgrown, hlegible⟩
        (fun key hkey => not_mem_taken (hp.key_eq (.inl h.mode)).1 _ _ hkey) ?_
      intro d
      rw [List.mem_append, hmem, covers_window hp (.inl h.mode)]
      refine or_congr_right (and_congr_right fun _ => ?_)
      constructor
      · rintro ⟨_, hrow⟩
        exact hrow
      · intro hrow
        have hpos := hgrown.seq_pos hrow
        exact ⟨by simpa using hpos, hrow⟩

/-- Once a store has answered from behind the stored cursor, the leg ends in a round from the
beginning. -/
theorem Behind.of_reply (hmode : leg.mode = .delta bits) (hretried : leg.retried = false)
    (stored cursor : Nat) (hstored : leg.storedCursor = some stored)
    (hcursor : leg.cursor = some cursor) (hlt : cursor < stored) :
    leg.resync.Behind bits ∨ leg.resync.Fresh u bits held := by
  unfold Leg.resync
  cases hcomplete : leg.complete with
  | false =>
    left
    simp only [Bool.false_and, Bool.false_eq_true, if_false]
    exact ⟨hmode, hretried, hcomplete, stored, cursor, hstored, hcursor, hlt⟩
  | true =>
    right
    simp only [hretried, hstored, hcursor, Option.any_some, hlt, decide_true, Bool.not_false,
      Bool.and_self, if_true]
    exact fresh_start hmode rfl rfl rfl

theorem Behind.ask (h : leg.Behind bits) :
    (leg.ask st budget n).Behind bits ∨ (leg.ask st budget n).Fresh u bits held := by
  obtain ⟨stored, cursor, hstored, hcursor, hlt⟩ := h.behind
  rcases ask_delta h.mode h.complete st budget n with heq | ⟨changes, _, heq⟩
  · rw [heq]
    exact .inl h
  · rw [heq]
    refine Behind.of_reply h.mode h.retried stored (min cursor st.mappingCursor) hstored ?_
      (lt_of_le_of_lt (Nat.min_le_left _ _) hlt)
    simp [minCursor, hcursor]

/-- The first request of a leg without a stored marker, or of one whose stored cursor is past the
store's. -/
theorem Unasked.ask (h : leg.Unasked bits) (hp : leg.Planned) (hst : st ∈ held)
    (hgrown : Grown st) (hlegible : Legible u st)
    (hfull : leg.storedMarker = none ∨ leg.storedCursor.getD 0 = 0 ∨
      st.mappingCursor < leg.storedCursor.getD 0) :
    (leg.ask st budget n).Unasked bits ∨ (leg.ask st budget n).Behind bits ∨
      (leg.ask st budget n).Fresh u bits held := by
  by_cases hzero : leg.storedMarker = none ∨ leg.storedCursor.getD 0 = 0
  · exact .inr (.inr ((fresh_start h.mode (h.since hzero) h.served h.changes).ask hp hst hgrown
      hlegible))
  · have hlt : st.mappingCursor < leg.storedCursor.getD 0 := by
      rw [← or_assoc] at hfull
      exact hfull.resolve_left hzero
    have hopen : leg.complete = false := by simp [Leg.complete, h.cursor]
    rcases ask_delta h.mode hopen st budget n with heq | ⟨changes, _, heq⟩
    · rw [heq]
      exact .inl h
    · right
      rw [heq]
      cases hstored : leg.storedCursor with
      | none => simp [hstored] at hlt
      | some stored =>
        rw [hstored, Option.getD_some] at hlt
        exact Behind.of_reply h.mode h.retried stored st.mappingCursor rfl
          (by simp [minCursor, h.cursor]) hlt

theorem mem_pairs_extendTags {tags part : Table Hash (List OriginTag)} {p : Hash × String} :
    p ∈ pairs (extendTags tags part) ↔ p ∈ pairs tags ∨ p ∈ pairs part := by
  obtain ⟨hash, t⟩ := p
  rw [mem_pairs, mem_pairs, mem_pairs, lookup_extendTags]
  cases part.lookup hash with
  | none => simp
  | some os => simp [or_and_right, exists_or]

theorem Gathered.ask (h : leg.Gathered bits held) (hp : leg.Planned) (hst : st ∈ held)
    (hs : st.Sound) : (leg.ask st budget n).Gathered bits held := by
  unfold Leg.ask
  split
  · exact h
  · simp only [h.mode]
    cases hreq : st.nativeBuckets budget bits ((leg.keys.drop leg.served).take n) none with
    | error e => exact h
    | ok reply =>
      cases reply with
      | delta cursor changes => exact h
      | snapshot cursor tags =>
        obtain ⟨_, hmem⟩ := nativeBuckets_snapshot hs hreq
        refine ⟨rfl, ?_⟩
        show Answers bits Prod.fst _ _ held (leg.keys.take (leg.served + n)) _
        rw [take_window]
        refine h.answers.window hst hs
          (fun key hkey => not_mem_taken (hp.key_eq (.inr h.mode)).1 _ _ hkey) ?_
        intro p
        rw [mem_pairs_extendTags, hmem, covers_window hp (.inr h.mode)]

theorem Whole.ask (h : leg.Whole held) (hst : st ∈ held) (hs : st.Sound) :
    (leg.ask st budget n).Whole held := by
  unfold Leg.ask
  split
  · exact h
  · simp only [h.mode]
    exact ⟨rfl, fun _ => ⟨st, hst, hs, rfl⟩⟩

end

/-! ## The merge of a full leg -/

/-- A hash carries a tag in a store. -/
def Reads (u : Unicode) (st : RepoStore) (hash : Hash) (tag : Tag) : Prop :=
  ∃ t, st.Current hash t ∧ readTag u t = some tag

/-- The files of the leg have the tags of their hashes, each those of a store that answered. -/
def Exact (u : Unicode) (service : Nat) (held : List RepoStore) (leg : Leg) (db : Naiad.Db) : Prop :=
  ∀ o ∈ leg.owned, ∀ f row, db.files.lookup f = some row → row.blake3 = o.2 →
    domainKey leg.domain row = some o.1 →
      ∃ st ∈ held, ∀ tag, db.carries leg.domain.asStr f tag service = true ↔ Reads u st o.1 tag

theorem keyText_asStr (domain : HashDomain) (row : FileRow) :
    keyText domain.asStr row = (domainKey domain row).map Hash.toHex := by
  cases domain with
  | blake3 => rfl
  | sha256 => rfl

section

variable {u : Unicode} {bits service : Nat} {now : Int} {o : Hash × Hash} {f : Nat}
  {row : FileRow}

theorem mem_deltaInputs {c : MappingDeltaInput} : c ∈ leg.deltaInputs u ↔
    ∃ d ∈ leg.changes, ∃ tag hash, readTag u d.tag = some tag ∧ leg.translate d.hash = some hash ∧
      c = ⟨hash, tag, d.status, d.seq, d.origin⟩ := by
  simp only [deltaInputs, mappingDeltaInput, List.mem_filterMap, Option.map_eq_some_iff]
  constructor
  · rintro ⟨c', ⟨d, hd, tag, htag, rfl⟩, hash, hhash, rfl⟩
    exact ⟨d, hd, tag, hash, htag, hhash, rfl⟩
  · rintro ⟨d, hd, tag, hash, htag, hhash, rfl⟩
    exact ⟨_, ⟨d, hd, tag, htag, rfl⟩, hash, hhash, rfl⟩

theorem mem_entries {hash : Hash} {tag : Tag} :
    (∃ e ∈ leg.entries u, e.1 = hash ∧ e.2.any (·.1 = tag) = true) ↔
      ∃ h t, (h, t) ∈ pairs leg.tags ∧ leg.translate h = some hash ∧ readTag u t = some tag := by
  have hparsed : ∀ os : List OriginTag, (parsedTags u os).any (·.1 = tag) = true ↔
      ∃ o ∈ os, readTag u o.tag = some tag := by
    intro os
    simp only [parsedTags, List.any_eq_true, List.mem_filterMap, Option.map_eq_some_iff]
    constructor
    · rintro ⟨e, ⟨o, ho, tag', htag, rfl⟩, heq⟩
      exact ⟨o, ho, htag.trans (congrArg some (of_decide_eq_true heq))⟩
    · rintro ⟨o, ho, htag⟩
      exact ⟨(tag, o.origin), ⟨o, ho, tag, htag, rfl⟩, by simp⟩
  simp only [entries, List.mem_filterMap, Option.map_eq_some_iff]
  constructor
  · rintro ⟨e, ⟨e', ⟨e'', he'', hnonempty⟩, hash', htranslate, rfl⟩, rfl, hany⟩
    split at hnonempty
    · cases hnonempty
    · cases hnonempty
      obtain ⟨o, ho, htag⟩ := (hparsed e''.2).1 hany
      refine ⟨e''.1, o.tag, mem_pairs.2 ⟨o, ?_, rfl⟩, htranslate, htag⟩
      rw [Table.mem_entries.1 he'']
      exact ho
  · rintro ⟨h, t, hmem, htranslate, htag⟩
    obtain ⟨o, ho, rfl⟩ := mem_pairs.1 hmem
    cases hl : leg.tags.lookup h with
    | none => simp [hl] at ho
    | some os =>
      rw [hl, Option.getD_some] at ho
      have hany := (hparsed os).2 ⟨o, ho, htag⟩
      refine ⟨(hash, parsedTags u os), ⟨(h, parsedTags u os), ⟨⟨h, os⟩, Table.mem_entries.2 hl, ?_⟩,
        hash, htranslate, rfl⟩, rfl, hany⟩
      rw [if_neg]
      intro hnil
      simp [hnil] at hany

/-- A merge leaves what the pull does, and a new pull state. -/
theorem merge_eq (u : Unicode) (service : Nat) (now : Int) (leg : Leg) (db : Naiad.Db) : ∃ pullState,
    leg.merge u service now db = { db.pull (leg.pulled u service now) with pullState } := by
  have hrecord : ∀ db' : Naiad.Db, ∃ pullState,
      recordDomainCursor db' service leg = { db' with pullState } := by
    intro db'
    unfold recordDomainCursor
    split
    · unfold setMappingPullState
      split
      · exact ⟨_, rfl⟩
      · exact ⟨_, rfl⟩
    · exact ⟨_, rfl⟩
  unfold merge
  cases leg.mode with
  | delta bits => exact ⟨_, rfl⟩
  | whole => exact hrecord _
  | buckets bits => exact hrecord _

theorem carries_merge (h : db.MappingTags) (f : Nat) (tag : Tag) :
    (leg.merge u service now db).carries leg.domain.asStr f tag service =
      (leg.pulled u service now).supplied db f tag (db.carries leg.domain.asStr f tag service) := by
  obtain ⟨pullState, heq⟩ := merge_eq u service now leg db
  rw [heq]
  exact carries_pull h (leg.pulled u service now) f tag

theorem files_merge (h : db.MappingTags) : (leg.merge u service now db).files = db.files := by
  obtain ⟨pullState, heq⟩ := merge_eq u service now leg db
  rw [heq]
  exact (sets_pull h (leg.pulled u service now)).files

theorem masked_merge (h : db.Masked) : (leg.merge u service now db).Masked := by
  obtain ⟨pullState, heq⟩ := merge_eq u service now leg db
  rw [heq]
  exact (h.pull _).of_frame rfl rfl

/-- The keys a finished leg asked for are all its keys. -/
theorem taken_of_complete (h : leg.complete = true) : leg.keys.take leg.served = leg.keys := by
  rw [complete, Bool.and_eq_true, decide_eq_true_eq] at h
  exact List.take_of_length_le h.2

/-- A file is in the bucket of its key, and a full leg clears that bucket. -/
theorem inBuckets_fullBuckets (hp : leg.Planned) (h : leg.Fresh u bits held) (ho : o ∈ leg.owned)
    (hl : db.files.lookup f = some row) (hkey : domainKey leg.domain row = some o.1) :
    db.inBuckets leg.domain.asStr (leg.fullBuckets bits) f = true := by
  have hmem : bucketKey o.1 bits ∈ leg.keys := ((hp.key_eq (.inl h.mode)).2 _).2 ⟨o, ho, rfl⟩
  have hbounds : (bucketKey o.1 bits, bucketUpper o.1 bits) ∈ leg.fullBuckets bits := by
    rw [fullBuckets, h.since, List.mem_filterMap]
    refine ⟨(bucketKey o.1 bits, 0), ?_, by simp⟩
    rw [List.zip_map_right, List.mem_map]
    exact ⟨(bucketKey o.1 bits, bucketKey o.1 bits), by simp [List.zip, hmem], rfl⟩
  rw [inBuckets, List.any_eq_true]
  refine ⟨_, hbounds, ?_⟩
  rw [inKeyRange, hl, Option.bind_some, keyText_asStr, hkey, Option.map_some, Option.any_some,
    Bool.and_eq_true, decide_eq_true_eq, decide_eq_true_eq]
  exact (mem_bucket_iff o.1 o.1 bits).2 rfl

/-- What a delta from the beginning says of a file is what the store that answered for its bucket
holds. -/
theorem supplied_delta (hc : db.FilesUnique) (hp : leg.Planned) (hu : leg.Unshared)
    (h : leg.Fresh u bits held) (hcomplete : leg.complete = true) (ho : o ∈ leg.owned)
    (hl : db.files.lookup f = some row) (hblake : row.blake3 = o.2)
    (hkey : domainKey leg.domain row = some o.1) :
    ∃ st ∈ held, ∀ tag before, (leg.pulled u service now).supplied db f tag before = true ↔
      Reads u st o.1 tag := by
  have hbucket : bucketKey o.1 bits ∈ leg.keys.take leg.served := by
    rw [taken_of_complete hcomplete]
    exact ((hp.key_eq (.inl h.mode)).2 _).2 ⟨o, ho, rfl⟩
  obtain ⟨st, hst, ⟨hgrown, hlegible⟩, hrows⟩ := h.answers.rows _ hbucket
  have hfile : ∀ hash, db.fileIdByHash hash = some f ↔ hash = o.2 := by
    intro hash
    have hf : db.fileIdByHash o.2 = some f := hc.fileIdByHash_eq_some.2 ⟨row, hl, hblake⟩
    constructor
    · intro hhash
      exact fileIdByHash_inj hhash hf
    · rintro rfl
      exact hf
  -- a change that names the file comes from a row of its own hash
  have hnamed : ∀ tag c, c ∈ leg.deltaInputs u → db.fileIdByHash c.hash = some f ∧ c.tag = tag →
      ∃ t r, st.row o.1 t = some r ∧ readTag u t = some tag ∧ c.status = r.status := by
    intro tag c hmem hc'
    obtain ⟨d, hd, tag', hash, htag, htranslate, rfl⟩ := mem_deltaInputs.1 hmem
    obtain ⟨hhash, rfl⟩ := hc'
    have hd1 : d.hash = o.1 :=
      (hp.translate_iff hu ho).1 (htranslate.trans (congrArg some ((hfile _).1 hhash)))
    have hrow := (hrows d (by rw [hd1])).1 hd
    rw [RowOf, hd1] at hrow
    exact ⟨d.tag, _, hrow, htag, rfl⟩
  refine ⟨st, hst, ?_⟩
  intro tag before
  have hcleared := inBuckets_fullBuckets hp h ho hl hkey
  have hsupplied : (leg.pulled u service now).supplied db f tag before =
      (leg.deltaInputs u).foldl (db.changeSupplies f tag) false := by
    simp [Pulled.supplied, pulled, h.mode, hcleared]
  rw [hsupplied, foldl_changeSupplies]
  · constructor
    · rintro ⟨c, hmem, hc', hcurrent⟩
      obtain ⟨t, r, hrow, htag, hstatus⟩ := hnamed tag c hmem hc'
      exact ⟨t, ⟨r, hrow, hstatus.symm.trans hcurrent⟩, htag⟩
    · rintro ⟨t, ⟨r, hrow, hcurrent⟩, htag⟩
      refine ⟨⟨o.2, tag, r.status, r.seq, r.origin⟩, mem_deltaInputs.2
        ⟨⟨o.1, t, r.status, r.seq, r.origin⟩, ?_, tag, o.2, htag, ?_, rfl⟩, ⟨(hfile _).2 rfl, rfl⟩,
        hcurrent⟩
      · exact (hrows ⟨o.1, t, r.status, r.seq, r.origin⟩ rfl).2 hrow
      · exact (hp.translate_iff hu ho).2 rfl
  · intro c hmem c' hmem' hc' hc''
    obtain ⟨t, r, hrow, htag, hstatus⟩ := hnamed tag c hmem hc'
    obtain ⟨t', r', hrow', htag', hstatus'⟩ := hnamed tag c' hmem' hc''
    have ht := hlegible.text_eq hgrown.sound hrow hrow' htag htag'
    rw [← ht, hrow] at hrow'
    rw [hstatus, hstatus', Option.some.inj hrow']

/-- The entries of a snapshot say of a file what the pairs of its hash say. -/
theorem supplied_snapshot (hc : db.FilesUnique) (hp : leg.Planned) (hu : leg.Unshared)
    (hmode : ∀ bits, leg.mode ≠ .delta bits) (ho : o ∈ leg.owned)
    (hl : db.files.lookup f = some row) (hblake : row.blake3 = o.2) (tag : Tag) (before : Bool) :
    (leg.pulled u service now).supplied db f tag before = true ↔
      ∃ t, (o.1, t) ∈ pairs leg.tags ∧ readTag u t = some tag := by
  have hf : db.fileIdByHash o.2 = some f := hc.fileIdByHash_eq_some.2 ⟨row, hl, hblake⟩
  have hsupplied : (leg.pulled u service now).supplied db f tag before =
      (leg.entries u).any (db.entryNames f tag) := by
    unfold Pulled.supplied pulled
    cases hm : leg.mode with
    | delta bits => exact absurd hm (hmode bits)
    | whole => rfl
    | buckets bits => rfl
  rw [hsupplied, List.any_eq_true]
  constructor
  · rintro ⟨e, he, hnames⟩
    rw [entryNames, Bool.and_eq_true, decide_eq_true_eq] at hnames
    obtain ⟨h, t, hmem, htranslate, htag⟩ :=
      mem_entries.1 ⟨e, he, fileIdByHash_inj hnames.1 hf, hnames.2⟩
    rw [(hp.translate_iff hu ho).1 htranslate] at hmem
    exact ⟨t, hmem, htag⟩
  · rintro ⟨t, hmem, htag⟩
    obtain ⟨e, he, heq, hany⟩ :=
      mem_entries.2 ⟨o.1, t, hmem, (hp.translate_iff hu ho).2 rfl, htag⟩
    refine ⟨e, he, ?_⟩
    rw [entryNames, Bool.and_eq_true, decide_eq_true_eq]
    exact ⟨by rw [heq, hf], hany⟩

/-- A leg whose replies cover its keys from the beginning. -/
inductive Full (u : Unicode) (held : List RepoStore) (leg : Leg) : Prop
  | fresh (bits : Nat) (h : leg.Fresh u bits held)
  | gathered (bits : Nat) (h : leg.Gathered bits held)
  | whole (h : leg.Whole held)

theorem exact_merge (hm : db.MappingTags) (hc : db.FilesUnique) (hp : leg.Planned)
    (hu : leg.Unshared) (h : leg.Full u held) (hcomplete : leg.complete = true) :
    leg.Exact u service held (leg.merge u service now db) := by
  intro o ho f row hl hblake hkey
  rw [files_merge hm] at hl
  have hsupplied : ∃ st ∈ held, ∀ tag before,
      (leg.pulled u service now).supplied db f tag before = true ↔ Reads u st o.1 tag := by
    cases h with
    | fresh bits h => exact supplied_delta hc hp hu h hcomplete ho hl hblake hkey
    | gathered bits h =>
      have hbucket : bucketKey o.1 bits ∈ leg.keys.take leg.served := by
        rw [taken_of_complete hcomplete]
        exact ((hp.key_eq (.inr h.mode)).2 _).2 ⟨o, ho, rfl⟩
      obtain ⟨st, hst, _, hrows⟩ := h.answers.rows _ hbucket
      refine ⟨st, hst, ?_⟩
      intro tag before
      rw [supplied_snapshot hc hp hu (by simp [h.mode]) ho hl hblake]
      exact exists_congr fun t => and_congr_left fun _ => hrows (o.1, t) rfl
    | whole h =>
      obtain ⟨st, hst, hs, htags⟩ := h.tags hcomplete
      refine ⟨st, hst, ?_⟩
      intro tag before
      rw [supplied_snapshot hc hp hu (by simp [h.mode]) ho hl hblake, htags]
      exact exists_congr fun t => and_congr_left fun _ => mem_pairs_snapshot hs
  obtain ⟨st, hst, hsaid⟩ := hsupplied
  refine ⟨st, hst, ?_⟩
  intro tag
  rw [carries_merge hm, hsaid]

end

end Leg

end

end Daemon
end Naiad
