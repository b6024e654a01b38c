import Naiad.Daemon.LateMerge

/-!
# Naiad.Daemon.Overlap

The pulls of one domain of one service, any number of them on their way at once. No lock is held
while a pull waits for its replies: others read the database and merge in between, files come in and
gain their hashes, and the repository goes on changing.

* `World`: the repository, the database of the client, and the pulls on their way.
* `InStep`: what a stored cursor and its marker stand for.
* `Clean`: a merge is not of older replies than those the stored state, or a pull still on its way,
  takes as merged.
* `pulls_converge`: **then no change is lost, and the next pull that is left alone leaves every file
  with the tags of the repository**.
-/

namespace Naiad
namespace Daemon
namespace Overlap

open Lib Netproto Db Server

/-- A pull on its way; one of some files has their hashes. -/
structure Flight where
  leg : Leg
  files : Option (List Hash)

/-- The repository with the stores it has been, and a subscriber. -/
structure World where
  store : RepoStore
  held : List RepoStore
  db : Naiad.Db
  flights : List Flight

inductive Event
  | write (a : Action)
  | file (w : FileWrite)
  /-- Whatever else changes the database. -/
  | library (db : Naiad.Db) (masked : db.Masked) (kept : db.FilesKept)
  | read (mode : FetchMode)
  /-- A pull of some files, at a prefix width unless the repository is pulled whole. -/
  | readFiles (prefixBits : Option Nat) (hashes : List Hash)
  | ask (i budget n : Nat)
  | merge (i : Nat) (now : Int)
  | drop (i : Nat)

namespace Flight

/-- The replies are all in. -/
def done (fl : Flight) : Bool :=
  match fl.files with
  | none => fl.leg.complete
  | some _ => fl.leg.filesComplete

def merge (u : Unicode) (service : Nat) (now : Int) (fl : Flight) (db : Naiad.Db) : Naiad.Db :=
  match fl.files with
  | none => fl.leg.merge u service now db
  | some hashes => db.pull (fl.leg.pulledFiles u service now hashes)

/-- A merge of the replies takes nothing back that a cursor and a marker stand for. -/
def NotBehind (fl : Flight) (cursor marker : Option Nat) : Prop :=
  ∀ m ∈ marker, m ≤ fl.leg.currentMarker ∧
    (fl.leg.owned ≠ [] → cursor.getD 0 ≤ fl.leg.cursor.getD 0)

instance (fl : Flight) (cursor marker : Option Nat) : Decidable (fl.NotBehind cursor marker) :=
  inferInstanceAs (Decidable (∀ m ∈ marker, _ ∧ (_ → _)))

end Flight

/-- The marker that is stored beside a cursor. -/
def storedMarker (db : Naiad.Db) (service : Nat) (domain : HashDomain) : Option Nat :=
  (db.pullState.lookup (service, domain.asStr)).bind PullState.lastPullFileMarker

/-- Every file with a hash in the domain keeps it. -/
def KeysKept (domain : HashDomain) (db db' : Naiad.Db) : Prop :=
  ∀ e ∈ db.files.entries, ∀ hash ∈ domainKey domain e.2,
    (db'.files.lookup e.1).bind (domainKey domain) = some hash

instance (domain : HashDomain) (db db' : Naiad.Db) : Decidable (KeysKept domain db db') :=
  inferInstanceAs (Decidable (∀ e ∈ db.files.entries, ∀ hash ∈ domainKey domain e.2, _))

namespace World

def start (db : Naiad.Db) : World where
  store := .empty
  held := [.empty]
  db := db
  flights := []

section

variable (u : Unicode) (verify : Submission → Bool) (service : Nat) (domain : HashDomain)

def step (w : World) : Event → World
  | .write a =>
    let st := stepStore verify w.store a
    { w with store := st, held := w.held ++ [st] }
  | .file fw => { w with db := w.db.writeFile fw }
  | .library db _ _ => { w with db }
  | .read mode => { w with flights := w.flights ++ [⟨Leg.read w.db service domain mode, none⟩] }
  | .readFiles prefixBits hashes =>
    { w with
      flights := w.flights ++
        [⟨Leg.readFiles w.db domain (prefixBits.elim .whole .buckets) hashes, some hashes⟩] }
  | .ask i budget n =>
    match w.flights[i]? with
    | some fl => { w with flights := w.flights.set i { fl with leg := fl.leg.ask w.store budget n } }
    | none => w
  | .merge i now =>
    match w.flights[i]? with
    | some fl =>
      if fl.done then
        { w with db := fl.merge u service now w.db, flights := w.flights.eraseIdx i }
      else w
    | none => w
  | .drop i => { w with flights := w.flights.eraseIdx i }

/-- The service is subscribed, and nothing that a pull on its way has read as merged is taken back; a
pull of some files does not store the cursor of its replies, so nor is what the stored one stands for. -/
def Merges (w : World) (i : Nat) (fl : Flight) : Prop :=
  (w.db.services.lookup service).isSome ∧
    (∀ g ∈ w.flights.eraseIdx i, fl.NotBehind g.leg.storedCursor g.leg.storedMarker) ∧
    (fl.files.isSome → fl.NotBehind (w.db.mappingCursor service domain.asStr)
      (storedMarker w.db service domain))

instance (w : World) (i : Nat) (fl : Flight) : Decidable (w.Merges service domain i fl) :=
  inferInstanceAs (Decidable (_ ∧ (∀ g ∈ w.flights.eraseIdx i, _) ∧ (_ → _)))

/-- No two rows of a hash share a tag, no two files of a pull a hash; a file keeps its hash in the
domain; and what else changes the database leaves the files, and the rows and the pull state of the
domain, unless it drops the state. -/
def Clean (w : World) : Event → Prop
  | .write a => Legible u (stepStore verify w.store a)
  | .file fw => KeysKept domain w.db (w.db.writeFile fw)
  | .library db _ _ =>
    db.files = w.db.files ∧ db.sha256SeqCounter = w.db.sha256SeqCounter ∧
      (∀ f tag, db.carries domain.asStr f tag service = w.db.carries domain.asStr f tag service) ∧
      (db.pullState.lookup (service, domain.asStr) = w.db.pullState.lookup (service, domain.asStr) ∨
        db.pullState.lookup (service, domain.asStr) = none)
  | .read mode => (Leg.read w.db service domain mode).Unshared
  | .readFiles prefixBits hashes =>
    (Leg.readFiles w.db domain (prefixBits.elim .whole .buckets) hashes).Unshared
  | .merge i _ => ∀ fl ∈ w.flights[i]?, fl.done = true → w.Merges service domain i fl
  | .ask _ _ _ | .drop _ => True

end

end World

section

variable {u : Unicode} {verify : Submission → Bool} {service : Nat} {domain : HashDomain}
  {db db' : Naiad.Db} {st st' : RepoStore}

/-! ## Files as they change -/

/-- What may become of the database between two merges, as far as the domain is concerned. -/
structure Continues (service : Nat) (domain : HashDomain) (db db' : Naiad.Db) : Prop where
  marker : maxMarker db domain ≤ maxMarker db' domain
  keyed : ∀ f hash n, Keyed domain db' f hash n → n ≤ maxMarker db domain → Keyed domain db f hash n
  rows : ∀ f row, db.files.lookup f = some row →
    ∃ row', db'.files.lookup f = some row' ∧ row'.blake3 = row.blake3
  carries : ∀ f tag, db'.carries domain.asStr f tag service = db.carries domain.asStr f tag service

/-- A number that had been handed out is of the same hash as then. -/
theorem keyed_older (hnum : db.Numbered) (hrenum : Renumbers db db') (hkept : KeysKept domain db db')
    {f n : Nat} {hash : Hash} (h : Keyed domain db' f hash n) (hle : n ≤ maxMarker db domain) :
    Keyed domain db f hash n := by
  have hnew := (number_fresh hnum hrenum h).not.1 (Nat.not_lt.2 hle)
  push Not at hnew
  obtain ⟨row, hl, hkey⟩ := hnew
  obtain ⟨old, hold⟩ := Option.ne_none_iff_exists'.1 hkey
  obtain ⟨row', hl', hkey', hn⟩ := h
  have hsame := hkept ⟨f, row⟩ (Table.mem_entries.2 hl) old hold
  simp only [hl', Option.bind_some, hkey'] at hsame
  obtain rfl := Option.some.inj hsame
  obtain ⟨m, hm, _⟩ := keyed_of_key hnum hl hold
  have heq : m = n := by
    obtain ⟨row'', hl'', _, hm'⟩ := hm
    cases domain with
    | blake3 => exact Option.some.inj (hm'.symm.trans hn)
    | sha256 =>
      have hkeep := hrenum.kept f m (seqOf_eq_some.2 ⟨row'', hl'', hm'⟩)
      have hnow := seqOf_eq_some.2 ⟨row', hl', hn⟩
      rw [hkeep] at hnow
      exact Option.some.inj (Option.some.inj hnow)
  rw [← heq]
  exact hm

theorem maxMarker_le (h : Renumbers db db') (domain : HashDomain) :
    maxMarker db domain ≤ maxMarker db' domain := by
  cases domain with
  | blake3 => exact h.ids
  | sha256 => exact h.counter

/-- Writers of files leave mappings, tags and pull states alone. -/
theorem writeFile_frame (db : Naiad.Db) (fw : FileWrite) :
    (db.writeFile fw).mappings = db.mappings ∧ (db.writeFile fw).tags = db.tags ∧
      (db.writeFile fw).pullState = db.pullState := by
  cases fw with
  | insertFile rec scanMarker now =>
    obtain ⟨hmappings, htags⟩ := insertFile_frame db rec scanMarker now
    refine ⟨hmappings, htags, ?_⟩
    have hcontent : (db.upsertContent rec now).pullState = db.pullState := by
      unfold upsertContent
      split <;> rfl
    show (db.insertFile rec scanMarker now).pullState = _
    unfold insertFile
    split
    · exact hcontent
    · show ((db.upsertContent rec now).stampSha256 _).pullState = _
      unfold stampSha256
      split <;> exact hcontent
  | updateMetadata hash m => exact ⟨rfl, rfl, rfl⟩
  | setSha256Batch items =>
    have hframe : ∀ {α : Type} (g : Naiad.Db → α → Naiad.Db) (as : List α) (db : Naiad.Db),
        (∀ db a, (g db a).mappings = db.mappings ∧ (g db a).tags = db.tags ∧
          (g db a).pullState = db.pullState) →
        (as.foldl g db).mappings = db.mappings ∧ (as.foldl g db).tags = db.tags ∧
          (as.foldl g db).pullState = db.pullState := by
      intro α g as
      induction as with
      | nil => exact fun _ _ => ⟨rfl, rfl, rfl⟩
      | cons a as ih =>
        intro db hg
        obtain ⟨hm, ht, hp⟩ := ih (g db a) hg
        obtain ⟨hm', ht', hp'⟩ := hg db a
        exact ⟨hm.trans hm', ht.trans ht', hp.trans hp'⟩
    obtain ⟨hm, ht, hp⟩ := hframe updateSha256 items db fun _ _ => ⟨rfl, rfl, rfl⟩
    obtain ⟨hm', ht', hp'⟩ := hframe stampSeq
      (((items.foldl updateSha256 db).toStamp items).zipIdx
        ((items.foldl updateSha256 db).sha256SeqCounter + 1)) (items.foldl updateSha256 db)
      fun _ _ => ⟨rfl, rfl, rfl⟩
    exact ⟨hm'.trans hm, ht'.trans ht, hp'.trans hp⟩

theorem carries_frame (hmappings : db'.mappings = db.mappings) (htags : db'.tags = db.tags)
    (text : String) (f : Nat) (tag : Tag) (s : Nat) :
    db'.carries text f tag s = db.carries text f tag s := by
  unfold Db.carries mask rowMask
  rw [htags, hmappings]

theorem kept_frame (hk : db.FilesKept) (hfiles : db'.files = db.files)
    (hlocations : db'.locations = db.locations)
    (hcounter : db'.sha256SeqCounter = db.sha256SeqCounter) : db'.FilesKept := by
  obtain ⟨⟨huniq, hloc⟩, ⟨⟨honly, hbounded, hdistinct⟩, hall⟩⟩ := hk
  refine ⟨⟨?_, ?_⟩, ⟨⟨?_, ?_, ?_⟩, ?_⟩⟩ <;>
    simp only [hfiles, hlocations, hcounter, seqOf, shaOf, interopOf] at *
  · exact huniq
  · exact hloc
  · exact honly
  · exact hbounded
  · exact hdistinct
  · exact hall

theorem continues_file (hk : db.FilesKept) {fw : FileWrite}
    (hkept : KeysKept domain db (db.writeFile fw)) : Continues service domain db (db.writeFile fw) where
  marker := maxMarker_le (renumbers_write hk fw) domain
  keyed := fun _ _ _ h hle => keyed_older hk.numbered (renumbers_write hk fw) hkept h hle
  rows := by
    intro f row hl
    have hrow : db.interopOf f = some (row.blake3, row.sha256) := by rw [interopOf, hl]; rfl
    obtain ⟨_, hrow'⟩ := (renumbers_write hk fw).rows f _ _ hrow
    obtain ⟨row', hl', hblake, _⟩ := interopOf_fst hrow'
    exact ⟨row', hl', hblake⟩
  carries := by
    obtain ⟨hmappings, htags, _⟩ := writeFile_frame db fw
    exact fun f tag => carries_frame hmappings htags _ f tag service

theorem continues_library (hfiles : db'.files = db.files)
    (hcounter : db'.sha256SeqCounter = db.sha256SeqCounter)
    (hcarries : ∀ f tag, db'.carries domain.asStr f tag service = db.carries domain.asStr f tag service) :
    Continues service domain db db' where
  marker := by
    cases domain with
    | blake3 => exact (congrArg (fun files => files.keys.foldr max 0) hfiles).ge
    | sha256 => exact hcounter.ge
  keyed := by
    rintro f hash n ⟨row, hl, hrest⟩ _
    rw [hfiles] at hl
    exact ⟨row, hl, hrest⟩
  rows := by
    intro f row hl
    rw [hfiles]
    exact ⟨row, hl, rfl⟩
  carries := hcarries

end

/-! ## Sound worlds -/

/-- The files that had come into the domain by a marker are in sync up to a cursor. -/
def InStep (u : Unicode) (service : Nat) (domain : HashDomain) (st : RepoStore) (db : Naiad.Db)
    (cursor marker : Option Nat) : Prop :=
  ∀ m ∈ marker, m ≤ maxMarker db domain ∧ cursor.getD 0 ≤ st.mappingCursor ∧
    ∀ f hash n, Keyed domain db f hash n → n ≤ m →
      Synced u service domain (cursor.getD 0) st db f hash

/-- The stores the repository has been, as far as the current one has come from them. -/
def Reached (u : Unicode) (held : List RepoStore) (st : RepoStore) : Prop :=
  ∀ st' ∈ held, Grown st' ∧ Legible u st' ∧ Later st' st

namespace Flight

/-- The pull is of this file. -/
def Of (fl : Flight) (row : FileRow) : Prop := ∀ hashes ∈ fl.files, row.blake3 ∈ hashes

/-- A pull on its way, with what it has read and what its replies say; it asks past a cursor only for
files of which the rows up to it have been merged. -/
structure Sound (u : Unicode) (service : Nat) (domain : HashDomain) (held : List RepoStore)
    (st : RepoStore) (db : Naiad.Db) (fl : Flight) : Prop where
  inDomain : fl.leg.domain = domain
  planned : fl.leg.Planned
  unshared : fl.leg.Unshared
  snapshots : fl.files.isSome → fl.leg.mode.isDelta = false
  marker : fl.leg.currentMarker ≤ maxMarker db domain
  owned : ∀ f row hash n, db.files.lookup f = some row → fl.Of row → Keyed domain db f hash n →
    n ≤ fl.leg.currentMarker → (hash, row.blake3) ∈ fl.leg.owned
  cursor : fl.leg.cursor.getD 0 ≤ st.mappingCursor
  stored : InStep u service domain st db fl.leg.storedCursor fl.leg.storedMarker
  told : ∃ past, fl.leg.Told held past ∧ ∀ f hash n, Keyed domain db f hash n →
    n ≤ fl.leg.currentMarker → past hash ≠ 0 →
      past hash = fl.leg.storedCursor.getD 0 ∧ ∃ m ∈ fl.leg.storedMarker, n ≤ m

end Flight

structure World.Sound (u : Unicode) (service : Nat) (domain : HashDomain) (w : World) : Prop where
  masked : w.db.Masked
  kept : w.db.FilesKept
  current : w.store ∈ w.held
  reached : Reached u w.held w.store
  stored : InStep u service domain w.store w.db (w.db.mappingCursor service domain.asStr)
    (storedMarker w.db service domain)
  flights : ∀ fl ∈ w.flights, fl.Sound u service domain w.held w.store w.db

section

variable {u : Unicode} {verify : Submission → Bool} {service : Nat} {domain : HashDomain}
  {db db' : Naiad.Db} {st st' : RepoStore} {held held' : List RepoStore} {fl g : Flight}
  {cursor marker : Option Nat} {now : Int}

/-! ## The repository and the files go on -/

theorem InStep.continues (h : InStep u service domain st db cursor marker)
    (hcont : Continues service domain db db') : InStep u service domain st db' cursor marker := by
  intro m hm
  obtain ⟨hmax, hcursor, hsync⟩ := h m hm
  refine ⟨hmax.trans hcont.marker, hcursor, ?_⟩
  intro f hash n hkeyed hn
  exact (hsync f hash n (hcont.keyed f hash n hkeyed (hn.trans hmax)) hn).congr (hcont.carries f)

theorem InStep.later (h : InStep u service domain st db cursor marker) (hs : Grown st)
    (hs' : Grown st') (hl : Legible u st) (hl' : Legible u st') (hlater : Later st st') :
    InStep u service domain st' db cursor marker := by
  intro m hm
  obtain ⟨hmax, hcursor, hsync⟩ := h m hm
  refine ⟨hmax, hcursor.trans hlater.cursor, ?_⟩
  intro f hash n hkeyed hn
  exact (hsync f hash n hkeyed hn).advance hs.sound hs'.sound hl hl' hlater hcursor

namespace Flight

theorem Sound.continues (h : fl.Sound u service domain held st db)
    (hcont : Continues service domain db db') : fl.Sound u service domain held st db' where
  inDomain := h.inDomain
  planned := h.planned
  unshared := h.unshared
  snapshots := h.snapshots
  marker := h.marker.trans hcont.marker
  owned := by
    intro f row' hash n hl' hof hkeyed hn
    have hold := hcont.keyed f hash n hkeyed (hn.trans h.marker)
    obtain ⟨row, hl, _⟩ := id hold
    obtain ⟨row'', hl'', hblake⟩ := hcont.rows f row hl
    obtain rfl : row' = row'' := Option.some.inj (hl'.symm.trans hl'')
    rw [hblake]
    refine h.owned f row hash n hl ?_ hold hn
    intro hashes hmem
    rw [← hblake]
    exact hof hashes hmem
  cursor := h.cursor
  stored := h.stored.continues hcont
  told := by
    obtain ⟨past, htold, hpast⟩ := h.told
    refine ⟨past, htold, ?_⟩
    intro f hash n hkeyed hn
    exact hpast f hash n (hcont.keyed f hash n hkeyed (hn.trans h.marker)) hn

theorem Sound.later (h : fl.Sound u service domain held st db) (hs : Grown st) (hs' : Grown st')
    (hl : Legible u st) (hl' : Legible u st') (hlater : Later st st') (hsub : held ⊆ held') :
    fl.Sound u service domain held' st' db where
  inDomain := h.inDomain
  planned := h.planned
  unshared := h.unshared
  snapshots := h.snapshots
  marker := h.marker
  owned := h.owned
  cursor := h.cursor.trans hlater.cursor
  stored := h.stored.later hs hs' hl hl' hlater
  told := by
    obtain ⟨past, htold, hpast⟩ := h.told
    exact ⟨past, htold.mono hsub, hpast⟩

theorem Sound.ask (h : fl.Sound u service domain held st db) (hst : st ∈ held) (hs : Grown st)
    (budget n : Nat) :
    Sound u service domain held st db { fl with leg := fl.leg.ask st budget n } := by
  obtain ⟨hdomain, hmode, howned, _⟩ := fl.leg.ask_frame st budget n
  obtain ⟨hcursor, hmarker, hcurrent⟩ := Leg.ask_stored fl.leg st budget n
  refine ⟨hdomain.trans h.inDomain, h.planned.ask, h.unshared.ask, ?_, ?_, ?_, ?_, ?_, ?_⟩
  · rw [hmode]
    exact h.snapshots
  · rw [hcurrent]
    exact h.marker
  · rw [howned, hcurrent]
    exact h.owned
  · exact Leg.ask_cursor_le hs.sound h.cursor budget n
  · rw [hcursor, hmarker]
    exact h.stored
  · obtain ⟨past, htold, hpast⟩ := h.told
    obtain ⟨past', htold', heq⟩ :
        ∃ past', (fl.leg.ask st budget n).Told held past' ∧
          ∀ hash, past' hash = past hash ∨ past' hash = 0 := htold.ask h.planned hst hs.sound
    refine ⟨past', htold', ?_⟩
    rw [hcurrent, hcursor, hmarker]
    intro f hash n hkeyed hn hne
    rcases heq hash with heq | heq
    · rw [heq] at hne ⊢
      exact hpast f hash n hkeyed hn hne
    · exact absurd heq hne

/-! ## A pull starts -/

theorem sound_read (hk : db.FilesKept) (mode : FetchMode)
    (hu : (Leg.read db service domain mode).Unshared)
    (hstored : InStep u service domain st db (db.mappingCursor service domain.asStr)
      (storedMarker db service domain)) :
    Sound u service domain held st db ⟨Leg.read db service domain mode, none⟩ where
  inDomain := rfl
  planned := planned_read hk.constraints.files_unique service domain mode
  unshared := hu
  snapshots := nofun
  marker := le_rfl
  owned := by
    rintro f row hash n hl _ ⟨row', hl', hkey, _⟩ _
    obtain rfl : row = row' := Option.some.inj (hl.symm.trans hl')
    exact mem_ownedIn.2 ⟨f, row, hl, hkey, rfl⟩
  cursor := Nat.zero_le _
  stored := hstored
  told := by
    refine ⟨_, Leg.told_read db service domain mode, ?_⟩
    intro f hash n hkeyed _ hne
    unfold Leg.firstPast at hne ⊢
    cases mode with
    | whole => exact absurd rfl hne
    | buckets bits => exact absurd rfl hne
    | delta bits =>
      simp only at hne ⊢
      cases hmarker : storedMarker db service domain with
      | none =>
        rw [storedMarker] at hmarker
        simp [hmarker] at hne
      | some m =>
        have hmarker' := hmarker
        rw [storedMarker] at hmarker'
        simp only [hmarker', Option.isNone_some, Bool.false_eq_true, if_false,
          Option.getD_some] at hne ⊢
        split at hne
        · exact absurd rfl hne
        · rename_i hnot
          rw [if_neg hnot]
          refine ⟨rfl, m, hmarker, ?_⟩
          by_contra hlt
          exact hnot (mem_newKeys.2 ⟨f, hash, n, hkeyed, Nat.lt_of_not_le hlt, rfl⟩)

theorem sound_readFiles (hk : db.FilesKept) {mode : FetchMode} (hmode : mode.isDelta = false)
    (hashes : List Hash) (hu : (Leg.readFiles db domain mode hashes).Unshared) :
    Sound u service domain held st db ⟨Leg.readFiles db domain mode hashes, some hashes⟩ where
  inDomain := rfl
  planned := Leg.planned_readFiles domain mode
  unshared := hu
  snapshots := fun _ => hmode
  marker := le_rfl
  owned := by
    rintro f row hash n hl hof ⟨row', hl', hkey, _⟩ _
    obtain rfl : row = row' := Option.some.inj (hl.symm.trans hl')
    exact Leg.owned_readFiles hk.constraints.files_unique hl hkey (hof hashes rfl)
  cursor := Nat.zero_le _
  stored := nofun
  told := ⟨fun _ => 0, Leg.told_readFiles hmode, fun _ _ _ _ _ hne => absurd rfl hne⟩

/-! ## A merge -/

theorem files_merge (hm : db.MappingTags) : (fl.merge u service now db).files = db.files := by
  unfold merge
  cases fl.files with
  | none => exact Leg.files_merge hm
  | some hashes => exact (sets_pull hm _).files

theorem masked_merge (hm : db.Masked) : (fl.merge u service now db).Masked := by
  unfold merge
  cases fl.files with
  | none => exact Leg.masked_merge hm
  | some hashes => exact hm.pull _

/-- What a merge of mappings leaves of the database. -/
theorem apart_merge (fl : Flight) (db : Naiad.Db) : (fl.merge u service now db).locations = db.locations ∧
    (fl.merge u service now db).sha256SeqCounter = db.sha256SeqCounter := by
  have hpull : ∀ p : Pulled, (db.pull p).locations = db.locations ∧
      (db.pull p).sha256SeqCounter = db.sha256SeqCounter := by
    intro p
    have haside := @aside_pull db p
    cases hmerge : p.merge with
    | snapshot entries =>
      simp only [hmerge, aside, Prod.mk.injEq] at haside
      exact ⟨haside.2.1, haside.2.2.1⟩
    | forFiles hashes entries hcoalesced =>
      simp only [hmerge, aside, Prod.mk.injEq] at haside
      exact ⟨haside.2.1, haside.2.2.1⟩
    | delta changes fullBuckets cursor marker =>
      simp only [hmerge, aside, Prod.mk.injEq] at haside
      exact ⟨haside.2.1, haside.2.2.1⟩
  unfold merge
  cases fl.files with
  | none =>
    obtain ⟨pullState, heq⟩ := Leg.merge_eq u service now fl.leg db
    rw [heq]
    exact hpull _
  | some hashes => exact hpull _

theorem maxMarker_merge (hm : db.MappingTags) (domain : HashDomain) :
    maxMarker (fl.merge u service now db) domain = maxMarker db domain := by
  cases domain with
  | blake3 => exact congrArg (fun files : Table Nat FileRow => files.keys.foldr max 0) (files_merge hm)
  | sha256 => exact (apart_merge fl db).2

theorem kept_merge (hm : db.MappingTags) (hk : db.FilesKept) :
    (fl.merge u service now db).FilesKept :=
  kept_frame hk (files_merge hm) (apart_merge fl db).1 (apart_merge fl db).2

/-- What the merge of a finished pull leaves of the files it is of, and of the others. -/
structure Lands (u : Unicode) (service : Nat) (domain : HashDomain) (st : RepoStore)
    (db db' : Naiad.Db) (fl : Flight) : Prop where
  synced : ∀ f row hash n, db.files.lookup f = some row → fl.Of row → Keyed domain db f hash n →
    n ≤ fl.leg.currentMarker →
      fl.leg.owned ≠ [] ∧ Synced u service domain (fl.leg.cursor.getD 0) st db' f hash
  others : ∀ f row, db.files.lookup f = some row → ¬ fl.Of row → ∀ tag,
    db'.carries domain.asStr f tag service = db.carries domain.asStr f tag service

theorem Sound.lands (h : fl.Sound u service domain held st db) (hm : db.Masked) (hk : db.FilesKept)
    (hreached : Reached u held st) (hst : st ∈ held) (hdone : fl.done = true) :
    Lands u service domain st db (fl.merge u service now db) fl := by
  obtain ⟨leg, files⟩ := fl
  obtain ⟨past, htold, hpast⟩ := h.told
  have hdomain : leg.domain = domain := h.inDomain
  subst hdomain
  have hc := hk.constraints.files_unique
  have hreach : ∀ f row hash n, db.files.lookup f = some row → Of ⟨leg, files⟩ row →
      Keyed leg.domain db f hash n → n ≤ leg.currentMarker →
        leg.owned ≠ [] ∧ leg.Reaches (hash, row.blake3) ∧ domainKey leg.domain row = some hash := by
    rintro f row hash n hl hof hkeyed hn
    have howned := h.owned f row hash n hl hof hkeyed hn
    obtain ⟨row', hl', hkey, _⟩ := hkeyed
    obtain rfl : row = row' := Option.some.inj (hl.symm.trans hl')
    exact ⟨List.ne_nil_of_mem howned, h.planned.reaches h.unshared howned, hkey⟩
  cases files with
  | none =>
    refine ⟨?_, fun f row _ hnot => absurd nofun hnot⟩
    intro f row hash n hl hof hkeyed hn
    obtain ⟨hne, hreaches, hkey⟩ := hreach f row hash n hl hof hkeyed hn
    refine ⟨hne, Leg.synced_full hm.toMappingTags hc h.planned htold hreached (hreached st hst).1
      (hreached st hst).2.1 hdone hreaches hl rfl hkey ?_⟩
    intro hne
    obtain ⟨heq, m, hmarker, hle⟩ := hpast f hash n hkeyed hn hne
    show Synced u service leg.domain (past hash) st db f hash
    rw [heq]
    exact (h.stored m hmarker).2.2 f hash n hkeyed hle
  | some hashes =>
    refine ⟨?_, ?_⟩
    · intro f row hash n hl hof hkeyed hn
      obtain ⟨hne, hreaches, _⟩ := hreach f row hash n hl hof hkeyed hn
      have hcomplete : leg.complete = true := by
        have hdone' : (leg.complete || (leg.domain = .sha256 && leg.owned.isEmpty)) = true := hdone
        simpa [hne] using hdone'
      exact ⟨hne, Leg.synced_files hm.toMappingTags hc htold (h.snapshots rfl) hreached
        (hreached st hst).1 (hreached st hst).2.1 hcomplete hreaches hl rfl (hof hashes rfl)⟩
    · intro f row hl hnot tag
      refine Leg.carries_unrequested hm.toMappingTags hc hl ?_ tag
      intro hmem
      refine hnot ?_
      rintro _ ⟨⟩
      exact hmem

end Flight

/-- A merge that is not behind a cursor keeps what the cursor stands for. -/
theorem InStep.lands (h : InStep u service domain st db cursor marker)
    (hland : fl.Lands u service domain st db db') (hnot : fl.NotBehind cursor marker)
    (hfiles : db'.files = db.files) (hmax : maxMarker db' domain = maxMarker db domain) :
    InStep u service domain st db' cursor marker := by
  intro m hmarker
  obtain ⟨hle, hcursor, hsync⟩ := h m hmarker
  refine ⟨hle.trans hmax.ge, hcursor, ?_⟩
  intro f hash n hkeyed hn
  obtain ⟨row, hl, hrest⟩ := hkeyed
  rw [hfiles] at hl
  have hkeyed : Keyed domain db f hash n := ⟨row, hl, hrest⟩
  by_cases hof : fl.Of row
  · obtain ⟨hcurrent, hback⟩ := hnot m hmarker
    obtain ⟨hne, hland⟩ := hland.synced f row hash n hl hof hkeyed (hn.trans hcurrent)
    exact hland.mono (hback hne)
  · exact (hsync f hash n hkeyed hn).congr (hland.others f row hl hof)

theorem Flight.Sound.lands_other (h : g.Sound u service domain held st db)
    (hland : fl.Lands u service domain st db db')
    (hnot : fl.NotBehind g.leg.storedCursor g.leg.storedMarker) (hfiles : db'.files = db.files)
    (hmax : maxMarker db' domain = maxMarker db domain) :
    g.Sound u service domain held st db' where
  inDomain := h.inDomain
  planned := h.planned
  unshared := h.unshared
  snapshots := h.snapshots
  marker := h.marker.trans hmax.ge
  owned := by
    rintro f row hash n hl hof ⟨row', hl', hrest⟩ hn
    rw [hfiles] at hl hl'
    exact h.owned f row hash n hl hof ⟨row', hl', hrest⟩ hn
  cursor := h.cursor
  stored := h.stored.lands hland hnot hfiles hmax
  told := by
    obtain ⟨past, htold, hpast⟩ := h.told
    refine ⟨past, htold, ?_⟩
    rintro f hash n ⟨row, hl, hrest⟩ hn hne
    rw [hfiles] at hl
    exact hpast f hash n ⟨row, hl, hrest⟩ hn hne

/-- The pull state after a merge: what the pull stores, or none. -/
theorem stored_merge (leg : Leg) (hservice : (db.services.lookup service).isSome) (m : Nat)
    (hm : m ∈ storedMarker (leg.merge u service now db) service leg.domain) :
    ((leg.merge u service now db).mappingCursor service leg.domain.asStr).getD 0 ≤
        leg.cursor.getD 0 ∧
      (m = leg.currentMarker ∨ leg.mode = .whole ∧ leg.domain = .blake3 ∧ m = db.maxFileId) := by
  have haside := @aside_pull db (leg.pulled u service now)
  have hle : toI64 (leg.cursor.getD 0) ≤ leg.cursor.getD 0 := Nat.min_le_left _ _
  -- a snapshot leaves the state to the caller, who clears it without a cursor
  have hsnapshot : leg.mode.isDelta = false → leg.merge u service now db =
      Leg.recordDomainCursor (db.pull (leg.pulled u service now)) service leg ∧
        (db.pull (leg.pulled u service now)).aside = db.aside := by
    intro hmode
    unfold Leg.merge Leg.pulled at *
    cases hleg : leg.mode with
    | delta bits =>
      rw [hleg] at hmode
      cases hmode
    | whole =>
      simp only [hleg] at haside
      exact ⟨rfl, haside⟩
    | buckets bits =>
      simp only [hleg] at haside
      exact ⟨rfl, haside⟩
  cases hmode : leg.mode.isDelta with
  | true =>
    obtain ⟨bits, hleg⟩ : ∃ bits, leg.mode = .delta bits := by
      cases hleg : leg.mode with
      | delta bits => exact ⟨bits, rfl⟩
      | _ =>
        rw [hleg] at hmode
        cases hmode
    have hmerge : leg.merge u service now db = db.pull (leg.pulled u service now) := by
      simp only [Leg.merge, hleg]
    simp only [Leg.pulled, hleg, aside, Prod.mk.injEq] at haside
    have hstate : (leg.merge u service now db).pullState.lookup (service, leg.domain.asStr) =
        some ⟨some (toI64 (leg.cursor.getD 0)), some leg.currentMarker⟩ := by
      rw [hmerge, Leg.pulled, hleg, haside.2.2.2.2]
      exact AList.lookup_insert _
    simp only [storedMarker, hstate, Option.bind_some, Option.mem_some_iff] at hm
    simp only [mappingCursor, hstate, Option.bind_some, Option.getD_some]
    exact ⟨hle, .inl hm.symm⟩
  | false =>
    obtain ⟨hmerge, haside'⟩ := hsnapshot hmode
    simp only [aside, Prod.mk.injEq] at haside'
    obtain ⟨hfiles, _, _, hservices, _⟩ := haside'
    rw [hmerge] at hm ⊢
    unfold Leg.recordDomainCursor at hm ⊢
    split at hm
    · rename_i hpos
      have hset : ∀ marker, (db.pull (leg.pulled u service now)).committed
          ((db.pull (leg.pulled u service now)).setMappingPullState service leg.domain.asStr
            (leg.cursor.getD 0) marker) =
          (db.pull (leg.pulled u service now)).setPullState service leg.domain.asStr
            (leg.cursor.getD 0) marker := by
        intro marker
        simp only [setMappingPullState, hservices, hservice, if_true, committed]
      rw [hset] at hm
      rw [if_pos hpos, hset]
      simp only [storedMarker, setPullState, AList.lookup_insert, Option.bind_some,
        Option.mem_some_iff] at hm
      simp only [mappingCursor, setPullState, AList.lookup_insert, Option.bind_some,
        Option.getD_some]
      refine ⟨hle, ?_⟩
      split at hm
      · rename_i hwhole
        right
        exact ⟨hwhole.1, hwhole.2, hm.symm.trans
          (congrArg (fun files : Table Nat FileRow => files.keys.foldr max 0) hfiles)⟩
      · exact .inl hm.symm
    · simp [storedMarker, clearMappingPullState] at hm

/-- What a finished full pull stores stands for what it has merged. -/
theorem Flight.Sound.stored_full {leg : Leg}
    (h : Flight.Sound u service domain held st db ⟨leg, none⟩) (hm : db.Masked)
    (hk : db.FilesKept) (hreached : Reached u held st) (hst : st ∈ held)
    (hcomplete : leg.complete = true) (hservice : (db.services.lookup service).isSome) :
    InStep u service domain st (leg.merge u service now db)
      ((leg.merge u service now db).mappingCursor service domain.asStr)
      (storedMarker (leg.merge u service now db) service domain) := by
  have hdomain : leg.domain = domain := h.inDomain
  subst hdomain
  have hmax : maxMarker (leg.merge u service now db) leg.domain = maxMarker db leg.domain :=
    show maxMarker ((Flight.mk leg none).merge u service now db) leg.domain = _ from
      Flight.maxMarker_merge hm.toMappingTags leg.domain
  have hfiles : (leg.merge u service now db).files = db.files := Leg.files_merge hm.toMappingTags
  have hland : Flight.Lands u service leg.domain st db (leg.merge u service now db) ⟨leg, none⟩ :=
    h.lands hm hk hreached hst hcomplete
  intro m hmarker
  obtain ⟨hcursor, hcases⟩ := stored_merge leg hservice m hmarker
  refine ⟨?_, hcursor.trans h.cursor, ?_⟩
  · rw [hmax]
    rcases hcases with rfl | ⟨_, hblake, rfl⟩
    · exact h.marker
    · rw [hblake]
      exact le_rfl
  · rintro f hash n ⟨row, hl, hkey, hn'⟩ hn
    rw [hfiles] at hl
    rcases hcases with rfl | ⟨hwhole, hblake, _⟩
    · exact (hland.synced f row hash n hl nofun ⟨row, hl, hkey, hn'⟩ hn).2.mono hcursor
    · -- a whole snapshot tells the files that came in while it was fetched
      have hhash : row.blake3 = hash := by
        rw [hblake] at hkey
        exact Option.some.inj hkey
      obtain ⟨past, htold, _⟩ := h.told
      have hzero : past hash = 0 := by
        cases htold with
        | delta bits since hd _ =>
          have hd' := hd.mode
          simp only at hd'
          rw [hwhole] at hd'
          cases hd'
        | buckets bits _ hpast => exact hpast hash
        | whole _ hpast => exact hpast hash
      refine (Leg.synced_full (o := (hash, hash)) hm.toMappingTags hk.constraints.files_unique
        h.planned htold hreached (hreached st hst).1 (hreached st hst).2.1 hcomplete
        (Leg.reaches_whole hwhole hblake hash) hl hhash hkey ?_).mono hcursor
      intro hne
      exact absurd hzero hne

/-! ## Runs -/

namespace World

variable {w : World}

theorem sound_start (hm : db.Masked) (hk : db.FilesKept)
    (hnone : db.pullState.lookup (service, domain.asStr) = none) :
    (start db).Sound u service domain := by
  refine ⟨hm, hk, List.mem_singleton_self _, ?_, ?_, fun _ hfl => by cases hfl⟩
  · intro st hst
    obtain rfl := List.mem_singleton.1 hst
    exact ⟨⟨RepoStore.sound_empty, Advances.refl _ _⟩, fun _ hr => (List.not_mem_nil hr).elim,
      .refl _⟩
  · intro m hmarker
    simp [start, storedMarker, hnone] at hmarker

theorem Sound.write (h : w.Sound u service domain) (a : Action)
    (hclean : Legible u (stepStore verify w.store a)) :
    (w.step u verify service domain (.write a)).Sound u service domain := by
  obtain ⟨hgrown, hlegible, _⟩ := h.reached w.store h.current
  have hev := evolves_store verify hgrown.sound a
  have hgrown' : Grown (stepStore verify w.store a) :=
    ⟨hev.sound, hgrown.started.trans (hev.advances.mono (Nat.zero_le _))⟩
  have hlater : Later w.store (stepStore verify w.store a) := ⟨hev.cursor, hev.advances⟩
  refine ⟨h.masked, h.kept, by simp [step], ?_, ?_, ?_⟩
  · intro st hst
    rcases List.mem_append.1 hst with hst | hst
    · obtain ⟨hs, hl, hold⟩ := h.reached st hst
      exact ⟨hs, hl, hold.trans hlater⟩
    · obtain rfl := List.mem_singleton.1 hst
      exact ⟨hgrown', hclean, .refl _⟩
  · exact h.stored.later hgrown hgrown' hlegible hclean hlater
  · intro fl hfl
    exact (h.flights fl hfl).later hgrown hgrown' hlegible hclean hlater
      (List.subset_append_left _ _)

/-- Whatever becomes of the database between two merges. -/
theorem Sound.database (h : w.Sound u service domain) (hm : db.Masked) (hk : db.FilesKept)
    (hcont : Continues service domain w.db db)
    (hstate : db.pullState.lookup (service, domain.asStr) =
        w.db.pullState.lookup (service, domain.asStr) ∨
      db.pullState.lookup (service, domain.asStr) = none) :
    ({ w with db } : World).Sound u service domain := by
  refine ⟨hm, hk, h.current, h.reached, ?_, fun fl hfl => (h.flights fl hfl).continues hcont⟩
  show InStep u service domain w.store db (db.mappingCursor service domain.asStr)
    (storedMarker db service domain)
  rcases hstate with hstate | hstate
  · have hstored := h.stored.continues hcont
    rwa [mappingCursor, storedMarker, ← hstate] at hstored
  · intro m hmarker
    simp [storedMarker, hstate] at hmarker

theorem Sound.addFlight (h : w.Sound u service domain)
    (hfl : fl.Sound u service domain w.held w.store w.db) :
    ({ w with flights := w.flights ++ [fl] } : World).Sound u service domain := by
  refine ⟨h.masked, h.kept, h.current, h.reached, h.stored, ?_⟩
  intro fl' hfl'
  rcases List.mem_append.1 hfl' with hmem | hmem
  · exact h.flights fl' hmem
  · rw [List.mem_singleton.1 hmem]
    exact hfl

theorem Sound.merge (h : w.Sound u service domain) {i : Nat} (hi : w.flights[i]? = some fl)
    (hdone : fl.done = true) (hclean : w.Merges service domain i fl) :
    ({ w with db := fl.merge u service now w.db, flights := w.flights.eraseIdx i } : World).Sound
      u service domain := by
  obtain ⟨hservice, hothers, hstate⟩ := hclean
  have hfl := h.flights fl (List.mem_of_getElem? hi)
  have hm := h.masked.toMappingTags
  have hfiles : (fl.merge u service now w.db).files = w.db.files := Flight.files_merge hm
  have hmax : maxMarker (fl.merge u service now w.db) domain = maxMarker w.db domain :=
    Flight.maxMarker_merge hm domain
  have hland : fl.Lands u service domain w.store w.db (fl.merge u service now w.db) :=
    hfl.lands h.masked h.kept h.reached h.current hdone
  refine ⟨Flight.masked_merge h.masked, Flight.kept_merge hm h.kept, h.current, h.reached, ?_, ?_⟩
  · obtain ⟨leg, files⟩ := fl
    cases files with
    | none => exact hfl.stored_full h.masked h.kept h.reached h.current hdone hservice
    | some hashes =>
      have hkeep : ((Flight.mk leg (some hashes)).merge u service now w.db).pullState =
          w.db.pullState := by
        have haside : (w.db.pull (leg.pulledFiles u service now hashes)).aside = w.db.aside :=
          aside_pull (leg.pulledFiles u service now hashes)
        simp only [aside, Prod.mk.injEq] at haside
        exact haside.2.2.2.2
      have hstored := h.stored.lands hland (hstate rfl) hfiles hmax
      simp only [mappingCursor, storedMarker, hkeep] at hstored ⊢
      exact hstored
  · intro g hg
    exact (h.flights g (List.mem_of_mem_eraseIdx hg)).lands_other hland (hothers g hg) hfiles hmax

theorem Sound.step (h : w.Sound u service domain) (e : Event)
    (hclean : w.Clean u verify service domain e) :
    (w.step u verify service domain e).Sound u service domain := by
  cases e with
  | write a => exact h.write a hclean
  | file fw =>
    obtain ⟨hmappings, htags, hstate⟩ := writeFile_frame w.db fw
    exact h.database (h.masked.of_frame hmappings htags) (h.kept.write fw)
      (continues_file h.kept hclean) (.inl (by rw [hstate]))
  | library db masked kept =>
    obtain ⟨hfiles, hcounter, hcarries, hstate⟩ := hclean
    exact h.database masked kept (continues_library hfiles hcounter hcarries) hstate
  | read mode => exact h.addFlight (Flight.sound_read h.kept mode hclean h.stored)
  | readFiles prefixBits hashes =>
    refine h.addFlight (Flight.sound_readFiles h.kept ?_ hashes hclean)
    cases prefixBits with
    | none => rfl
    | some bits => rfl
  | ask i budget n =>
    cases hi : w.flights[i]? with
    | none =>
      simp only [World.step, hi]
      exact h
    | some fl =>
      simp only [World.step, hi]
      refine ⟨h.masked, h.kept, h.current, h.reached, h.stored, ?_⟩
      intro fl' hfl'
      rcases List.mem_or_eq_of_mem_set hfl' with hmem | rfl
      · exact h.flights fl' hmem
      · exact (h.flights fl (List.mem_of_getElem? hi)).ask h.current
          (h.reached w.store h.current).1 budget n
  | merge i now =>
    cases hi : w.flights[i]? with
    | none =>
      simp only [World.step, hi]
      exact h
    | some fl =>
      simp only [World.step, hi]
      split
      · exact h.merge hi (by assumption) (hclean fl hi (by assumption))
      · exact h
  | drop i =>
    exact ⟨h.masked, h.kept, h.current, h.reached, h.stored,
      fun fl hfl => h.flights fl (List.mem_of_mem_eraseIdx hfl)⟩

end World

/-- A pull that reads the database and asks for its keys, with nothing in between. -/
def World.pullAlone (service : Nat) (domain : HashDomain) (w : World) (mode : FetchMode)
    (asks : List (Nat × Nat)) : Leg :=
  asks.foldl (fun leg a => leg.ask w.store a.1 a.2) (Leg.read w.db service domain mode)

theorem World.Sound.alone {w : World} (h : w.Sound u service domain) (mode : FetchMode)
    (asks : List (Nat × Nat)) (hu : (Leg.read w.db service domain mode).Unshared)
    (hcomplete : (w.pullAlone service domain mode asks).complete = true) {f : Nat} {row : FileRow}
    {hash : Hash} (hl : w.db.files.lookup f = some row) (hkey : domainKey domain row = some hash)
    (tag : Tag) :
    ((w.pullAlone service domain mode asks).merge u service now w.db).carries domain.asStr f tag
        service = true ↔ Leg.Reads u w.store hash tag := by
  obtain ⟨hgrown, hlegible, _⟩ := h.reached w.store h.current
  obtain ⟨hcurrent, hfl, hcursor⟩ : (w.pullAlone service domain mode asks).currentMarker =
        maxMarker w.db domain ∧
      Flight.Sound u service domain w.held w.store w.db
        ⟨w.pullAlone service domain mode asks, none⟩ ∧
      ∀ c ∈ (w.pullAlone service domain mode asks).cursor, c = w.store.mappingCursor := by
    refine @run_invariant _ _ (fun leg a => leg.ask w.store a.1 a.2)
      (fun leg : Leg => leg.currentMarker = maxMarker w.db domain ∧
        Flight.Sound u service domain w.held w.store w.db ⟨leg, none⟩ ∧
        ∀ c ∈ leg.cursor, c = w.store.mappingCursor) _ asks
      ⟨rfl, Flight.sound_read h.kept mode hu h.stored, fun c hc => by cases hc⟩ ?_
    rintro leg a ⟨hcurrent, hfl, hcursor⟩
    exact ⟨(leg.ask_stored w.store a.1 a.2).2.2.trans hcurrent,
      hfl.ask h.current hgrown a.1 a.2, Leg.ask_cursor_same hgrown.sound hcursor a.1 a.2⟩
  have hcovers : (w.pullAlone service domain mode asks).cursor.getD 0 = w.store.mappingCursor := by
    rw [Leg.complete, Bool.and_eq_true] at hcomplete
    obtain ⟨c, hc⟩ := Option.isSome_iff_exists.1 hcomplete.1
    rw [hc, Option.getD_some]
    exact hcursor c hc
  obtain ⟨n, hkeyed, hn⟩ := keyed_of_key h.kept.numbered hl hkey
  have hland : Flight.Lands u service domain w.store w.db
      ((w.pullAlone service domain mode asks).merge u service now w.db)
      ⟨w.pullAlone service domain mode asks, none⟩ :=
    hfl.lands h.masked h.kept h.reached h.current hcomplete
  have hsync := (hland.synced f row hash n hl (fun _ h => by cases h) hkeyed
    (hn.trans hcurrent.ge)).2
  simp only [hcovers] at hsync
  exact hsync.exact hgrown.sound hlegible tag

def oneFile : Naiad.Db :=
  (Db.empty.writeFile (.insertFile ⟨Hash.fill 1, [47, 97], 10, none, none, none⟩ 1 0)).serve
    (.subscribe "a" "http://a" none)

theorem masked_oneFile : oneFile.Masked := masked_empty.of_frame rfl rfl

def tagging (tag : String) (deleted : Bool) : Event :=
  .write (.bulk [((Hash.fill 1).toHex, tag, deleted)])

def staleRun : List Event :=
  [tagging "old" false, .readFiles (some 8) [Hash.fill 1], .ask 0 10000 5, tagging "old" true,
    .read (.delta 8), .ask 1 10000 5, .merge 1 0, .merge 0 0]

/-- Without the condition a change is lost: a pull of one file that was answered first and merges last
brings a deleted tag back under the later cursor, and the next pull does not take it away. -/
theorem stale_files_pull :
    let w := run (World.step .plainText (fun _ => true) 2 .blake3) (World.start oneFile)
      staleRun
    let leg := w.pullAlone 2 .blake3 (.delta 8) [(10000, 5)]
    leg.complete = true ∧ ¬ w.store.Current (Hash.fill 1) "old" ∧
      (leg.merge .plainText 2 0 w.db).carries "blake3" 1 ⟨"", "old"⟩ 2 = true := by
  refine ⟨by decide +kernel, ?_, by decide +kernel⟩
  rintro ⟨r, hrow, hcurrent⟩
  have hdeleted : ((run (World.step .plainText (fun _ => true) 2 .blake3) (World.start oneFile)
      staleRun).store.row (Hash.fill 1) "old").map Server.MappingRow.status = some .deleted := by decide +kernel
  rw [hrow, Option.map_some, hcurrent] at hdeleted
  cases hdeleted

end

end Overlap
end Daemon
end Naiad
