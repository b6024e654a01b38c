import Naiad.Daemon.NewKeys
import Naiad.Server.Sync

/-!
# Naiad.Daemon.LateMerge

The merge of a leg whose replies come from stores of some time ago. For one file the repository is a
log by tag, and the tags the client carries are a replica of it, in sync up to a cursor. A leg
leaves the replicas of its files in sync up to the least cursor among its replies, whatever has been
written since.

* `tagLog`: the rows of a hash, by the tags the client reads them as.
* `Synced`: what the client carries of a file, up to a cursor.
* `Told`, `Tells`: what the replies of a leg say of a file, and as of which store.
* `synced_full`, `synced_files`: **the replicas after a leg of a pull, or of a pull of some files**.
-/

namespace Naiad
namespace Daemon

open Lib Netproto Db Server RepoStore

section

variable {u : Unicode} {st st' : RepoStore} {hash : Hash} {tag : Tag}

/-! ## The repository as a log by tag -/

/-- The status of the row that stands for a tag, with its sequence number. -/
def tagLog (u : Unicode) (st : RepoStore) (hash : Hash) : Log Tag MappingStatus := fun tag =>
  (st.joinRows.find? fun r => r.1 = hash ∧ readTag u r.2.1 = some tag).map fun r =>
    (r.2.2.status, r.2.2.seq)

theorem tagLog_eq_none (hs : st.Sound) :
    tagLog u st hash tag = none ↔ ∀ t r, st.row hash t = some r → readTag u t ≠ some tag := by
  rw [tagLog, Option.map_eq_none_iff, List.find?_eq_none]
  constructor
  · intro h t r hrow ht
    have := h (hash, t, r) ((mem_joinRows hs).2 hrow)
    simp [ht] at this
  · rintro h ⟨hash', t, r⟩ hmem
    rw [mem_joinRows hs] at hmem
    rw [decide_eq_true_eq]
    rintro ⟨rfl, ht⟩
    exact h t r hmem ht

/-- No two rows of a hash stand for one tag, so each tag has at most one. -/
theorem tagLog_eq_some (hs : st.Sound) (hl : Legible u st) {v : MappingStatus} {n : Nat} :
    tagLog u st hash tag = some (v, n) ↔
      ∃ t r, st.row hash t = some r ∧ readTag u t = some tag ∧ r.status = v ∧ r.seq = n := by
  constructor
  · intro h
    obtain ⟨⟨hash', t, r⟩, hfind, heq⟩ := Option.map_eq_some_iff.1 h
    have hmem := (mem_joinRows hs).1 (List.mem_of_find?_eq_some hfind)
    obtain ⟨rfl, ht⟩ : hash' = hash ∧ readTag u t = some tag := by
      simpa using List.find?_some hfind
    simp only [Prod.mk.injEq] at heq
    exact ⟨t, r, hmem, ht, heq.1, heq.2⟩
  · rintro ⟨t, r, hrow, ht, rfl, rfl⟩
    cases h : tagLog u st hash tag with
    | none => exact absurd ht ((tagLog_eq_none hs).1 h t r hrow)
    | some e =>
      obtain ⟨⟨hash', t', r'⟩, hfind, heq⟩ := Option.map_eq_some_iff.1 h
      have hmem := (mem_joinRows hs).1 (List.mem_of_find?_eq_some hfind)
      obtain ⟨rfl, ht'⟩ : hash' = hash ∧ readTag u t' = some tag := by
        simpa using List.find?_some hfind
      have htext := hl.text_eq hs hrow hmem ht ht'
      rw [← htext, hrow] at hmem
      cases hmem
      exact congrArg some heq.symm

theorem tagLog_pos (hg : Grown st) (hl : Legible u st) {v : MappingStatus} {n : Nat}
    (h : tagLog u st hash tag = some (v, n)) : 0 < n := by
  obtain ⟨t, r, hrow, _, _, rfl⟩ := (tagLog_eq_some hg.sound hl).1 h
  exact hg.seq_pos hrow

theorem tagLog_bounded (hs : st.Sound) (hl : Legible u st) :
    Bounded (tagLog u st hash) st.mappingCursor := by
  intro tag v n h
  obtain ⟨t, r, hrow, _, rfl, rfl⟩ := (tagLog_eq_some hs hl).1 h
  exact log_bounded st (hash, t) _ _ (RepoStore.log_eq_some.2 ⟨r, hrow, rfl, rfl⟩)

/-- What a store is later than, for a client that has read it. -/
structure Later (st st' : RepoStore) : Prop where
  cursor : st.mappingCursor ≤ st'.mappingCursor
  advances : Advances st.mappingCursor st.log st'.log

theorem Later.refl (st : RepoStore) : Later st st := ⟨le_rfl, .refl _ _⟩

theorem Later.trans {st'' : RepoStore} (h : Later st st') (h' : Later st' st'') : Later st st'' :=
  ⟨h.cursor.trans h'.cursor, h.advances.trans (h'.advances.mono h.cursor)⟩

theorem Later.row {t : String} {r : Server.MappingRow} (h : Later st st')
    (hrow : st.row hash t = some r) : ∃ r', st'.row hash t = some r' ∧
      (r'.status = r.status ∧ r'.seq = r.seq ∨ st.mappingCursor < r'.seq) := by
  have hlog : st.log (hash, t) = some (r.status, r.seq) := RepoStore.log_eq_some.2 ⟨r, hrow, rfl, rfl⟩
  rcases h.advances (hash, t) with heq | ⟨v, n, heq, hlt⟩
  · rw [hlog] at heq
    obtain ⟨r', hrow', hstatus, hseq⟩ := RepoStore.log_eq_some.1 heq
    exact ⟨r', hrow', .inl ⟨hstatus, hseq⟩⟩
  · obtain ⟨r', hrow', _, rfl⟩ := RepoStore.log_eq_some.1 heq
    exact ⟨r', hrow', .inr hlt⟩

/-- The log by tag changes as the store does. -/
theorem advances_tagLog (hs : st.Sound) (hs' : st'.Sound) (hl : Legible u st)
    (hl' : Legible u st') (h : Later st st') :
    Advances st.mappingCursor (tagLog u st hash) (tagLog u st' hash) := by
  intro tag
  cases hold : tagLog u st hash tag with
  | some e =>
    obtain ⟨v, n⟩ := e
    obtain ⟨t, r, hrow, ht, rfl, rfl⟩ := (tagLog_eq_some hs hl).1 hold
    obtain ⟨r', hrow', hsame | hlt⟩ := h.row hrow
    · left
      exact (tagLog_eq_some hs' hl').2 ⟨t, r', hrow', ht, hsame.1, hsame.2⟩
    · right
      exact ⟨r'.status, r'.seq, (tagLog_eq_some hs' hl').2 ⟨t, r', hrow', ht, rfl, rfl⟩, hlt⟩
  | none =>
    cases hnew : tagLog u st' hash tag with
    | none => exact .inl rfl
    | some e =>
      right
      obtain ⟨v, n⟩ := e
      obtain ⟨t, r', hrow', ht, rfl, rfl⟩ := (tagLog_eq_some hs' hl').1 hnew
      have hlog' : st'.log (hash, t) = some (r'.status, r'.seq) :=
        RepoStore.log_eq_some.2 ⟨r', hrow', rfl, rfl⟩
      rcases h.advances (hash, t) with heq | ⟨v, n, heq, hlt⟩
      · rw [hlog'] at heq
        obtain ⟨r, hrow, _⟩ := RepoStore.log_eq_some.1 heq.symm
        exact absurd ht ((tagLog_eq_none hs).1 hold t r hrow)
      · rw [hlog'] at heq
        cases heq
        exact ⟨_, _, rfl, hlt⟩

theorem reads_iff (hs : st.Sound) (hl : Legible u st) :
    Leg.Reads u st hash tag ↔ ∃ v n, tagLog u st hash tag = some (v, n) ∧ Live v := by
  constructor
  · rintro ⟨t, ⟨r, hrow, hcurrent⟩, ht⟩
    exact ⟨.current, r.seq, (tagLog_eq_some hs hl).2 ⟨t, r, hrow, ht, hcurrent, rfl⟩, rfl⟩
  · rintro ⟨v, n, hlog, hlive⟩
    obtain ⟨t, r, hrow, ht, rfl, _⟩ := (tagLog_eq_some hs hl).1 hlog
    exact ⟨t, ⟨r, hrow, hlive⟩, ht⟩

/-! ## Replicas -/

/-- What the client carries of a file, against a store, up to a cursor. -/
def Synced (u : Unicode) (service : Nat) (domain : HashDomain) (c : Nat) (st : RepoStore)
    (db : Naiad.Db) (f : Nat) (hash : Hash) : Prop :=
  InSync Live (fun _ => True) c (tagLog u st hash)
    fun tag => db.carries domain.asStr f tag service = true

section

variable {service : Nat} {domain : HashDomain} {c c' : Nat} {db db' : Naiad.Db} {f : Nat}

theorem Synced.mono (h : Synced u service domain c' st db f hash) (hc : c ≤ c') :
    Synced u service domain c st db f hash := InSync.mono h hc

theorem Synced.advance (h : Synced u service domain c st db f hash) (hs : st.Sound)
    (hs' : st'.Sound) (hl : Legible u st) (hl' : Legible u st') (hlater : Later st st')
    (hc : c ≤ st.mappingCursor) : Synced u service domain c st' db f hash :=
  InSync.advance h ((advances_tagLog hs hs' hl hl' hlater).mono hc)

theorem Synced.congr (h : Synced u service domain c st db f hash)
    (hcarries : ∀ tag, db'.carries domain.asStr f tag service = db.carries domain.asStr f tag service) :
    Synced u service domain c st db' f hash := by
  unfold Synced
  simp only [hcarries]
  exact h

/-- A replica in sync up to the store's own cursor has the tags of the store. -/
theorem Synced.exact (h : Synced u service domain st.mappingCursor st db f hash) (hs : st.Sound)
    (hl : Legible u st) (tag : Tag) :
    db.carries domain.asStr f tag service = true ↔ Leg.Reads u st hash tag := by
  rw [reads_iff hs hl]
  exact InSync.exact h (tagLog_bounded hs hl) tag trivial

/-- What a reply leaves of a file, by tag: what the row of its hash says in a store; for a row that
was not asked past `since`, what was there, or nothing when it was asked from the beginning. -/
def Tells (u : Unicode) (p : Pulled) (db : Naiad.Db) (f : Nat) (hash : Hash) (st : RepoStore)
    (since : Nat) : Prop :=
  ∀ tag before, (∃ v n, tagLog u st hash tag = some (v, n) ∧
      (p.supplied db f tag before = true ↔ Live v)) ∨
    ((∀ v n, tagLog u st hash tag = some (v, n) → n ≤ since) ∧
      (p.supplied db f tag before = true ↔ since ≠ 0 ∧ before = true))

/-- A reply of an earlier store leaves a replica in sync up to any cursor that store had reached. -/
theorem Tells.synced {p : Pulled} {since : Nat} (h : Tells u p db f hash st since)
    (hservice : p.service = service) (hdomain : p.domain = domain.asStr) (hm : db.MappingTags)
    (hg : Grown st) (hl : Legible u st) (hg' : Grown st') (hl' : Legible u st')
    (hlater : Later st st') (hc : c ≤ st.mappingCursor)
    (hold : since ≠ 0 → Synced u service domain since st' db f hash) :
    Synced u service domain c st' (db.pull p) f hash := by
  refine InSync.merge hold ((advances_tagLog hg.sound hg'.sound hl hl' hlater).mono hc)
    (fun tag v n => tagLog_pos hg hl) ?_
  intro tag _
  have hpull := carries_pull hm p f tag
  rw [hservice, hdomain] at hpull
  rw [hpull]
  exact h tag _

end

end

/-! ## The replies of a leg -/

namespace Leg

/-- A delta on its way: of each key answered the rows past its cursor, in a store that has come as
far as the leg's cursor. -/
structure Deltas (bits : Nat) (since : String → Nat) (held : List RepoStore) (leg : Leg) :
    Prop where
  mode : leg.mode = .delta bits
  asked : leg.since = leg.keys.map since
  unread : leg.cursor = none → leg.served = 0
  answers : Answers bits DeltaMapping.hash
    (fun st d => RowOf st d ∧ min (since (bucketKey d.hash bits)) (2 ^ 63 - 1) < d.seq)
    (fun st => leg.cursor.getD 0 ≤ st.mappingCursor) held (leg.keys.take leg.served) (· ∈ leg.changes)

/-- Bucket snapshots on their way. -/
structure Snapshots (bits : Nat) (held : List RepoStore) (leg : Leg) : Prop where
  mode : leg.mode = .buckets bits
  unread : leg.cursor = none → leg.served = 0
  answers : Answers bits Prod.fst (fun st p => st.Current p.1 p.2)
    (fun st => leg.cursor.getD 0 ≤ st.mappingCursor) held (leg.keys.take leg.served) (· ∈ pairs leg.tags)

/-- One snapshot. -/
structure Snapshot (held : List RepoStore) (leg : Leg) : Prop where
  mode : leg.mode = .whole
  tags : leg.complete = true →
    ∃ st ∈ held, leg.cursor.getD 0 ≤ st.mappingCursor ∧ leg.tags = st.snapshot

section

variable {u : Unicode} {leg : Leg} {st : RepoStore} {held held' : List RepoStore}
  {bits budget n : Nat} {since : String → Nat}

theorem Deltas.mono (h : leg.Deltas bits since held) (hsub : held ⊆ held') :
    leg.Deltas bits since held' := ⟨h.mode, h.asked, h.unread, h.answers.mono hsub⟩

theorem Snapshots.mono (h : leg.Snapshots bits held) (hsub : held ⊆ held') :
    leg.Snapshots bits held' := ⟨h.mode, h.unread, h.answers.mono hsub⟩

theorem Snapshot.mono (h : leg.Snapshot held) (hsub : held ⊆ held') : leg.Snapshot held' := by
  refine ⟨h.mode, ?_⟩
  intro hcomplete
  obtain ⟨st, hst, hrest⟩ := h.tags hcomplete
  exact ⟨st, hsub hst, hrest⟩

/-- A further reply lowers the leg's cursor at most to the cursor of the store that gave it. -/
theorem minCursor_le (leg : Leg) (c : Nat) : (leg.minCursor c).getD 0 ≤ c := by
  rw [minCursor, Option.getD_some]
  cases leg.cursor with
  | none => exact le_rfl
  | some old => exact Nat.min_le_right _ _

theorem minCursor_le_old {c old : Nat} (h : leg.cursor = some old) :
    (leg.minCursor c).getD 0 ≤ old := by
  rw [minCursor, h]
  exact Nat.min_le_left _ _

/-- What has been answered stays answered when the leg's cursor is lowered. -/
theorem answers_minCursor {α : Type} {hash : α → Hash} {truth : RepoStore → α → Prop}
    {said : α → Prop} {c : Nat} (hunread : leg.cursor = none → leg.served = 0)
    (h : Answers bits hash truth (fun st => leg.cursor.getD 0 ≤ st.mappingCursor) held
      (leg.keys.take leg.served) said) :
    Answers bits hash truth (fun st => (leg.minCursor c).getD 0 ≤ st.mappingCursor) held
      (leg.keys.take leg.served) said := by
  refine ⟨h.named, ?_⟩
  intro key hkey
  cases hcursor : leg.cursor with
  | none =>
    rw [hunread hcursor, List.take_zero] at hkey
    cases hkey
  | some old =>
    obtain ⟨st, hst, hgood, hrows⟩ := h.rows key hkey
    rw [hcursor] at hgood
    exact ⟨st, hst, (minCursor_le_old hcursor).trans hgood, hrows⟩

/-- A request keeps what the leg has read of the pull state and the marker. -/
theorem ask_stored (leg : Leg) (st : RepoStore) (budget n : Nat) :
    (leg.ask st budget n).storedCursor = leg.storedCursor ∧
      (leg.ask st budget n).storedMarker = leg.storedMarker ∧
      (leg.ask st budget n).currentMarker = leg.currentMarker := by
  unfold Leg.ask
  split
  · exact ⟨rfl, rfl, rfl⟩
  · cases leg.mode with
    | whole => exact ⟨rfl, rfl, rfl⟩
    | buckets bits =>
      simp only
      split
      · exact ⟨rfl, rfl, rfl⟩
      · exact ⟨rfl, rfl, rfl⟩
    | delta bits =>
      simp only
      split
      · unfold Leg.resync
        split
        · exact ⟨rfl, rfl, rfl⟩
        · exact ⟨rfl, rfl, rfl⟩
      · exact ⟨rfl, rfl, rfl⟩

/-- A request leaves the cursor, lowers it to the store's, or starts over without one. -/
theorem ask_cursor (leg : Leg) (hs : st.Sound) (budget n : Nat) :
    (leg.ask st budget n).cursor = leg.cursor ∨
      (leg.ask st budget n).cursor = leg.minCursor st.mappingCursor ∨
      (leg.ask st budget n).cursor = some st.mappingCursor ∨
      (leg.ask st budget n).cursor = none := by
  cases hcomplete : leg.complete with
  | true => simp [Leg.ask, hcomplete]
  | false =>
    cases hmode : leg.mode with
    | whole => simp [Leg.ask, hcomplete, hmode]
    | buckets bits =>
      simp only [Leg.ask, hcomplete, hmode, Bool.false_eq_true, if_false]
      cases hreq : st.nativeBuckets budget bits ((leg.keys.drop leg.served).take n) none with
      | error e => simp
      | ok reply =>
        cases reply with
        | delta cursor changes => simp
        | snapshot cursor tags =>
          obtain ⟨rfl, _⟩ := nativeBuckets_snapshot hs hreq
          simp
    | delta bits =>
      rcases ask_delta hmode hcomplete st budget n with heq | ⟨changes, _, heq⟩
      · simp [heq]
      · rw [heq]
        unfold resync
        split
        · simp
        · simp

theorem ask_cursor_le (hs : st.Sound) (h : leg.cursor.getD 0 ≤ st.mappingCursor)
    (budget n : Nat) : (leg.ask st budget n).cursor.getD 0 ≤ st.mappingCursor := by
  rcases ask_cursor leg hs budget n with heq | heq | heq | heq
  · rwa [heq]
  · rw [heq]
    exact leg.minCursor_le _
  · rw [heq, Option.getD_some]
  · simp [heq]

/-- A leg that one store has answered has its cursor. -/
theorem ask_cursor_same (hs : st.Sound) (h : ∀ c ∈ leg.cursor, c = st.mappingCursor)
    (budget n : Nat) : ∀ c ∈ (leg.ask st budget n).cursor, c = st.mappingCursor := by
  intro c hc
  rcases ask_cursor leg hs budget n with heq | heq | heq | heq
  · rw [heq] at hc
    exact h c hc
  · rw [heq, minCursor, Option.mem_some_iff] at hc
    cases hcursor : leg.cursor with
    | none => simp [hcursor] at hc; exact hc.symm
    | some old =>
      have := h old hcursor
      simp only [hcursor, Option.elim_some] at hc
      omega
  · rw [heq, Option.mem_some_iff] at hc
    exact hc.symm
  · rw [heq] at hc
    cases hc

theorem deltas_start {leg : Leg} (hmode : leg.mode = .delta bits)
    (hsince : leg.since = leg.keys.map since) (hserved : leg.served = 0)
    (hchanges : leg.changes = []) : leg.Deltas bits since held := by
  refine ⟨hmode, hsince, fun _ => hserved, ?_⟩
  rw [hserved, List.take_zero]
  refine Answers.nil ?_
  intro d hd
  rw [hchanges] at hd
  cases hd

theorem Deltas.ask (h : leg.Deltas bits since held) (hp : leg.Planned) (hst : st ∈ held)
    (hs : st.Sound) : (leg.ask st budget n).Deltas bits since held ∨
      (leg.ask st budget n).Deltas bits (fun _ => 0) held := by
  cases hcomplete : leg.complete with
  | true =>
    left
    simp only [Leg.ask, hcomplete, if_true]
    exact h
  | false =>
    rcases ask_delta h.mode hcomplete st budget n with heq | ⟨changes, hreq, heq⟩
    · rw [heq]
      exact .inl h
    · rw [heq]
      unfold resync
      split
      · right
        exact deltas_start h.mode rfl rfl rfl
      · left
        refine ⟨h.mode, h.asked, fun hc => absurd hc (Option.some_ne_none _), ?_⟩
        rw [h.asked, ← List.map_drop, ← List.map_take] at hreq
        obtain ⟨_, hmem⟩ := nativeBuckets_delta_each hs hreq
        show Answers bits DeltaMapping.hash _ _ held (leg.keys.take (leg.served + n)) _
        rw [take_window]
        refine (answers_minCursor h.unread h.answers).window hst (leg.minCursor_le _)
          (fun key hkey => not_mem_taken (hp.key_eq (.inl h.mode)).1 _ _ hkey) ?_
        intro d
        rw [List.mem_append, hmem]
        refine or_congr_right ?_
        have hlo : ∀ key ∈ (leg.keys.drop leg.served).take n, ∃ lo, key = bucketKey lo bits := by
          intro key hkey
          obtain ⟨o, _, ho⟩ := ((hp.key_eq (.inl h.mode)).2 key).1
            (List.mem_of_mem_drop (List.mem_of_mem_take hkey))
          exact ⟨o.1, ho.symm⟩
        constructor
        · rintro ⟨key, hkey, lo, hparse, heq', hseq, hrow⟩
          obtain ⟨lo', rfl⟩ := hlo key hkey
          rw [parse_bucketKey, Option.some.injEq] at hparse
          rw [← hparse, bucketKey_masked] at heq'
          rw [heq']
          exact ⟨hkey, hrow, hseq⟩
        · rintro ⟨hkey, hrow, hseq⟩
          obtain ⟨lo, hlo'⟩ := hlo _ hkey
          exact ⟨_, hkey, masked lo bits, by rw [hlo', parse_bucketKey],
            by rw [hlo', bucketKey_masked], hseq, hrow⟩

theorem Snapshots.ask (h : leg.Snapshots bits held) (hp : leg.Planned) (hst : st ∈ held)
    (hs : st.Sound) : (leg.ask st budget n).Snapshots bits held := by
  unfold Leg.ask
  split
  · exact h
  · simp only [h.mode]
    cases hreq : st.nativeBuckets budget bits ((leg.keys.drop leg.served).take n) none with
    | error e => exact h
    | ok reply =>
      cases reply with
      | delta cursor changes => exact h
      | snapshot cursor tags =>
        obtain ⟨rfl, hmem⟩ := nativeBuckets_snapshot hs hreq
        refine ⟨rfl, nofun, ?_⟩
        show Answers bits Prod.fst _ _ held (leg.keys.take (leg.served + n)) _
        rw [take_window]
        refine (answers_minCursor h.unread h.answers).window hst (leg.minCursor_le _)
          (fun key hkey => not_mem_taken (hp.key_eq (.inr h.mode)).1 _ _ hkey) ?_
        intro p
        rw [mem_pairs_extendTags, hmem, covers_window hp (.inr h.mode)]

theorem Snapshot.ask (h : leg.Snapshot held) (hst : st ∈ held) :
    (leg.ask st budget n).Snapshot held := by
  unfold Leg.ask
  split
  · exact h
  · simp only [h.mode]
    exact ⟨rfl, fun _ => ⟨st, hst, le_rfl, rfl⟩⟩

end

/-- What the replies so far say, with the cursor past which the rows of each hash were asked. -/
inductive Told (held : List RepoStore) (past : Hash → Nat) (leg : Leg) : Prop
  | delta (bits : Nat) (since : String → Nat) (h : leg.Deltas bits since held)
      (hpast : ∀ hash, past hash = since (bucketKey hash bits))
  | buckets (bits : Nat) (h : leg.Snapshots bits held) (hpast : ∀ hash, past hash = 0)
  | whole (h : leg.Snapshot held) (hpast : ∀ hash, past hash = 0)

/-- The cursor a leg asks from when it has been read. -/
def firstPast (db : Naiad.Db) (service : Nat) (domain : HashDomain) (mode : FetchMode)
    (hash : Hash) : Nat :=
  let marker := (db.pullState.lookup (service, domain.asStr)).bind PullState.lastPullFileMarker
  match mode with
  | .delta bits =>
    if marker.isNone then 0
    else if bucketKey hash bits ∈ newKeys db domain bits (marker.getD 0) then 0
    else (db.mappingCursor service domain.asStr).getD 0
  | _ => 0

section

variable {leg : Leg} {st : RepoStore} {held held' : List RepoStore} {budget n : Nat}
  {past : Hash → Nat}

theorem Told.mono (h : leg.Told held past) (hsub : held ⊆ held') : leg.Told held' past := by
  cases h with
  | delta bits since h hpast => exact .delta bits since (h.mono hsub) hpast
  | buckets bits h hpast => exact .buckets bits (h.mono hsub) hpast
  | whole h hpast => exact .whole (h.mono hsub) hpast

theorem told_read (db : Naiad.Db) (service : Nat) (domain : HashDomain) (mode : FetchMode) :
    (Leg.read db service domain mode).Told held (firstPast db service domain mode) := by
  cases mode with
  | whole => exact .whole ⟨rfl, fun hcomplete => by cases hcomplete⟩ fun _ => rfl
  | buckets bits =>
    refine .buckets bits ⟨rfl, fun _ => rfl, ?_⟩ fun _ => rfl
    refine Answers.nil ?_
    rintro ⟨hash, t⟩ hmem
    have hmem' : (hash, t) ∈ pairs ∅ := hmem
    simp [mem_pairs] at hmem'
  | delta bits => exact .delta bits _ (deltas_start rfl rfl rfl rfl) fun _ => rfl

/-- After a request every hash is asked from where it was, or from the beginning. -/
theorem Told.ask (h : leg.Told held past) (hp : leg.Planned) (hst : st ∈ held) (hs : st.Sound) :
    ∃ past', (leg.ask st budget n).Told held past' ∧
      ∀ hash, past' hash = past hash ∨ past' hash = 0 := by
  cases h with
  | delta bits since h hpast =>
    rcases h.ask hp hst hs with h | h
    · exact ⟨past, .delta bits since h hpast, fun _ => .inl rfl⟩
    · exact ⟨fun _ => 0, .delta bits _ h fun _ => rfl, fun _ => .inr rfl⟩
  | buckets bits h hpast => exact ⟨past, .buckets bits (h.ask hp hst hs) hpast, fun _ => .inl rfl⟩
  | whole h hpast => exact ⟨past, .whole (h.ask hst) hpast, fun _ => .inl rfl⟩

/-! ## The merge of the replies -/

/-- A leg tells a file by its own hash in the domain, and asks for the bucket of that hash. -/
structure Reaches (leg : Leg) (o : Hash × Hash) : Prop where
  translate : ∀ hash, leg.translate hash = some o.2 ↔ hash = o.1
  asked : ∀ bits, leg.mode = .delta bits ∨ leg.mode = .buckets bits → bucketKey o.1 bits ∈ leg.keys

theorem Planned.reaches (h : leg.Planned) (hu : leg.Unshared) {o : Hash × Hash}
    (ho : o ∈ leg.owned) : leg.Reaches o :=
  ⟨fun _ => h.translate_iff hu ho, fun _ hmode => ((h.key_eq hmode).2 _).2 ⟨o, ho, rfl⟩⟩

/-- A whole snapshot of the native domain tells every file. -/
theorem reaches_whole (hmode : leg.mode = .whole) (hdomain : leg.domain = .blake3) (hash : Hash) :
    leg.Reaches (hash, hash) := by
  refine ⟨?_, ?_⟩
  · intro hash'
    simp only [translate, hdomain, Option.some_inj]
  · intro bits hbits
    rw [hmode] at hbits
    rcases hbits with hbits | hbits <;> cases hbits

variable {u : Unicode} {db : Naiad.Db} {service f bits : Nat} {now : Int} {o : Hash × Hash}
  {row : FileRow} {since : String → Nat}

/-- A file is in a cleared bucket if its own was asked from the beginning. -/
theorem inBuckets_since (hp : leg.Planned) (h : leg.Deltas bits since held)
    (ho : bucketKey o.1 bits ∈ leg.keys) (hl : db.files.lookup f = some row)
    (hkey : domainKey leg.domain row = some o.1) :
    db.inBuckets leg.domain.asStr (leg.fullBuckets bits) f =
      decide (since (bucketKey o.1 bits) = 0) := by
  have hrange : ∀ lo : Hash, db.inKeyRange leg.domain.asStr (bucketKey lo bits) (bucketUpper lo bits) f =
      decide (bucketKey o.1 bits = bucketKey lo bits) := by
    intro lo
    rw [Bool.eq_iff_iff, inKeyRange, hl, Option.bind_some, keyText_asStr, hkey, Option.map_some,
      Option.any_some, Bool.and_eq_true, decide_eq_true_eq, decide_eq_true_eq, decide_eq_true_eq]
    exact mem_bucket_iff o.1 lo bits
  have hzip : leg.keys.zip leg.since = leg.keys.map fun key => (key, since key) := by
    rw [h.asked, List.zip_map_right, List.zip_eq_zipWith, List.zipWith_self, List.map_map]
    rfl
  rw [Bool.eq_iff_iff, decide_eq_true_eq, inBuckets, List.any_eq_true]
  constructor
  · rintro ⟨bounds, hbounds, hin⟩
    rw [fullBuckets, hzip, List.mem_filterMap] at hbounds
    obtain ⟨p, hp', hpbounds⟩ := hbounds
    obtain ⟨key, hkeymem, rfl⟩ := List.mem_map.1 hp'
    obtain ⟨o', _, rfl⟩ := ((hp.key_eq (.inl h.mode)).2 key).1 hkeymem
    split at hpbounds
    · rename_i hzero
      rw [parse_bucketKey, Option.map_some, Option.some_inj] at hpbounds
      rw [← hpbounds, hrange, decide_eq_true_eq, bucketKey_masked] at hin
      rw [hin]
      exact hzero
    · cases hpbounds
  · intro hzero
    refine ⟨(bucketKey o.1 bits, bucketUpper o.1 bits), ?_, ?_⟩
    · rw [fullBuckets, hzip, List.mem_filterMap]
      exact ⟨_, List.mem_map_of_mem ho, by simp [hzero]⟩
    · rw [hrange, decide_eq_true rfl]

/-- A finished delta says of each of its files what a store that answered holds. -/
theorem tells_delta (hc : db.FilesUnique) (hp : leg.Planned) (h : leg.Deltas bits since held)
    (hheld : ∀ st ∈ held, Grown st ∧ Legible u st) (hcomplete : leg.complete = true)
    (ho : leg.Reaches o) (hl : db.files.lookup f = some row) (hblake : row.blake3 = o.2)
    (hkey : domainKey leg.domain row = some o.1) :
    ∃ st ∈ held, leg.cursor.getD 0 ≤ st.mappingCursor ∧
      Tells u (leg.pulled u service now) db f o.1 st
        (min (since (bucketKey o.1 bits)) (2 ^ 63 - 1)) := by
  have hasked : bucketKey o.1 bits ∈ leg.keys := ho.asked bits (.inl h.mode)
  obtain ⟨st, hst, hcursor, hrows⟩ := h.answers.rows (bucketKey o.1 bits) (by
    rw [taken_of_complete hcomplete]
    exact hasked)
  obtain ⟨hgrown, hlegible⟩ := hheld st hst
  have hfile : ∀ hash, db.fileIdByHash hash = some f ↔ hash = o.2 := by
    intro hash
    have hf : db.fileIdByHash o.2 = some f := hc.fileIdByHash_eq_some.2 ⟨row, hl, hblake⟩
    constructor
    · intro hhash
      exact fileIdByHash_inj hhash hf
    · rintro rfl
      exact hf
  -- a change that names the file comes from a row of its own hash
  have hnamed : ∀ tag c, c ∈ leg.deltaInputs u → db.fileIdByHash c.hash = some f ∧ c.tag = tag →
      ∃ n, tagLog u st o.1 tag = some (c.status, n) := by
    intro tag c hmem hc'
    obtain ⟨d, hd, tag', hash, htag, htranslate, rfl⟩ := mem_deltaInputs.1 hmem
    obtain ⟨hhash, rfl⟩ := hc'
    have hd1 : d.hash = o.1 :=
      (ho.translate _).1 (htranslate.trans (congrArg some ((hfile _).1 hhash)))
    have hrow := ((hrows d (by rw [hd1])).1 hd).1
    rw [RowOf, hd1] at hrow
    exact ⟨d.seq, (tagLog_eq_some hgrown.sound hlegible).2 ⟨d.tag, _, hrow, htag, rfl, rfl⟩⟩
  refine ⟨st, hst, hcursor, ?_⟩
  intro tag before
  have hsupplied : (leg.pulled u service now).supplied db f tag before =
      (leg.deltaInputs u).foldl (db.changeSupplies f tag)
        (!decide (since (bucketKey o.1 bits) = 0) && before) := by
    rw [← inBuckets_since hp h hasked hl hkey]
    simp only [Pulled.supplied, pulled, h.mode]
  by_cases hchange : ∃ c ∈ leg.deltaInputs u, db.fileIdByHash c.hash = some f ∧ c.tag = tag
  · left
    obtain ⟨c, hmem, hc'⟩ := hchange
    obtain ⟨n, hlog⟩ := hnamed tag c hmem hc'
    refine ⟨c.status, n, hlog, ?_⟩
    rw [hsupplied, foldl_changeSupplies_named _ ⟨c, hmem, hc'⟩ _ false, foldl_changeSupplies]
    · constructor
      · rintro ⟨c', hmem', hc'', hcurrent⟩
        obtain ⟨n', hlog'⟩ := hnamed tag c' hmem' hc''
        rw [hlog, Option.some_inj, Prod.mk.injEq] at hlog'
        exact hlog'.1.trans hcurrent
      · intro hlive
        exact ⟨c, hmem, hc', hlive⟩
    · intro a ha b hb hna hnb
      obtain ⟨_, hloga⟩ := hnamed tag a ha hna
      obtain ⟨_, hlogb⟩ := hnamed tag b hb hnb
      rw [hloga, Option.some_inj, Prod.mk.injEq] at hlogb
      exact hlogb.1
  · right
    refine ⟨?_, ?_⟩
    · intro v n hlog
      obtain ⟨t, r, hrow, htag, rfl, rfl⟩ := (tagLog_eq_some hgrown.sound hlegible).1 hlog
      by_contra hlt
      refine hchange ⟨⟨o.2, tag, r.status, r.seq, r.origin⟩, mem_deltaInputs.2
        ⟨⟨o.1, t, r.status, r.seq, r.origin⟩, ?_, tag, o.2, htag, (ho.translate _).2 rfl, rfl⟩,
        (hfile _).2 rfl, rfl⟩
      exact (hrows ⟨o.1, t, r.status, r.seq, r.origin⟩ rfl).2 ⟨hrow, Nat.lt_of_not_le hlt⟩
    · rw [hsupplied, foldl_changeSupplies_unnamed _ fun c hmem hc' => hchange ⟨c, hmem, hc'⟩,
        Bool.and_eq_true, Bool.not_eq_true', decide_eq_false_iff_not]
      refine and_congr_left fun _ => ?_
      omega

/-- The entries of a snapshot say of a file what the pairs of its hash say. -/
theorem entries_name (hc : db.FilesUnique) (ho : leg.Reaches o) (hl : db.files.lookup f = some row)
    (hblake : row.blake3 = o.2) (tag : Tag) :
    (leg.entries u).any (db.entryNames f tag) = true ↔
      ∃ t, (o.1, t) ∈ pairs leg.tags ∧ readTag u t = some tag := by
  have hf : db.fileIdByHash o.2 = some f := hc.fileIdByHash_eq_some.2 ⟨row, hl, hblake⟩
  rw [List.any_eq_true]
  constructor
  · rintro ⟨e, he, hnames⟩
    rw [entryNames, Bool.and_eq_true, decide_eq_true_eq] at hnames
    obtain ⟨h, t, hmem, htranslate, htag⟩ :=
      mem_entries.1 ⟨e, he, fileIdByHash_inj hnames.1 hf, hnames.2⟩
    rw [(ho.translate h).1 htranslate] at hmem
    exact ⟨t, hmem, htag⟩
  · rintro ⟨t, hmem, htag⟩
    obtain ⟨e, he, heq, hany⟩ :=
      mem_entries.2 ⟨o.1, t, hmem, (ho.translate _).2 rfl, htag⟩
    refine ⟨e, he, ?_⟩
    rw [entryNames, Bool.and_eq_true, decide_eq_true_eq]
    exact ⟨by rw [heq, hf], hany⟩

/-- A finished snapshot has of each of its hashes the pairs of a store that answered. -/
theorem pairs_complete (h : leg.Told held past) (hmode : leg.mode.isDelta = false)
    (hheld : ∀ st ∈ held, Grown st) (hcomplete : leg.complete = true) (ho : leg.Reaches o) :
    past o.1 = 0 ∧ ∃ st ∈ held, leg.cursor.getD 0 ≤ st.mappingCursor ∧
      ∀ t, (o.1, t) ∈ pairs leg.tags ↔ st.Current o.1 t := by
  cases h with
  | delta bits since h _ =>
    rw [h.mode] at hmode
    cases hmode
  | buckets bits h hpast =>
    obtain ⟨st, hst, hcursor, hrows⟩ := h.answers.rows (bucketKey o.1 bits) (by
      rw [taken_of_complete hcomplete]
      exact ho.asked bits (.inr h.mode))
    exact ⟨hpast _, st, hst, hcursor, fun t => hrows (o.1, t) rfl⟩
  | whole h hpast =>
    obtain ⟨st, hst, hcursor, htags⟩ := h.tags hcomplete
    refine ⟨hpast _, st, hst, hcursor, ?_⟩
    intro t
    rw [htags]
    exact mem_pairs_snapshot (hheld st hst).sound

/-- So does any merge that leaves of a file what the entries name. -/
theorem tells_entries {p : Pulled} (hc : db.FilesUnique) (h : leg.Told held past)
    (hmode : leg.mode.isDelta = false) (hheld : ∀ st ∈ held, Grown st ∧ Legible u st)
    (hcomplete : leg.complete = true) (ho : leg.Reaches o) (hl : db.files.lookup f = some row)
    (hblake : row.blake3 = o.2) (hsupplied : ∀ tag before,
      p.supplied db f tag before = (leg.entries u).any (db.entryNames f tag)) :
    past o.1 = 0 ∧ ∃ st ∈ held, leg.cursor.getD 0 ≤ st.mappingCursor ∧ Tells u p db f o.1 st 0 := by
  obtain ⟨hpast, st, hst, hcursor, hpairs⟩ :=
    pairs_complete h hmode (fun st hst => (hheld st hst).1) hcomplete ho
  obtain ⟨hgrown, hlegible⟩ := hheld st hst
  refine ⟨hpast, st, hst, hcursor, ?_⟩
  intro tag before
  have hreads : p.supplied db f tag before = true ↔
      ∃ v n, tagLog u st o.1 tag = some (v, n) ∧ Live v := by
    rw [hsupplied, entries_name hc ho hl hblake, ← reads_iff hgrown.sound hlegible]
    exact exists_congr fun t => and_congr_left fun _ => hpairs t
  cases hlog : tagLog u st o.1 tag with
  | some e =>
    left
    refine ⟨e.1, e.2, rfl, hreads.trans ?_⟩
    rw [hlog]
    constructor
    · rintro ⟨v, n, heq, hlive⟩
      cases heq
      exact hlive
    · intro hlive
      exact ⟨e.1, e.2, rfl, hlive⟩
  | none =>
    right
    refine ⟨nofun, hreads.trans ?_⟩
    rw [hlog]
    simp

/-- Any merge that tells a file of an earlier store leaves its replica in sync up to the leg's
cursor. -/
theorem synced_of_tells {p : Pulled} {st st' : RepoStore} {f s c : Nat} {domain : HashDomain}
    {hash : Hash} (hm : db.MappingTags) (hservice : p.service = service)
    (hdomain : p.domain = domain.asStr) (hgrown : Grown st) (hlegible : Legible u st)
    (hgrown' : Grown st') (hlegible' : Legible u st') (hlater : Later st st')
    (hc : c ≤ st.mappingCursor) (htells : Tells u p db f hash st (min s (2 ^ 63 - 1)))
    (hpast : s ≠ 0 → Synced u service domain s st' db f hash) :
    Synced u service domain c st' (db.pull p) f hash := by
  refine htells.synced hservice hdomain hm hgrown hlegible hgrown' hlegible' hlater hc ?_
  intro hne
  have hne' : s ≠ 0 := by omega
  exact (hpast hne').mono (Nat.min_le_left _ _)

/-- **The merge of a finished leg, into a database whose files of the leg were in sync up to the
cursors they were asked from, leaves them in sync up to the leg's cursor, however much the
repository has changed since it answered.** -/
theorem synced_full {st' : RepoStore} (hm : db.MappingTags) (hc : db.FilesUnique)
    (hp : leg.Planned) (h : leg.Told held past)
    (hheld : ∀ st ∈ held, Grown st ∧ Legible u st ∧ Later st st') (hgrown' : Grown st')
    (hlegible' : Legible u st') (hcomplete : leg.complete = true) (ho : leg.Reaches o)
    (hl : db.files.lookup f = some row) (hblake : row.blake3 = o.2)
    (hkey : domainKey leg.domain row = some o.1)
    (hpast : past o.1 ≠ 0 → Synced u service leg.domain (past o.1) st' db f o.1) :
    Synced u service leg.domain (leg.cursor.getD 0) st' (leg.merge u service now db) f o.1 := by
  have hheld' : ∀ st ∈ held, Grown st ∧ Legible u st := fun st hst =>
    ⟨(hheld st hst).1, (hheld st hst).2.1⟩
  obtain ⟨st, hst, hcursor, htells⟩ : ∃ st ∈ held, leg.cursor.getD 0 ≤ st.mappingCursor ∧
      Tells u (leg.pulled u service now) db f o.1 st (min (past o.1) (2 ^ 63 - 1)) := by
    cases hmode : leg.mode.isDelta with
    | true =>
      cases h with
      | delta bits since h hpast' =>
        rw [hpast']
        exact tells_delta hc hp h hheld' hcomplete ho hl hblake hkey
      | buckets bits h _ =>
        rw [h.mode] at hmode
        cases hmode
      | whole h _ =>
        rw [h.mode] at hmode
        cases hmode
    | false =>
      obtain ⟨hzero, hrest⟩ := tells_entries (p := leg.pulled u service now) hc h hmode hheld'
        hcomplete ho hl hblake fun tag before => by
          unfold Pulled.supplied pulled
          cases hm' : leg.mode with
          | delta bits =>
            rw [hm'] at hmode
            cases hmode
          | whole => rfl
          | buckets bits => rfl
      rw [hzero]
      exact hrest
  obtain ⟨hgrown, hlegible, hlater⟩ := hheld st hst
  have hpull : Synced u service leg.domain (leg.cursor.getD 0) st'
      (db.pull (leg.pulled u service now)) f o.1 :=
    synced_of_tells hm rfl rfl hgrown hlegible hgrown' hlegible' hlater hcursor htells hpast
  obtain ⟨pullState, heq⟩ := merge_eq u service now leg db
  rw [heq]
  exact hpull.congr fun _ => rfl

end

/-! ## Pulls of some files -/

/-- A hash map extended entry by entry. -/
def coalesce (entries : TaggedEntries) : TaggedEntries :=
  (entries.map Prod.fst).dedup.map fun hash =>
    (hash, (entries.filter fun e => e.1 = hash).flatMap Prod.snd)

theorem coalesce_nodup (entries : TaggedEntries) : ((coalesce entries).map Prod.fst).Nodup := by
  have hmap : (coalesce entries).map Prod.fst = (entries.map Prod.fst).dedup := by
    rw [coalesce, List.map_map]
    exact List.map_id _
  rw [hmap]
  exact List.nodup_dedup _

/-- The interop hash of a file. -/
def sha256Of (db : Naiad.Db) (hash : Hash) : Option Hash :=
  ((db.fileIdByHash hash).bind db.files.lookup).bind FileRow.sha256

/-- A leg of a pull of some files; it asks for snapshots, and consults no cursor or marker. -/
def readFiles (db : Naiad.Db) (domain : HashDomain) (mode : FetchMode) (hashes : List Hash) : Leg :=
  let owned :=
    match domain with
    | .blake3 => hashes.map fun hash => (hash, hash)
    | .sha256 => hashes.filterMap fun hash => (sha256Of db hash).map fun sha => (sha, hash)
  { domain := domain
    mode := mode
    owned := owned
    keys := mode.keys owned
    storedCursor := none
    storedMarker := none
    currentMarker := maxMarker db domain
    since := []
    retried := false
    served := 0
    cursor := none
    changes := []
    tags := ∅ }

/-- Nothing is asked of a domain in which none of the files has a hash. -/
def filesComplete (leg : Leg) : Bool :=
  leg.complete || (leg.domain = .sha256 && leg.owned.isEmpty)

def pulledFiles (u : Unicode) (service : Nat) (now : Int) (hashes : List Hash) (leg : Leg) :
    Pulled :=
  { service := service
    domain := leg.domain.asStr
    merge := .forFiles hashes (coalesce (leg.entries u)) (coalesce_nodup _)
    now := now }

section

variable {u : Unicode} {leg : Leg} {db : Naiad.Db} {held : List RepoStore} {past : Hash → Nat}
  {service f : Nat} {now : Int} {o : Hash × Hash} {row : FileRow} {hashes : List Hash}

theorem any_coalesce (entries : TaggedEntries) (tag : Tag) :
    (coalesce entries).any (db.entryNames f tag) = entries.any (db.entryNames f tag) := by
  rw [Bool.eq_iff_iff]
  simp only [List.any_eq_true, coalesce, List.mem_map, List.mem_dedup, entryNames,
    Bool.and_eq_true, decide_eq_true_eq]
  constructor
  · rintro ⟨_, ⟨hash, _, rfl⟩, hfile, o, ho, htag⟩
    obtain ⟨e, he, hoe⟩ := List.mem_flatMap.1 ho
    obtain ⟨hmem, rfl⟩ : e ∈ entries ∧ e.1 = hash := by simpa using List.mem_filter.1 he
    exact ⟨e, hmem, hfile, o, hoe, htag⟩
  · rintro ⟨e, hmem, hfile, o, ho, htag⟩
    refine ⟨_, ⟨e.1, ⟨e, hmem, rfl⟩, rfl⟩, hfile, o, ?_, htag⟩
    exact List.mem_flatMap.2 ⟨e, List.mem_filter.2 ⟨hmem, decide_eq_true rfl⟩, ho⟩

theorem mem_owned_readFiles {domain : HashDomain} {mode : FetchMode} :
    o ∈ (readFiles db domain mode hashes).owned ↔ o.2 ∈ hashes ∧
      match domain with
      | .blake3 => o.1 = o.2
      | .sha256 => sha256Of db o.2 = some o.1 := by
  obtain ⟨key, hash⟩ := o
  cases domain with
  | blake3 =>
    simp only [readFiles, List.mem_map, Prod.mk.injEq]
    constructor
    · rintro ⟨_, hmem, rfl, rfl⟩
      exact ⟨hmem, rfl⟩
    · rintro ⟨hmem, rfl⟩
      exact ⟨_, hmem, rfl, rfl⟩
  | sha256 =>
    simp only [readFiles, List.mem_filterMap, Option.map_eq_some_iff, Prod.mk.injEq]
    constructor
    · rintro ⟨_, hmem, sha, hsha, rfl, rfl⟩
      exact ⟨hmem, hsha⟩
    · rintro ⟨hmem, hsha⟩
      exact ⟨_, hmem, _, hsha, rfl, rfl⟩

theorem planned_readFiles (domain : HashDomain) (mode : FetchMode) :
    (readFiles db domain mode hashes).Planned := by
  refine ⟨rfl, ?_, ?_⟩
  · intro hdomain o ho
    cases hdomain
    exact (mem_owned_readFiles.1 ho).2
  · intro o ho o' ho' heq
    have h := (mem_owned_readFiles.1 ho).2
    have h' := (mem_owned_readFiles.1 ho').2
    refine Prod.ext ?_ heq
    cases domain with
    | blake3 => exact h.trans (heq.trans h'.symm)
    | sha256 =>
      simp only at h h'
      rw [heq, h'] at h
      exact (Option.some.inj h).symm

theorem told_readFiles {domain : HashDomain} {mode : FetchMode} (hmode : mode.isDelta = false) :
    (readFiles db domain mode hashes).Told held fun _ => 0 := by
  cases mode with
  | whole => exact .whole ⟨rfl, fun hcomplete => by cases hcomplete⟩ fun _ => rfl
  | buckets bits =>
    refine .buckets bits ⟨rfl, fun _ => rfl, ?_⟩ fun _ => rfl
    refine Answers.nil ?_
    rintro ⟨hash, t⟩ hmem
    have hmem' : (hash, t) ∈ pairs ∅ := hmem
    simp [mem_pairs] at hmem'
  | delta bits => cases hmode

/-- A requested file with a hash in the domain is of the leg. -/
theorem owned_readFiles (hc : db.FilesUnique) {domain : HashDomain} {mode : FetchMode} {hash : Hash}
    (hl : db.files.lookup f = some row) (hkey : domainKey domain row = some hash)
    (hmem : row.blake3 ∈ hashes) : (hash, row.blake3) ∈ (readFiles db domain mode hashes).owned := by
  rw [mem_owned_readFiles]
  refine ⟨hmem, ?_⟩
  cases domain with
  | blake3 => exact (Option.some.inj hkey).symm
  | sha256 =>
    have hf : db.fileIdByHash row.blake3 = some f := hc.fileIdByHash_eq_some.2 ⟨row, hl, rfl⟩
    show sha256Of db row.blake3 = some hash
    rw [sha256Of, hf, Option.bind_some, hl, Option.bind_some]
    exact hkey

theorem requests_iff (hc : db.FilesUnique) (hl : db.files.lookup f = some row) :
    db.requests hashes f = true ↔ row.blake3 ∈ hashes := by
  rw [requests, List.any_eq_true]
  constructor
  · rintro ⟨hash, hmem, hfile⟩
    rw [decide_eq_true_eq, hc.fileIdByHash_eq_some] at hfile
    obtain ⟨row', hl', rfl⟩ := hfile
    rw [hl] at hl'
    cases hl'
    exact hmem
  · intro hmem
    exact ⟨_, hmem, decide_eq_true (hc.fileIdByHash_eq_some.2 ⟨row, hl, rfl⟩)⟩

theorem carries_unrequested (hm : db.MappingTags) (hc : db.FilesUnique)
    (hl : db.files.lookup f = some row) (hnot : row.blake3 ∉ hashes) (tag : Tag) :
    (db.pull (leg.pulledFiles u service now hashes)).carries leg.domain.asStr f tag service =
      db.carries leg.domain.asStr f tag service := by
  have hreq : db.requests hashes f = false := by
    rw [Bool.eq_false_iff, Ne, requests_iff hc hl]
    exact hnot
  have hpull := carries_pull hm (leg.pulledFiles u service now hashes) f tag
  simp only [Pulled.supplied, pulledFiles, hreq, Bool.false_eq_true, if_false] at hpull
  exact hpull

/-- **The merge of some files leaves those with a hash in the domain in sync up to the leg's
cursor.** -/
theorem synced_files {st' : RepoStore} (hm : db.MappingTags) (hc : db.FilesUnique)
    (h : leg.Told held past) (hmode : leg.mode.isDelta = false)
    (hheld : ∀ st ∈ held, Grown st ∧ Legible u st ∧ Later st st') (hgrown' : Grown st')
    (hlegible' : Legible u st') (hcomplete : leg.complete = true) (ho : leg.Reaches o)
    (hl : db.files.lookup f = some row) (hblake : row.blake3 = o.2) (hmem : o.2 ∈ hashes) :
    Synced u service leg.domain (leg.cursor.getD 0) st'
      (db.pull (leg.pulledFiles u service now hashes)) f o.1 := by
  have hreq : db.requests hashes f = true := (requests_iff hc hl).2 (hblake ▸ hmem)
  obtain ⟨_, st, hst, hcursor, htells⟩ :=
    tells_entries (p := leg.pulledFiles u service now hashes) hc h hmode
      (fun st hst => ⟨(hheld st hst).1, (hheld st hst).2.1⟩) hcomplete ho hl hblake
      fun tag before => by simp only [Pulled.supplied, pulledFiles, hreq, if_true, any_coalesce]
  obtain ⟨hgrown, hlegible, hlater⟩ := hheld st hst
  exact synced_of_tells (s := 0) hm rfl rfl hgrown hlegible hgrown' hlegible' hlater hcursor
    htells fun hne => absurd rfl hne

end

end Leg

end Daemon
end Naiad
