import Mathlib.Algebra.Order.Floor.Ring
import Mathlib.Data.Rat.Floor
import Naiad.Lib.Rollup
import Naiad.Lib.Run

/-!
# Naiad.Server.Stats

The statistics database. One task writes the samples of a minute once it is over; another, once an
hour, folds the samples of the hours that are over into hour rows and these into day rows, and
deletes old samples and hour rows. A row there is never changes, so a sample that comes after its
hour was folded is in no row.

* `StatsDb.rollAndPrune`: the fold and the deletion.
* `Timely`: no row stands for the sample's hour or day yet.
* `Counted`: what holds of the tables and of all the samples ever written.
* `rollup_counts`: **no sample is lost in a run whose samples are all timely**.
-/

namespace Naiad
namespace Server
namespace Stats

open Lib

/-! ## The database -/

structure Series where
  metric : String
  label : String
deriving DecidableEq

/-- A primary key: the start of a minute, an hour or a day, and a series. -/
abbrev Key := Nat × Series

/-- `stats.db`; values are exact, and so are the counters. -/
structure StatsDb where
  samplesMinute : Table Key ℚ
  rollupHour : Table Key (Summary ℚ)
  rollupDay : Table Key (Summary ℚ)
  /-- `(i_value, t_value)` -/
  odometers : Table String (Int × String)
  statsMeta : Table String String

def StatsDb.open : StatsDb where
  samplesMinute := ∅
  rollupHour := ∅
  rollupDay := ∅
  odometers := ∅
  statsMeta := ∅

/-- A closed minute. -/
structure MinuteWrite where
  tsMinute : Nat
  /-- Endpoint, status class and count. -/
  requests : List (String × String × Nat)
  /-- Endpoint and bytes. -/
  bytes : List (String × Nat)
  /-- Endpoint and the 50th, 95th and 99th percentile. -/
  latency : List (String × ℚ × ℚ × ℚ)
  totalRequests : Nat
  totalBytes : Nat

def minuteRetentionSecs : Nat := 48 * 3600

def hourRetentionSecs : Nat := 90 * 86400

/-- The samples of a minute, in the order they are written. -/
def MinuteWrite.samples (mw : MinuteWrite) : List (Key × ℚ) :=
  (mw.requests.map fun (ep, cls, count) =>
    ((mw.tsMinute, ⟨"requests", ep ++ " " ++ cls⟩), (count : ℚ))) ++
  (mw.bytes.map fun (ep, bytes) => ((mw.tsMinute, ⟨"bytes_served", ep⟩), (bytes : ℚ))) ++
  mw.latency.flatMap fun (ep, p50, p95, p99) =>
    [((mw.tsMinute, ⟨"lat_p50", ep⟩), p50), ((mw.tsMinute, ⟨"lat_p95", ep⟩), p95),
      ((mw.tsMinute, ⟨"lat_p99", ep⟩), p99)]

/-- `INSERT .. ON CONFLICT DO UPDATE SET value = excluded.value`, row by row. -/
def putAll (t : Table Key ℚ) (samples : List (Key × ℚ)) : Table Key ℚ :=
  samples.foldl (fun t e => t.insert e.1 e.2) t

def StatsDb.writeSample (db : StatsDb) (key : Key) (value : ℚ) : StatsDb :=
  { db with samplesMinute := putAll db.samplesMinute [(key, value)] }

/-- `INSERT .. ON CONFLICT(name) DO UPDATE SET i_value = i_value + n` -/
def bump (odometers : Table String (Int × String)) (name : String) (n : Int) :
    Table String (Int × String) :=
  (odometers.upsert name (n, "") fun old => some (old.1 + n, old.2)).1

def StatsDb.writeMinute (db : StatsDb) (mw : MinuteWrite) : StatsDb :=
  { db with
    samplesMinute := putAll db.samplesMinute mw.samples
    odometers := bump (bump db.odometers "req_total" mw.totalRequests) "bytes_shipped_total"
      mw.totalBytes }

/-! ## Odometers -/

/-- `CAST(.. AS INTEGER)` -/
def castInteger (q : ℚ) : Int := if 0 ≤ q then ⌊q⌋ else ⌈q⌉

/-- `ORDER BY c DESC LIMIT 1` -/
def largest {G : Type} (rows : List (G × Int)) : Option (G × Int) :=
  rows.foldl (fun best row => best.elim (some row) fun b => if b.2 < row.2 then some row else some b)
    none

/-- `SELECT g, CAST(SUM(..) AS INTEGER) AS c .. GROUP BY g ORDER BY c DESC LIMIT 1` -/
def topGroup {G : Type} [DecidableEq G] (rows : List (G × ℚ)) : Option (G × Int) :=
  largest ((rows.map Prod.fst).dedup.map fun g =>
    (g, castInteger ((rows.filter (·.1 = g)).map Prod.snd).sum))

def busiestHour (rollupHour : Table Key (Summary ℚ)) : Option (Nat × Int) :=
  topGroup ((rollupHour.entries.filter fun e => e.1.2.metric = "requests").map fun e =>
    (e.1.1, e.2.vAvg * e.2.n))

/-- `substr(label, 1, instr(label || ' ', ' ') - 1)` -/
def endpointOf (label : String) : String := String.ofList (label.toList.takeWhile (· ≠ ' '))

def topPrefix (samplesMinute : Table Key ℚ) : Option (String × Int) :=
  topGroup ((samplesMinute.entries.filter fun e => e.1.2.metric = "requests").map fun e =>
    (endpointOf e.1.2.label, e.2))

/-- A record is only ever replaced by a larger one. -/
def ratchet (odometers : Table String (Int × String)) (name : String) :
    Option (String × Int) → Table String (Int × String)
  | none => odometers
  | some (text, c) =>
    if ((odometers.lookup name).map Prod.fst).getD 0 < c then odometers.insert name (c, text)
    else odometers

/-! ## Folding -/

def hourOf (k : Key) : Key := (k.1 / 3600 * 3600, k.2)

def dayOf (k : Key) : Key := (k.1 / 86400 * 86400, k.2)

/-- `SELECT .. WHERE ts < ?1` -/
def before {V : Type} (t : Table Key V) (ts : Nat) : Table Key V :=
  Table.select t fun k _ => k.1 < ts

/-- `DELETE .. WHERE ts < ?1` -/
def deleteBefore {V : Type} (t : Table Key V) (ts : Nat) : Table Key V :=
  Table.select t fun k _ => !decide (k.1 < ts)

def foldHours (db : StatsDb) (now : Nat) : Table Key (Summary ℚ) :=
  insertGroups db.rollupHour (before db.samplesMinute (now / 3600 * 3600)) hourOf summarize

def foldDays (db : StatsDb) (now : Nat) : Table Key (Summary ℚ) :=
  insertGroups db.rollupDay (before (foldHours db now) (now / 86400 * 86400)) dayOf mergeSummaries

def StatsDb.rollAndPrune (db : StatsDb) (now : Nat) : StatsDb :=
  let odometers := ratchet db.odometers "busiest_hour"
    ((busiestHour (foldHours db now)).map fun (h, c) => (toString h, c))
  { samplesMinute := deleteBefore db.samplesMinute (now - minuteRetentionSecs)
    rollupHour := deleteBefore (foldHours db now) (now - hourRetentionSecs)
    rollupDay := foldDays db now
    odometers := ratchet odometers "top_prefix" (topPrefix db.samplesMinute)
    statsMeta := db.statsMeta.insert "last_rollup_hour" (toString (now / 3600 * 3600)) }

/-! ## Runs -/

/-- The database, every sample ever written as it was written last, and the time of the last
roll-up. -/
structure State where
  db : StatsDb
  written : Table Key ℚ
  lastRoll : Nat

def State.start : State := ⟨.open, ∅, 0⟩

/-- A call of the samplers, of the flush task and of the roll-up task. -/
inductive Event
  | writeSample (key : Key) (value : ℚ)
  | writeMinute (mw : MinuteWrite)
  | rollAndPrune (now : Nat)

def step (s : State) : Event → State
  | .writeSample key value =>
    { s with db := s.db.writeSample key value, written := putAll s.written [(key, value)] }
  | .writeMinute mw =>
    { s with db := s.db.writeMinute mw, written := putAll s.written mw.samples }
  | .rollAndPrune now => { s with db := s.db.rollAndPrune now, lastRoll := now }

/-! ## Periods -/

theorem lookup_before {V : Type} (t : Table Key V) (ts : Nat) (k : Key) :
    (before t ts).lookup k = if k.1 < ts then t.lookup k else none := by
  rw [before, Table.lookup_select_key t fun k : Key => decide (k.1 < ts)]
  simp

theorem lookup_deleteBefore {V : Type} (t : Table Key V) (ts : Nat) (k : Key) :
    (deleteBefore t ts).lookup k = if k.1 < ts then none else t.lookup k := by
  rw [deleteBefore, Table.lookup_select_key t fun k : Key => !decide (k.1 < ts)]
  by_cases hk : k.1 < ts
  · simp [hk]
  · simp [hk]

@[simp] theorem dayOf_hourOf (k : Key) : dayOf (hourOf k) = dayOf k := by
  have hday : k.1 / 3600 * 3600 / 86400 = k.1 / 86400 := by omega
  simp [dayOf, hourOf, hday]

/-- An hour is over when its minutes come before the current one. -/
theorem hourOf_lt_iff (k : Key) (now : Nat) :
    (hourOf k).1 < now / 3600 * 3600 ↔ k.1 < now / 3600 * 3600 := by
  unfold hourOf
  dsimp only
  omega

theorem dayOf_lt_iff (k : Key) (now : Nat) :
    (dayOf k).1 < now / 86400 * 86400 ↔ k.1 < now / 86400 * 86400 := by
  unfold dayOf
  dsimp only
  omega

theorem day_le_hour (now : Nat) : now / 86400 * 86400 ≤ now / 3600 * 3600 := by
  have hday : now / 86400 * 86400 ≤ now := Nat.div_mul_le_self now 86400
  have hhour : now < now / 3600 * 3600 + 3600 := Nat.lt_div_mul_add (by decide)
  generalize now / 86400 = d at *
  generalize now / 3600 = h at *
  omega

/-- The day of an old hour is over. -/
theorem old_over {k : Key} (hold : (hourOf k).1 < now - hourRetentionSecs) :
    k.1 < now / 86400 * 86400 := by
  unfold hourOf hourRetentionSecs at hold
  dsimp only at hold
  omega

/-! ## Counted samples -/

/-- The sample is already there, or no row stands for its hour or its day. -/
def Timely (written : Table Key ℚ) (hours days : Table Key (Summary ℚ)) (e : Key × ℚ) : Prop :=
  written.lookup e.1 = some e.2 ∨ (hours.lookup (hourOf e.1) = none ∧ days.lookup (dayOf e.1) = none)

/-- Every row tells the number, the extrema and the mean of the samples written for its period, and
a sample that was deleted is in a row. -/
structure Counted (samples written : Table Key ℚ) (hours days : Table Key (Summary ℚ))
    (lastRoll : Nat) : Prop where
  stored : ∀ k v, samples.lookup k = some v → written.lookup k = some v
  hour : ∀ g r, hours.lookup g = some r → IsSummary (groupValues written hourOf g) r
  day : ∀ g r, days.lookup g = some r → IsSummary (groupValues written dayOf g) r
  /-- What is in no row waits to be folded. -/
  waiting : ∀ k v, written.lookup k = some v → hours.lookup (hourOf k) = none →
    days.lookup (dayOf k) = none → samples.lookup k = some v
  pruned : ∀ k v, written.lookup k = some v → samples.lookup k = none → days.lookup (dayOf k) ≠ none
  /-- An hour row goes before its day row only. -/
  old : ∀ k v, written.lookup k = some v → hours.lookup (hourOf k) = none →
    days.lookup (dayOf k) ≠ none → (hourOf k).1 < lastRoll - hourRetentionSecs

namespace Counted

theorem empty (lastRoll : Nat) : Counted ∅ ∅ ∅ ∅ lastRoll where
  stored := nofun
  hour := nofun
  day := nofun
  waiting := nofun
  pruned := nofun
  old := nofun

section

variable {samples written : Table Key ℚ} {hours days : Table Key (Summary ℚ)} {lastRoll : Nat}

/-- A timely sample changes nothing where there is a row. -/
theorem lookup_put {k k' : Key} {v : ℚ} (ht : Timely written hours days (k, v))
    (hrow : hours.lookup (hourOf k') ≠ none ∨ days.lookup (dayOf k') ≠ none) :
    (written.insert k v).lookup k' = written.lookup k' := by
  by_cases hk : k' = k
  · subst hk
    rcases ht with hthere | ⟨hhour, hday⟩
    · rw [AList.lookup_insert, hthere]
    · exact absurd hrow (by simp [hhour, hday])
  · exact AList.lookup_insert_ne hk

theorem timely_put {k : Key} {v : ℚ} {e : Key × ℚ} (ht : Timely written hours days (k, v))
    (he : Timely written hours days e) : Timely (written.insert k v) hours days e := by
  rcases he with hthere | hfree
  · by_cases hk : e.1 = k
    · rcases ht with hold | hfree
      · refine .inl ?_
        rw [hk] at hthere
        rw [hk, AList.lookup_insert, ← hold, hthere]
      · exact .inr (by rw [hk]; exact hfree)
    · exact .inl (by rw [AList.lookup_insert_ne hk, hthere])
  · exact .inr hfree

theorem put (h : Counted samples written hours days lastRoll) {k : Key} {v : ℚ}
    (ht : Timely written hours days (k, v)) :
    Counted (samples.insert k v) (written.insert k v) hours days lastRoll where
  stored := by
    intro k' v' hs
    by_cases hk : k' = k
    · rw [hk, AList.lookup_insert] at hs ⊢
      exact hs
    · rw [AList.lookup_insert_ne hk] at hs ⊢
      exact h.stored k' v' hs
  hour := by
    intro g r hr
    refine (h.hour g r hr).perm (perm_groupValues ?_)
    intro k' hk'
    subst hk'
    exact (lookup_put ht (.inl (by simp [hr]))).symm
  day := by
    intro g r hr
    refine (h.day g r hr).perm (perm_groupValues ?_)
    intro k' hk'
    subst hk'
    exact (lookup_put ht (.inr (by simp [hr]))).symm
  waiting := by
    intro k' v' hw hhour hday
    by_cases hk : k' = k
    · rw [hk, AList.lookup_insert] at hw ⊢
      exact hw
    · rw [AList.lookup_insert_ne hk] at hw ⊢
      exact h.waiting k' v' hw hhour hday
  pruned := by
    intro k' v' hw hs
    by_cases hk : k' = k
    · rw [hk, AList.lookup_insert] at hs
      cases hs
    · rw [AList.lookup_insert_ne hk] at hw hs
      exact h.pruned k' v' hw hs
  old := by
    intro k' v' hw hhour hday
    rw [lookup_put ht (.inr hday)] at hw
    exact h.old k' v' hw hhour hday

theorem putAll {l : List (Key × ℚ)} (h : Counted samples written hours days lastRoll)
    (ht : ∀ e ∈ l, Timely written hours days e) :
    Counted (putAll samples l) (putAll written l) hours days lastRoll := by
  induction l generalizing samples written with
  | nil => exact h
  | cons e l ih =>
    have he : Timely written hours days (e.1, e.2) := ht e (by simp)
    refine ih (h.put he) ?_
    intro e' he'
    exact timely_put he (ht e' (List.mem_cons_of_mem _ he'))

end

/-! ### The fold -/

section

variable {db : StatsDb} {written : Table Key ℚ} {lastRoll now : Nat}

theorem lookup_foldHours_of_some {g : Key} {r : Summary ℚ} (hr : db.rollupHour.lookup g = some r) :
    (foldHours db now).lookup g = some r := by
  rw [foldHours, lookup_insertGroups, hr, Option.some_or]

theorem lookup_foldDays_of_some {g : Key} {r : Summary ℚ} (hr : db.rollupDay.lookup g = some r) :
    (foldDays db now).lookup g = some r := by
  rw [foldDays, lookup_insertGroups, hr, Option.some_or]

theorem rollupHour_none {g : Key} (hg : (foldHours db now).lookup g = none) :
    db.rollupHour.lookup g = none := by
  rw [foldHours, lookup_insertGroups, Option.or_eq_none_iff] at hg
  exact hg.1

theorem rollupDay_none {g : Key} (hg : (foldDays db now).lookup g = none) :
    db.rollupDay.lookup g = none := by
  rw [foldDays, lookup_insertGroups, Option.or_eq_none_iff] at hg
  exact hg.1

theorem insertGroups_ne_none {V S : Type} {t : Table Key S} {src : Table Key V} {ts : Nat}
    {period : Key → Key} {f : List V → S} {k : Key} {v : V} (hk : src.lookup k = some v)
    (hts : k.1 < ts) : (insertGroups t (before src ts) period f).lookup (period k) ≠ none := by
  have hsel : (before src ts).lookup k = some v := by rw [lookup_before, if_pos hts, hk]
  have hne : groupValues (before src ts) period (period k) ≠ [] :=
    List.ne_nil_of_mem (mem_groupValues.2 ⟨k, hsel, rfl⟩)
  rw [lookup_insertGroups, if_neg hne]
  simp

/-- The hour of a stored sample has a row once it is over. -/
theorem foldHours_ne_none {k : Key} {v : ℚ} (hs : db.samplesMinute.lookup k = some v)
    (hover : k.1 < now / 3600 * 3600) : (foldHours db now).lookup (hourOf k) ≠ none :=
  insertGroups_ne_none hs hover

/-- The day of an hour row has a row once it is over. -/
theorem foldDays_ne_none {g : Key} (hg : (foldHours db now).lookup g ≠ none)
    (hover : g.1 < now / 86400 * 86400) : (foldDays db now).lookup (dayOf g) ≠ none := by
  obtain ⟨r, hr⟩ := Option.ne_none_iff_exists'.1 hg
  exact insertGroups_ne_none hr hover

/-- A new row is the aggregate of a group that has rows. -/
theorem insertGroups_new {V S : Type} {t : Table Key S} {src : Table Key V} {ts : Nat}
    {period : Key → Key} {f : List V → S} {g : Key} {r : S} (hg : t.lookup g = none)
    (hr : (insertGroups t (before src ts) period f).lookup g = some r) :
    r = f (groupValues (before src ts) period g) ∧ groupValues (before src ts) period g ≠ [] ∧
      ∃ k v, src.lookup k = some v ∧ period k = g ∧ k.1 < ts := by
  rw [lookup_insertGroups, hg, Option.none_or] at hr
  by_cases hnil : groupValues (before src ts) period g = []
  · rw [if_pos hnil] at hr
    cases hr
  · rw [if_neg hnil] at hr
    obtain ⟨v, hv⟩ := List.exists_mem_of_ne_nil _ hnil
    obtain ⟨k, hk, hkey⟩ := mem_groupValues.1 hv
    rw [lookup_before] at hk
    split at hk
    · rename_i hlt
      exact ⟨(Option.some.inj hr).symm, hnil, k, v, hk, hkey, hlt⟩
    · cases hk

section

variable (h : Counted db.samplesMinute written db.rollupHour db.rollupDay lastRoll)
include h

/-- The hour of a sample without a day row has a row once it is over. -/
theorem hour_over {k : Key} {v : ℚ} (hw : written.lookup k = some v)
    (hover : k.1 < now / 3600 * 3600) (hday : db.rollupDay.lookup (dayOf k) = none) :
    (foldHours db now).lookup (hourOf k) ≠ none := by
  cases hhour : db.rollupHour.lookup (hourOf k) with
  | some r => simp [lookup_foldHours_of_some hhour]
  | none => exact foldHours_ne_none (h.waiting k v hw hhour hday) hover

/-- The day of a sample has a row once it is over. -/
theorem day_over {k : Key} {v : ℚ} (hw : written.lookup k = some v)
    (hover : k.1 < now / 86400 * 86400) : (foldDays db now).lookup (dayOf k) ≠ none := by
  cases hday : db.rollupDay.lookup (dayOf k) with
  | some r => simp [lookup_foldDays_of_some hday]
  | none =>
    have hhour := h.hour_over hw (hover.trans_le (day_le_hour now)) hday
    have hlt : (hourOf k).1 < now / 86400 * 86400 :=
      (Nat.div_mul_le_self k.1 3600).trans_lt hover
    have hrow := foldDays_ne_none hhour hlt
    rw [dayOf_hourOf] at hrow
    exact hrow

/-- A new hour row whose day has none counts every sample of the hour. -/
theorem foldHours_right {g : Key} {r : Summary ℚ} (hr : (foldHours db now).lookup g = some r)
    (hday : db.rollupDay.lookup (dayOf g) = none) : IsSummary (groupValues written hourOf g) r := by
  cases hhour : db.rollupHour.lookup g with
  | some r' =>
    rw [lookup_foldHours_of_some hhour] at hr
    cases hr
    exact h.hour g r hhour
  | none =>
    obtain ⟨rfl, hne, k, v, _, hk, hlt⟩ := insertGroups_new hhour hr
    refine (isSummary_summarize hne).perm (perm_groupValues ?_)
    intro k' hk'
    have hlt' : k'.1 < now / 3600 * 3600 := by
      rw [← hourOf_lt_iff, hk', ← hk, hourOf_lt_iff]
      exact hlt
    rw [lookup_before, if_pos hlt']
    subst hk'
    rw [dayOf_hourOf] at hday
    cases hw : written.lookup k' with
    | some v' => exact h.waiting k' v' hw hhour hday
    | none =>
      cases hs : db.samplesMinute.lookup k' with
      | none => rfl
      | some v' =>
        rw [h.stored k' v' hs] at hw
        cases hw

/-- A row that stays counts every sample of its hour. -/
theorem hour_right (hnow : lastRoll ≤ now) {g : Key} {r : Summary ℚ}
    (hr : (foldHours db now).lookup g = some r) (hstays : ¬g.1 < now - hourRetentionSecs) :
    IsSummary (groupValues written hourOf g) r := by
  cases hhour : db.rollupHour.lookup g with
  | some r' =>
    rw [lookup_foldHours_of_some hhour] at hr
    cases hr
    exact h.hour g r hhour
  | none =>
    cases hday : db.rollupDay.lookup (dayOf g) with
    | none => exact h.foldHours_right hr hday
    | some d =>
      obtain ⟨_, _, k, v, hs, rfl, _⟩ := insertGroups_new hhour hr
      rw [dayOf_hourOf] at hday
      have hold := h.old k v (h.stored k v hs) hhour (by simp [hday])
      omega

/-- The hour rows of a day fold into the row of all its samples. -/
theorem day_right {g : Key} {r : Summary ℚ} (hr : (foldDays db now).lookup g = some r) :
    IsSummary (groupValues written dayOf g) r := by
  cases hday : db.rollupDay.lookup g with
  | some r' =>
    rw [lookup_foldDays_of_some hday] at hr
    cases hr
    exact h.day g r hday
  | none =>
    obtain ⟨rfl, hne, g', _, _, hg', hlt⟩ := insertGroups_new hday hr
    have hrow : ∀ hour s, (before (foldHours db now) (now / 86400 * 86400)).lookup hour = some s →
        dayOf hour = g → IsSummary (groupValues written hourOf hour) s := by
      intro hour s hs hout
      rw [lookup_before] at hs
      split at hs
      · exact h.foldHours_right hs (by rw [hout]; exact hday)
      · cases hs
    have hcover : ∀ k v, written.lookup k = some v → dayOf (hourOf k) = g →
        (before (foldHours db now) (now / 86400 * 86400)).lookup (hourOf k) ≠ none := by
      intro k v hw hk
      rw [dayOf_hourOf] at hk
      have hover : k.1 < now / 86400 * 86400 := by
        rw [← dayOf_lt_iff, hk, ← hg', dayOf_lt_iff]
        exact hlt
      have hstart : (hourOf k).1 < now / 86400 * 86400 :=
        (Nat.div_mul_le_self k.1 3600).trans_lt hover
      rw [lookup_before, if_pos hstart]
      exact h.hour_over hw (hover.trans_le (day_le_hour now)) (by rw [hk]; exact hday)
    have hmerged := IsSummary.mergeGroups hrow hcover hne
    rw [funext dayOf_hourOf] at hmerged
    exact hmerged

/-- An hour that is over has its row, unless the row is old. -/
theorem hour_kept (hnow : lastRoll ≤ now) {k : Key} {v : ℚ} (hw : written.lookup k = some v)
    (hover : k.1 < now / 3600 * 3600) :
    (foldHours db now).lookup (hourOf k) ≠ none ∨ (hourOf k).1 < now - hourRetentionSecs := by
  cases hday : db.rollupDay.lookup (dayOf k) with
  | none => exact .inl (h.hour_over hw hover hday)
  | some d =>
    cases hhour : db.rollupHour.lookup (hourOf k) with
    | some r => exact .inl (by simp [lookup_foldHours_of_some hhour])
    | none =>
      have hold := h.old k v hw hhour (by simp [hday])
      exact .inr (by omega)

theorem rollAndPrune (hnow : lastRoll ≤ now) :
    Counted (db.rollAndPrune now).samplesMinute written (db.rollAndPrune now).rollupHour
      (db.rollAndPrune now).rollupDay now where
  stored := by
    intro k v hs
    change (deleteBefore _ _).lookup k = _ at hs
    rw [lookup_deleteBefore] at hs
    split at hs
    · cases hs
    · exact h.stored k v hs
  hour := by
    intro g r hr
    change (deleteBefore _ _).lookup g = _ at hr
    rw [lookup_deleteBefore] at hr
    split at hr
    · cases hr
    · rename_i hstays
      exact h.hour_right hnow hr hstays
  day := fun g r hr => h.day_right hr
  waiting := by
    intro k v hw hhour hday
    change (deleteBefore _ _).lookup _ = _ at hhour ⊢
    change (foldDays db now).lookup _ = _ at hday
    have hopen : ¬k.1 < now / 86400 * 86400 := fun hover => h.day_over hw hover hday
    have hnone : (foldHours db now).lookup (hourOf k) = none := by
      rw [lookup_deleteBefore] at hhour
      split at hhour
      · rename_i hold
        exact absurd (old_over hold) hopen
      · exact hhour
    have hkept : ¬k.1 < now - minuteRetentionSecs := by
      unfold minuteRetentionSecs
      omega
    rw [lookup_deleteBefore, if_neg hkept]
    exact h.waiting k v hw (rollupHour_none hnone) (rollupDay_none hday)
  pruned := by
    intro k v hw hs
    change (deleteBefore _ _).lookup k = _ at hs
    change (foldDays db now).lookup _ ≠ _
    rw [lookup_deleteBefore] at hs
    split at hs
    · rename_i hgone
      refine h.day_over hw ?_
      unfold minuteRetentionSecs at hgone
      omega
    · obtain ⟨d, hd⟩ := Option.ne_none_iff_exists'.1 (h.pruned k v hw hs)
      simp [lookup_foldDays_of_some hd]
  old := by
    intro k v hw hhour hday
    change (deleteBefore _ _).lookup _ = _ at hhour
    change (foldDays db now).lookup _ ≠ _ at hday
    rw [lookup_deleteBefore] at hhour
    split at hhour
    · assumption
    · by_cases hover : k.1 < now / 3600 * 3600
      · rcases h.hour_kept hnow hw hover with hrow | hold
        · exact absurd hhour hrow
        · exact hold
      · cases hd : db.rollupDay.lookup (dayOf k) with
        | some d =>
          have hold := h.old k v hw (rollupHour_none hhour) (by simp [hd])
          omega
        | none =>
          -- a day whose minutes are not over gets no row
          obtain ⟨r, hr⟩ := Option.ne_none_iff_exists'.1 hday
          obtain ⟨_, _, g, _, _, hg, hlt⟩ := insertGroups_new hd hr
          have hover' : k.1 < now / 86400 * 86400 := by
            rw [← dayOf_lt_iff, ← hg, dayOf_lt_iff]
            exact hlt
          exact absurd (hover'.trans_le (day_le_hour now)) hover

end

end

end Counted

/-! ## A repeated roll-up -/

section

variable {db : StatsDb} {now : Nat}

theorem foldHours_again : foldHours (db.rollAndPrune now) now = (db.rollAndPrune now).rollupHour := by
  refine insertGroups_eq_self ?_
  intro k v hk
  change (before (deleteBefore _ _) _).lookup k = _ at hk
  change (deleteBefore _ _).lookup (hourOf k) ≠ _
  rw [lookup_before] at hk
  split at hk
  · rename_i hover
    rw [lookup_deleteBefore] at hk
    split at hk
    · cases hk
    · rename_i hkept
      have hstays : ¬(hourOf k).1 < now - hourRetentionSecs := by
        unfold hourOf hourRetentionSecs
        unfold minuteRetentionSecs at hkept
        dsimp only
        omega
      rw [lookup_deleteBefore, if_neg hstays]
      exact Counted.foldHours_ne_none hk hover
  · cases hk

theorem foldDays_again : foldDays (db.rollAndPrune now) now = (db.rollAndPrune now).rollupDay := by
  rw [foldDays, foldHours_again]
  refine insertGroups_eq_self ?_
  intro g r hg
  change (before (deleteBefore _ _) _).lookup g = _ at hg
  change (foldDays db now).lookup (dayOf g) ≠ _
  rw [lookup_before] at hg
  split at hg
  · rename_i hover
    rw [lookup_deleteBefore] at hg
    split at hg
    · cases hg
    · exact Counted.foldDays_ne_none (by simp [hg]) hover
  · cases hg

theorem deleteBefore_again {V : Type} (t : Table Key V) (ts : Nat) :
    deleteBefore (deleteBefore t ts) ts = deleteBefore t ts := by
  refine Table.select_eq_self.2 ?_
  intro k hk
  exact (Table.mem_keys_select.1 hk).2

/-- The same roll-up again changes no sample and no row. -/
theorem rollAndPrune_again (db : StatsDb) (now : Nat) :
    ((db.rollAndPrune now).rollAndPrune now).samplesMinute = (db.rollAndPrune now).samplesMinute ∧
    ((db.rollAndPrune now).rollAndPrune now).rollupHour = (db.rollAndPrune now).rollupHour ∧
    ((db.rollAndPrune now).rollAndPrune now).rollupDay = (db.rollAndPrune now).rollupDay := by
  refine ⟨deleteBefore_again _ _, ?_, foldDays_again⟩
  change deleteBefore (foldHours (db.rollAndPrune now) now) _ = _
  rw [foldHours_again]
  exact deleteBefore_again _ _

end

/-! ## Runs -/

/-- The time of the roll-ups never goes back. -/
def InOrder (s : State) : Event → Prop
  | .rollAndPrune now => s.lastRoll ≤ now
  | _ => True

/-- What is written is timely. -/
def OnTime (s : State) : Event → Prop
  | .writeSample key value => Timely s.written s.db.rollupHour s.db.rollupDay (key, value)
  | .writeMinute mw => ∀ e ∈ mw.samples, Timely s.written s.db.rollupHour s.db.rollupDay e
  | .rollAndPrune _ => True

instance : DecidableRel InOrder
  | s, .rollAndPrune now => inferInstanceAs (Decidable (s.lastRoll ≤ now))
  | _, .writeSample _ _ => isTrue trivial
  | _, .writeMinute _ => isTrue trivial

instance (written : Table Key ℚ) (hours days : Table Key (Summary ℚ)) (e : Key × ℚ) :
    Decidable (Timely written hours days e) :=
  inferInstanceAs (Decidable (_ ∨ _))

instance : DecidableRel OnTime
  | s, .writeSample key value =>
    inferInstanceAs (Decidable (Timely s.written s.db.rollupHour s.db.rollupDay (key, value)))
  | s, .writeMinute mw => inferInstanceAs (Decidable
      (∀ e ∈ mw.samples, Timely s.written s.db.rollupHour s.db.rollupDay e))
  | _, .rollAndPrune _ => isTrue trivial

def State.Counted (s : State) : Prop :=
  Stats.Counted s.db.samplesMinute s.written s.db.rollupHour s.db.rollupDay s.lastRoll

theorem step_counted {s : State} {ev : Event} (h : s.Counted) (hev : InOrder s ev ∧ OnTime s ev) :
    (step s ev).Counted := by
  cases ev with
  | writeSample key value =>
    refine Counted.putAll h ?_
    intro e he
    rw [List.mem_singleton] at he
    subst he
    exact hev.2
  | writeMinute mw => exact Counted.putAll h hev.2
  | rollAndPrune now => exact Counted.rollAndPrune h hev.1

/-- The hour has a row, or had one that was deleted. -/
def State.HasHour (g : Key) (s : State) : Prop :=
  s.db.rollupHour.lookup g ≠ none ∨ g.1 < s.lastRoll - hourRetentionSecs

theorem step_hasHour {g : Key} {s : State} {ev : Event} (h : s.HasHour g)
    (hev : InOrder s ev ∧ OnTime s ev) : (step s ev).HasHour g := by
  cases ev with
  | writeSample key value => exact h
  | writeMinute mw => exact h
  | rollAndPrune now =>
    have hnow : s.lastRoll ≤ now := hev.1
    change (deleteBefore _ _).lookup g ≠ none ∨ g.1 < now - _
    by_cases hold : g.1 < now - hourRetentionSecs
    · exact .inr hold
    · rcases h with hrow | hgone
      · obtain ⟨r, hr⟩ := Option.ne_none_iff_exists'.1 hrow
        rw [lookup_deleteBefore, if_neg hold, Counted.lookup_foldHours_of_some hr]
        simp
      · omega

def State.HasDay (g : Key) (s : State) : Prop := s.db.rollupDay.lookup g ≠ none

theorem step_hasDay {g : Key} {s : State} {ev : Event} (h : s.HasDay g) :
    (step s ev).HasDay g := by
  cases ev with
  | writeSample key value => exact h
  | writeMinute mw => exact h
  | rollAndPrune now =>
    obtain ⟨r, hr⟩ := Option.ne_none_iff_exists'.1 h
    change (foldDays s.db now).lookup g ≠ none
    simp [Counted.lookup_foldDays_of_some hr]

/-- Once the roll-up ran after its end, the hour of a sample has its row and so has its day. -/
theorem rolled {s : State} {now : Nat} (h : s.Counted) (hnow : s.lastRoll ≤ now) {k : Key} {v : ℚ}
    (hw : s.written.lookup k = some v) :
    ((hourOf k).1 + 3600 ≤ now → (step s (.rollAndPrune now)).HasHour (hourOf k)) ∧
    ((dayOf k).1 + 86400 ≤ now → (step s (.rollAndPrune now)).HasDay (dayOf k)) := by
  constructor
  · intro hend
    have hover : k.1 < now / 3600 * 3600 := by
      unfold hourOf at hend
      dsimp only at hend
      omega
    change (deleteBefore _ _).lookup _ ≠ none ∨ _ < now - _
    by_cases hold : (hourOf k).1 < now - hourRetentionSecs
    · exact .inr hold
    · rw [lookup_deleteBefore, if_neg hold]
      exact Counted.hour_kept h hnow hw hover
  · intro hend
    refine Counted.day_over h hw ?_
    unfold dayOf at hend
    dsimp only at hend
    omega

/-- **No sample is lost in a run whose samples are all timely**: every row tells of all the samples
written for its period, the row is there once a roll-up ran after the period's end, until its hour
is past retention, and no sample is deleted before. -/
theorem rollup_counts (evs : List Event)
    (hrun : AllSteps step (fun s ev => InOrder s ev ∧ OnTime s ev) State.start evs) :
    let final := run step State.start evs
    (∀ g r, final.db.rollupHour.lookup g = some r →
      IsSummary (groupValues final.written hourOf g) r) ∧
    (∀ g r, final.db.rollupDay.lookup g = some r →
      IsSummary (groupValues final.written dayOf g) r) ∧
    (∀ pre now post, evs = pre ++ .rollAndPrune now :: post →
      ∀ k v, (run step State.start pre).written.lookup k = some v →
        ((hourOf k).1 + 3600 ≤ now → final.HasHour (hourOf k)) ∧
        ((dayOf k).1 + 86400 ≤ now → final.HasDay (dayOf k))) ∧
    (∀ k v, final.written.lookup k = some v → final.db.samplesMinute.lookup k = none →
      final.HasHour (hourOf k) ∧ final.HasDay (dayOf k)) ∧
    ∀ now, let once := final.db.rollAndPrune now
      (once.rollAndPrune now).samplesMinute = once.samplesMinute ∧
      (once.rollAndPrune now).rollupHour = once.rollupHour ∧
      (once.rollAndPrune now).rollupDay = once.rollupDay := by
  intro final
  have hfinal : final.Counted := hrun.invariant (Counted.empty 0) fun _ _ => step_counted
  refine ⟨hfinal.hour, hfinal.day, ?_, ?_, fun now => rollAndPrune_again final.db now⟩
  · intro pre now post hsplit k v hw
    subst hsplit
    obtain ⟨hpre, hroll, hpost⟩ := AllSteps.append.1 hrun
    have hbefore : (run step State.start pre).Counted :=
      hpre.invariant (Counted.empty 0) fun _ _ => step_counted
    obtain ⟨hhour, hday⟩ := rolled hbefore hroll.1 hw
    have hend : final = run step (step (run step State.start pre) (.rollAndPrune now)) post := by
      rw [← run_cons, ← run_append]
    rw [hend]
    constructor
    · intro hover
      exact hpost.invariant (hhour hover) fun _ _ => step_hasHour
    · intro hover
      exact run_invariant post (hday hover) fun _ _ => step_hasDay
  · intro k v hw hgone
    have hday := hfinal.pruned k v hw hgone
    refine ⟨?_, hday⟩
    by_cases hhour : final.db.rollupHour.lookup (hourOf k) = none
    · exact .inr (hfinal.old k v hw hhour hday)
    · exact .inl hhour

/-- A minute with one request. -/
def ping (tsMinute : Nat) : MinuteWrite where
  tsMinute := tsMinute
  requests := [("ping", "2xx", 1)]
  bytes := [("ping", 40)]
  latency := [("ping", 2, 3, 3)]
  totalRequests := 1
  totalBytes := 40

/-- Both tasks run when the first hour is over, the flush task first. -/
def punctual : List Event :=
  [.writeMinute (ping 0), .writeMinute (ping 3540), .rollAndPrune 3600]

theorem rollup_counts_punctual :
    let final := run step State.start punctual
    final.HasHour (0, ⟨"requests", "ping 2xx"⟩) ∧
    ∀ g r, final.db.rollupHour.lookup g = some r →
      IsSummary (groupValues final.written hourOf g) r := by
  have hrun : AllSteps step (fun s ev => InOrder s ev ∧ OnTime s ev) State.start punctual := by
    decide +kernel
  have hkey : hourOf (3540, ⟨"requests", "ping 2xx"⟩) = (0, ⟨"requests", "ping 2xx"⟩) := by decide
  have hall := rollup_counts punctual hrun
  have hrow := (hall.2.2.1 [.writeMinute (ping 0), .writeMinute (ping 3540)] 3600 [] rfl
    (3540, ⟨"requests", "ping 2xx"⟩) 1 (by decide +kernel)).1 (by decide)
  rw [hkey] at hrow
  exact ⟨hrow, hall.1⟩

/-- The roll-up task is first. -/
def overtaken : List Event :=
  [.writeMinute (ping 0), .rollAndPrune 3600, .writeMinute (ping 3540), .rollAndPrune 7200]

/-- The last minute of the hour is in no row. -/
theorem rollup_overtaken :
    let final := run step State.start overtaken
    AllSteps step InOrder State.start overtaken ∧
    groupValues final.written hourOf (0, ⟨"requests", "ping 2xx"⟩) = [1, 1] ∧
    ∃ r, final.db.rollupHour.lookup (0, ⟨"requests", "ping 2xx"⟩) = some r ∧ r.n = 1 ∧
      ¬IsSummary (groupValues final.written hourOf (0, ⟨"requests", "ping 2xx"⟩)) r := by
  intro final
  have hvalues : groupValues final.written hourOf (0, ⟨"requests", "ping 2xx"⟩) = [1, 1] := by
    decide +kernel
  have hrow : final.db.rollupHour.lookup (0, ⟨"requests", "ping 2xx"⟩) = some ⟨1, 1, 1, 1⟩ := by
    decide +kernel
  refine ⟨by decide +kernel, hvalues, _, hrow, rfl, ?_⟩
  intro h
  have hn := h.n_eq
  rw [hvalues] at hn
  exact absurd hn (by decide)

end Stats
end Server
end Naiad
