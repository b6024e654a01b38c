import Naiad.Db.Interop
import Naiad.Db.Staging

/-!
# Naiad.Db.HydrusImport

Imports from Hydrus: records are staged by SHA-256 and resolved once a file is known, or applied at
once to known files. A resolved row carries the bit of the SHA-256 domain, an applied one the bit
every local row has.

* `ClientDb.resolveStagedMappings`: the statements of `resolve_staged_mappings`.
* `ClientDb.Resolves`: what resolving is for.
* `resolvesStaged_iff`: **in every state of a run of imports, resolving a service meets its purpose if
  and only if no current row of a tag staged as deleted carries the bit of another domain**.
-/

namespace Naiad
namespace Db

open Lib Netproto

namespace ClientDb

/-! ## Resolving -/

/-- The staged rows of a service with a status, joined to the files they name. -/
def stagedRows (c : ClientDb) (service : Nat) (status : MappingStatus) : List (Nat × Nat × Int) :=
  c.staged.entries.flatMap fun e =>
    if e.1.2.2 = service ∧ e.2.status = status then
      (c.db.stagedFiles e.1.1).map fun f => (f, e.1.2.1, e.2.createdAt)
    else []

def insertStagedRow (service : Nat) (bit : BitVec 64) (db : Db) (r : Nat × Nat × Int) : Db :=
  db.insertMapping (r.1, r.2.1, service) ⟨.current, r.2.2, bit, none⟩ (orBitCurrent bit)

/-- Whether a staged row of the service names a file that is known. -/
def drains (c : ClientDb) (service : Nat) (k : Hash × Nat × Nat) : Bool :=
  k.2.2 = service && !(c.db.stagedFiles k.1).isEmpty

/-- Insert the staged current rows, retract the staged deleted ones, reap the rows without a domain,
drop what was resolved; with the number of staged rows dropped. -/
def resolveStagedMappings (c : ClientDb) (service : Nat) (domain : String) : ClientDb × Nat :=
  let bit := domainBit domain
  let inserted := (c.stagedRows service .current).foldl (insertStagedRow service bit) c.db
  let retracted := inserted.retract bit fun k _ =>
    k.2.2 = service && (c.stagedRows service .deleted).any fun r => (r.1, r.2.1) = (k.1, k.2.1)
  let reaped := retracted.deleteMappings fun k row => k.2.2 = service && row.domains = 0
  ({ c with db := reaped, staged := c.staged.select fun k _ => !c.drains service k },
    c.staged.entries.countP fun e => c.drains service e.1)

/-! ## Imports -/

/-- A step of an import, or of the library between two. -/
inductive ImportOp
  | stage (service : Nat) (items : List (Hash × Tag × MappingStatus)) (now : Int)
  | resolve (service : Nat) (domain : String)
  | apply (service : Nat) (items : List (Nat × Tag)) (now : Int)
  | setSha256 (items : List (Nat × Hash))
  | insertFile (rec : FileRecord) (scanMarker : Nat) (now : Int)
  | removeMapping (f t service : Nat)

def importStep (c : ClientDb) : ImportOp → ClientDb
  | .stage service items now => c.stageMappingsBatch service items now
  | .resolve service domain => (c.resolveStagedMappings service domain).1
  | .apply service items now => { c with db := c.db.applyHydrusMappings service items now }
  | .setSha256 items => { c with db := c.db.setSha256Batch items }
  | .insertFile rec scanMarker now => { c with db := c.db.insertFile rec scanMarker now }
  | .removeMapping f t service => { c with db := c.db.removeMapping f t service }

/-- Backfill, stage the records buffer by buffer, resolve. -/
def runImport (service : Nat) (backfill : List (List (Nat × Hash)))
    (buffers : List (List (Hash × Tag × MappingStatus))) (now : Int) : List ImportOp :=
  backfill.map .setSha256 ++ buffers.map (.stage service · now) ++ [.resolve service "sha256"]

/-- Backfill, resolve what is staged, apply the tags of the library's files batch by batch. -/
def libraryImport (service : Nat) (backfill : List (List (Nat × Hash)))
    (batches : List (List (Nat × Tag))) (now : Int) : List ImportOp :=
  backfill.map .setSha256 ++ [.resolve service "sha256"] ++ batches.map (.apply service · now)

/-- Apply the tags looked up for one file. -/
def lookupApply (service : Nat) (f : Nat) (tags : List Tag) (now : Int) : List ImportOp :=
  [.apply service (tags.map fun tag => (f, tag)) now]

/-! ## What resolving is for -/

/-- A staged row of the service names this file and tag, with this status. -/
def StagedAs (c : ClientDb) (service : Nat) (status : MappingStatus) (f t : Nat) : Prop :=
  ∃ sha256 row, c.staged.lookup (sha256, t, service) = some row ∧ row.status = status ∧
    f ∈ c.db.stagedFiles sha256

structure Resolves (c : ClientDb) (service : Nat) (domain : String) : Prop where
  current : ∀ f t, c.StagedAs service .current f t → ∃ row,
    (c.resolveStagedMappings service domain).1.db.mappings.lookup (f, t, service) = some row ∧
      row.status = .current
  deleted : ∀ f t, c.StagedAs service .deleted f t → ∀ row,
    (c.resolveStagedMappings service domain).1.db.mappings.lookup (f, t, service) = some row →
      row.status ≠ .current
  others : ∀ f t s, (s = service → ∀ status, ¬c.StagedAs service status f t) →
    (c.resolveStagedMappings service domain).1.db.mappings.lookup (f, t, s) =
      c.db.mappings.lookup (f, t, s)

/-- No current row of a tag staged as deleted carries the bit of another domain. -/
def OneDomain (c : ClientDb) (service : Nat) (domain : String) : Prop :=
  ∀ f t, c.StagedAs service .deleted f t → ∀ row,
    c.db.mappings.lookup (f, t, service) = some row → row.status = .current →
      row.domains &&& ~~~domainBit domain = 0

/-! ## Rows through the statements -/

section

variable {db : Db}

theorem lookup_insertMapping (key : Nat × Nat × Nat) (row : MappingRow)
    (update : MappingRow → MappingRow) (k : Nat × Nat × Nat) :
    (db.insertMapping key row update).mappings.lookup k =
      if k = key then some (((db.mappings.lookup k).map update).getD row)
      else db.mappings.lookup k := by
  show (db.mappings.upsert key row fun old => some (update old)).1.lookup k = _
  by_cases hk : k = key
  · subst hk
    rw [if_pos rfl, Table.upsert]
    cases hl : db.mappings.lookup k with
    | none => simp
    | some old => simp
  · rw [if_neg hk, Table.lookup_upsert_ne hk]

theorem lookup_retract (bit : BitVec 64) (p : Nat × Nat × Nat → MappingRow → Bool)
    (k : Nat × Nat × Nat) :
    (db.retract bit p).mappings.lookup k = (db.mappings.lookup k).map fun row =>
      if p k row then { row with domains := row.domains &&& ~~~bit } else row :=
  Table.lookup_modify _ _ _

theorem lookup_deleteMappings (p : Nat × Nat × Nat → MappingRow → Bool) (k : Nat × Nat × Nat) :
    (db.deleteMappings p).mappings.lookup k = (db.mappings.lookup k).filter fun row => !p k row :=
  Table.lookup_select _ _ _

/-- A current row that carries the bit of a domain. -/
def Asserted (db : Db) (i : Nat) (k : Nat × Nat × Nat) : Prop :=
  ∃ row, db.mappings.lookup k = some row ∧ row.status = .current ∧ row.domains.getLsbD i = true

theorem lookup_insertStagedRow_ne {service : Nat} {bit : BitVec 64} {r : Nat × Nat × Int}
    {k : Nat × Nat × Nat} (hk : k ≠ (r.1, r.2.1, service)) :
    (insertStagedRow service bit db r).mappings.lookup k = db.mappings.lookup k := by
  rw [insertStagedRow, lookup_insertMapping, if_neg hk]

theorem asserted_insertStagedRow (service : Nat) {i : Nat} (hi : i < 64) (r : Nat × Nat × Int) :
    Asserted (insertStagedRow service (BitVec.twoPow 64 i) db r) i (r.1, r.2.1, service) := by
  have hbit : (BitVec.twoPow 64 i).getLsbD i = true := by simp [hi]
  rw [Asserted, insertStagedRow, lookup_insertMapping, if_pos rfl]
  cases db.mappings.lookup (r.1, r.2.1, service) with
  | none => exact ⟨_, rfl, rfl, hbit⟩
  | some old => exact ⟨_, rfl, rfl, by simp [orBitCurrent, hi]⟩

theorem Asserted.insertStagedRow {service i : Nat} (hi : i < 64) {k : Nat × Nat × Nat}
    (h : Asserted db i k) (r : Nat × Nat × Int) :
    Asserted (insertStagedRow service (BitVec.twoPow 64 i) db r) i k := by
  by_cases hk : k = (r.1, r.2.1, service)
  · rw [hk]
    exact asserted_insertStagedRow service hi r
  · rw [Asserted, lookup_insertStagedRow_ne hk]
    exact h

/-- Inserting staged rows asserts those it names. -/
theorem asserted_foldl {service i : Nat} (hi : i < 64) (rows : List (Nat × Nat × Int))
    {k : Nat × Nat × Nat}
    (h : Asserted db i k ∨ ∃ r ∈ rows, k = (r.1, r.2.1, service)) :
    Asserted (rows.foldl (insertStagedRow service (BitVec.twoPow 64 i)) db) i k := by
  induction rows generalizing db with
  | nil =>
    rcases h with h | ⟨r, hr, _⟩
    · exact h
    · cases hr
  | cons r rows ih =>
    refine ih ?_
    rcases h with h | ⟨r', hr', rfl⟩
    · exact .inl (h.insertStagedRow hi r)
    · rcases List.mem_cons.1 hr' with rfl | hr'
      · exact .inl (asserted_insertStagedRow service hi r')
      · exact .inr ⟨r', hr', rfl⟩

/-- And leaves the others. -/
theorem lookup_foldl_insertStagedRow {service : Nat} {bit : BitVec 64}
    (rows : List (Nat × Nat × Int)) {k : Nat × Nat × Nat}
    (h : ∀ r ∈ rows, k ≠ (r.1, r.2.1, service)) :
    (rows.foldl (insertStagedRow service bit) db).mappings.lookup k = db.mappings.lookup k := by
  induction rows generalizing db with
  | nil => rfl
  | cons r rows ih =>
    rw [List.foldl_cons, ih fun r' hr' => h r' (List.mem_cons_of_mem _ hr'),
      lookup_insertStagedRow_ne (h r (by simp))]

end

/-! ## Staged rows -/

section

variable {c : ClientDb} {service : Nat}

theorem mem_stagedFiles {db : Db} {sha256 : Hash} {f : Nat} :
    f ∈ db.stagedFiles sha256 ↔ ∃ row, db.files.lookup f = some row ∧ row.sha256 = some sha256 := by
  rw [stagedFiles, List.mem_map]
  constructor
  · rintro ⟨⟨g, row⟩, hmem, rfl⟩
    obtain ⟨hrow, hsha⟩ := List.mem_filter.1 hmem
    exact ⟨row, Table.mem_entries.1 hrow, of_decide_eq_true hsha⟩
  · rintro ⟨row, hrow, hsha⟩
    exact ⟨⟨f, row⟩, List.mem_filter.2 ⟨Table.mem_entries.2 hrow, decide_eq_true hsha⟩, rfl⟩

theorem stagedAs_iff {status : MappingStatus} {f t : Nat} :
    c.StagedAs service status f t ↔ ∃ r ∈ c.stagedRows service status, (r.1, r.2.1) = (f, t) := by
  constructor
  · rintro ⟨sha256, row, hrow, hstatus, hf⟩
    refine ⟨(f, t, row.createdAt), List.mem_flatMap.2
      ⟨⟨(sha256, t, service), row⟩, Table.mem_entries.2 hrow, ?_⟩, rfl⟩
    rw [if_pos ⟨rfl, hstatus⟩]
    exact List.mem_map.2 ⟨f, hf, rfl⟩
  · rintro ⟨r, hr, heq⟩
    obtain ⟨⟨⟨sha256, t', service'⟩, row⟩, hrow, hr⟩ := List.mem_flatMap.1 hr
    split at hr
    · rename_i h
      obtain ⟨f', hf', rfl⟩ := List.mem_map.1 hr
      cases heq
      obtain ⟨rfl, hstatus⟩ := h
      exact ⟨sha256, row, Table.mem_entries.1 hrow, hstatus, hf'⟩
    · cases hr

/-- A file has one SHA-256 and a staged row one status. -/
theorem StagedAs.status_unique {status status' : MappingStatus} {f t : Nat}
    (h : c.StagedAs service status f t) (h' : c.StagedAs service status' f t) :
    status = status' := by
  obtain ⟨sha256, row, hrow, rfl, hf⟩ := h
  obtain ⟨sha256', row', hrow', rfl, hf'⟩ := h'
  obtain ⟨file, hfile, hsha⟩ := mem_stagedFiles.1 hf
  obtain ⟨file', hfile', hsha'⟩ := mem_stagedFiles.1 hf'
  cases hfile.symm.trans hfile'
  cases hsha.symm.trans hsha'
  cases hrow.symm.trans hrow'
  rfl

/-- The rows of the staged current tags, and all others as they were. -/
theorem lookup_inserted_of_not_staged (bit : BitVec 64) {f t s : Nat}
    (h : s = service → ¬c.StagedAs service .current f t) :
    ((c.stagedRows service .current).foldl (insertStagedRow service bit) c.db).mappings.lookup
      (f, t, s) = c.db.mappings.lookup (f, t, s) := by
  apply lookup_foldl_insertStagedRow
  intro r hr heq
  cases heq
  exact h rfl (stagedAs_iff.2 ⟨r, hr, rfl⟩)

/-- Where no staged current row writes, resolving clears the bit of the deleted rows and drops what
has no bit left. -/
theorem lookup_resolved (domain : String) {f t s : Nat} :
    (c.resolveStagedMappings service domain).1.db.mappings.lookup (f, t, s) =
      ((((c.stagedRows service .current).foldl (insertStagedRow service (domainBit domain))
        c.db).mappings.lookup (f, t, s)).map fun row =>
          if s = service && (c.stagedRows service .deleted).any (fun r => (r.1, r.2.1) = (f, t)) then
            { row with domains := row.domains &&& ~~~domainBit domain }
          else row).filter fun row => !(decide (s = service) && decide (row.domains = 0)) := by
  rw [resolveStagedMappings]
  simp only [lookup_deleteMappings, lookup_retract]

theorem any_stagedRows {status : MappingStatus} {f t : Nat} :
    ((c.stagedRows service status).any fun r => (r.1, r.2.1) = (f, t)) = true ↔
      c.StagedAs service status f t := by
  rw [stagedAs_iff, List.any_eq_true]
  simp only [decide_eq_true_eq]

/-- What is not staged as deleted keeps its row, unless it carries no domain at all. -/
theorem lookup_resolved_kept (domain : String) {f t s : Nat}
    (h : s = service → ¬c.StagedAs service .deleted f t)
    (hzero : s = service → ∀ row, ((c.stagedRows service .current).foldl
      (insertStagedRow service (domainBit domain)) c.db).mappings.lookup (f, t, s) = some row →
        row.domains ≠ 0) :
    (c.resolveStagedMappings service domain).1.db.mappings.lookup (f, t, s) =
      ((c.stagedRows service .current).foldl (insertStagedRow service (domainBit domain))
        c.db).mappings.lookup (f, t, s) := by
  rw [lookup_resolved]
  by_cases hs : s = service
  · have hany : ((c.stagedRows service .deleted).any fun r => (r.1, r.2.1) = (f, t)) = false := by
      rw [Bool.eq_false_iff]
      exact fun hany => h hs (any_stagedRows.1 hany)
    cases hl : ((c.stagedRows service .current).foldl (insertStagedRow service (domainBit domain))
        c.db).mappings.lookup (f, t, s) with
    | none => rfl
    | some row =>
      have hne := hzero hs row hl
      rw [Option.map_some, hany, Bool.and_false, if_neg Bool.false_ne_true]
      exact Option.filter_eq_some_iff.2 ⟨rfl, by simpa [hs] using hne⟩
  · cases ((c.stagedRows service .current).foldl (insertStagedRow service (domainBit domain))
        c.db).mappings.lookup (f, t, s) with
    | none => rfl
    | some row => simp [hs, Option.filter]

theorem current_resolved (domain : String) {f t : Nat} (h : c.StagedAs service .current f t) :
    ∃ row, (c.resolveStagedMappings service domain).1.db.mappings.lookup (f, t, service) = some row ∧
      row.status = .current := by
  have hasserted : Asserted ((c.stagedRows service .current).foldl
      (insertStagedRow service (domainBit domain)) c.db) (domainFlag domain) (f, t, service) := by
    rw [domainBit_eq]
    refine asserted_foldl (domainFlag_lt domain) _ (.inr ?_)
    obtain ⟨r, hr, heq⟩ := stagedAs_iff.1 h
    cases heq
    exact ⟨r, hr, rfl⟩
  obtain ⟨row, hrow, hstatus, hbit⟩ := hasserted
  refine ⟨row, ?_, hstatus⟩
  rw [lookup_resolved_kept, hrow]
  · intro _ hdeleted
    cases h.status_unique hdeleted
  · intro _ row' hrow' hzero
    cases hrow.symm.trans hrow'
    rw [hzero] at hbit
    simp at hbit

theorem other_resolved (domain : String) (hz : c.db.NoZero) {f t s : Nat}
    (h : s = service → ∀ status, ¬c.StagedAs service status f t) :
    (c.resolveStagedMappings service domain).1.db.mappings.lookup (f, t, s) =
      c.db.mappings.lookup (f, t, s) := by
  have hsame := lookup_inserted_of_not_staged (domainBit domain) fun hs => h hs .current
  rw [lookup_resolved_kept, hsame]
  · exact fun hs => h hs .deleted
  · intro _ row hrow
    rw [hsame] at hrow
    exact hz _ row hrow

/-- A tag staged as deleted keeps its row just where another domain carries it. -/
theorem deleted_resolved (domain : String) {f t : Nat} (h : c.StagedAs service .deleted f t) :
    (c.resolveStagedMappings service domain).1.db.mappings.lookup (f, t, service) =
      ((c.db.mappings.lookup (f, t, service)).map fun row =>
        { row with domains := row.domains &&& ~~~domainBit domain }).filter fun row =>
          row.domains ≠ 0 := by
  have hcurrent : service = service → ¬c.StagedAs service .current f t :=
    fun _ hcurrent => by cases h.status_unique hcurrent
  have hsame := lookup_inserted_of_not_staged (domainBit domain) hcurrent
  rw [lookup_resolved, hsame, any_stagedRows.2 h]
  simp

/-- Resolving a database without zero masks. -/
theorem resolvesStaged_iff_oneDomain (hz : c.db.NoZero) (domain : String) :
    c.Resolves service domain ↔ c.OneDomain service domain := by
  constructor
  · intro hres f t hstaged row hrow hstatus
    by_contra hne
    refine hres.deleted f t hstaged { row with domains := row.domains &&& ~~~domainBit domain } ?_
      hstatus
    rw [deleted_resolved domain hstaged, hrow]
    exact Option.filter_eq_some_iff.2 ⟨rfl, decide_eq_true hne⟩
  · intro hone
    refine ⟨fun f t => current_resolved domain, ?_, fun f t s => other_resolved domain hz⟩
    intro f t hstaged row hrow hstatus
    rw [deleted_resolved domain hstaged] at hrow
    obtain ⟨hmap, hne⟩ := Option.filter_eq_some_iff.1 hrow
    obtain ⟨old, hold, rfl⟩ := Option.map_eq_some_iff.1 hmap
    exact of_decide_eq_true hne (hone f t hstaged old hold hstatus)

end

/-! ## Runs -/

section

variable {c : ClientDb}

theorem noZero_addMapping {db : Db} (hz : db.NoZero) (f t service : Nat) (now : Int) :
    (db.addMapping f t service now).NoZero := by
  intro k row hrow
  rw [addMapping, lookup_insertMapping] at hrow
  split at hrow
  · rename_i hk
    cases hold : db.mappings.lookup k with
    | none =>
      rw [hold] at hrow
      cases hrow
      simp [domainBitBlake3]
    | some old =>
      rw [hold] at hrow
      cases hrow
      exact hz k _ hold
  · exact hz k row hrow

theorem noZero_resolved (hz : c.db.NoZero) (service : Nat) (domain : String) :
    (c.resolveStagedMappings service domain).1.db.NoZero := by
  rintro ⟨f, t, s⟩ row hrow
  by_cases hs : s = service
  · rw [lookup_resolved] at hrow
    have hne := (Option.filter_eq_some_iff.1 hrow).2
    simpa [hs] using hne
  · rw [other_resolved domain hz fun h => absurd h hs] at hrow
    exact hz _ row hrow

theorem setSha256Batch_mappings (db : Db) (items : List (Nat × Hash)) :
    (db.setSha256Batch items).mappings = db.mappings := by
  have hset : ∀ (items : List (Nat × Hash)) (db : Db),
      (items.foldl updateSha256 db).mappings = db.mappings := by
    intro items
    induction items with
    | nil => exact fun _ => rfl
    | cons item items ih => exact fun db => ih (db.updateSha256 item)
  have hstamp : ∀ (items : List (Nat × Nat)) (db : Db),
      (items.foldl stampSeq db).mappings = db.mappings := by
    intro items
    induction items with
    | nil => exact fun _ => rfl
    | cons item items ih => exact fun db => ih (db.stampSeq item)
  exact (hstamp _ _).trans (hset items db)

theorem noZero_importStep (hz : c.db.NoZero) (op : ImportOp) : (c.importStep op).db.NoZero := by
  cases op with
  | stage service items now =>
    have hstage : ∀ (items : List (Hash × Tag × MappingStatus)) (c : ClientDb), c.db.NoZero →
        (items.foldl (fun c item => c.stageMapping service now item) c).db.NoZero := by
      intro items
      induction items with
      | nil => exact fun _ hz => hz
      | cons item items ih => exact fun c hz => ih (c.stageMapping service now item) hz
    exact hstage items c hz
  | resolve service domain => exact noZero_resolved hz service domain
  | apply service items now =>
    refine @run_invariant _ _ _ NoZero _ items hz fun db item hz => ?_
    have htagged : (db.internTag item.2).NoZero := hz
    exact noZero_addMapping htagged item.1 _ service now
  | setSha256 items =>
    intro k row hrow
    exact hz k row (by rw [← setSha256Batch_mappings c.db items]; exact hrow)
  | insertFile rec scanMarker now =>
    intro k row hrow
    exact hz k row (by rw [← (insertFile_frame c.db rec scanMarker now).1]; exact hrow)
  | removeMapping f t service => exact NoZero.deleteMappings hz _

end

/-- **In every state that a run of imports reaches, resolving the staged mappings of a service makes
each staged current one a current mapping, each staged deleted one of a known file none, and changes
no other, if and only if no current row of a staged deleted one carries the bit of another
domain.** -/
theorem resolvesStaged_iff (ops : List ImportOp) (service : Nat) (domain : String) :
    (run importStep empty ops).Resolves service domain ↔
      (run importStep empty ops).OneDomain service domain := by
  have hz : (run importStep empty ops).db.NoZero :=
    @run_invariant _ _ _ (fun c : ClientDb => c.db.NoZero) _ ops masked_empty.noZero
      fun c op hz => noZero_importStep hz op
  exact resolvesStaged_iff_oneDomain hz domain

/-- A file imported with its SHA-256. -/
def knownFile : List ImportOp :=
  [.insertFile ⟨Hash.fill 1, [47, 97], 10, none, none, some (Hash.fill 11)⟩ 1 0]

/-- A library import applied its tag, and Hydrus reports it deleted afterwards. -/
def appliedThenDeleted : List ImportOp :=
  knownFile ++ libraryImport 2 [] [[(1, ⟨"t", "a"⟩)]] 0 ++
    [.stage 2 [(Hash.fill 11, ⟨"t", "a"⟩, .deleted)] 5]

/-- A whole import that reports it deleted leaves the tag a library import or a lookup applied. -/
theorem resolves_applied :
    ¬(run importStep empty appliedThenDeleted).Resolves 2 "sha256" ∧
      (run importStep empty (knownFile ++ libraryImport 2 [] [[(1, ⟨"t", "a"⟩)]] 0 ++
        runImport 2 [] [[(Hash.fill 11, ⟨"t", "a"⟩, .deleted)]] 5)).db.mappings.lookup (1, 1, 2) =
          some ⟨.current, 0, domainBitBlake3, none⟩ ∧
      (run importStep empty (knownFile ++ lookupApply 2 1 [⟨"t", "a"⟩] 0 ++
        runImport 2 [] [[(Hash.fill 11, ⟨"t", "a"⟩, .deleted)]] 5)).db.mappings.lookup (1, 1, 2) =
          some ⟨.current, 0, domainBitBlake3, none⟩ := by
  refine ⟨?_, by decide, by decide⟩
  have hstaged : (run importStep empty appliedThenDeleted).StagedAs 2 .deleted 1 1 :=
    ⟨Hash.fill 11, ⟨.deleted, 5⟩, by decide, rfl, by decide⟩
  have hkept : ((run importStep empty appliedThenDeleted).resolveStagedMappings 2
      "sha256").1.db.mappings.lookup (1, 1, 2) = some ⟨.current, 0, domainBitBlake3, none⟩ := by
    decide
  exact fun hres => hres.deleted 1 1 hstaged _ hkept rfl

end ClientDb

end Db
end Naiad
