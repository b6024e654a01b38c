import Naiad.Netproto.Wire
import Naiad.Lib.IdTable
import Naiad.Lib.Table
import Naiad.Lib.DeltaLog

/-!
# Naiad.Server.Store

The tables of a repository node and what makes them sound: interned hashes and tags, the
current-view mappings keyed by their ids, the signed submissions log, accounts, reports and the
metadata keys.

* `RepoStore.row`: the mapping row of a hash and a tag, through the interning tables.
* `mem_joinRows`: on a sound store the three-way join lists exactly those rows.
* `RepoStore.log`: the store as a log of statuses and the sequence numbers they were given.
-/

namespace Naiad
namespace Server

open Lib Netproto

structure LoggedSubmission where
  op : Op
  hash : String
  tag : String
  author : String
  signature : String
  createdAt : Int
  origin : Option String
deriving DecidableEq

structure MappingRow where
  status : MappingStatus
  seq : Nat
  origin : Option String
deriving DecidableEq

structure AccountRow where
  banned : Bool
  createdAt : Int
deriving DecidableEq

structure ReportRow where
  hash : String
  tag : String
  isOpen : Bool
deriving DecidableEq

inductive SeedPass
  | current
  | deleted
deriving DecidableEq

structure SeedCheckpoint where
  v : Nat
  pass : SeedPass
  highWater : Nat
  serviceId : Int
  fp : String
deriving DecidableEq

/-- The store, with the submissions log oldest first and the `repo_meta` keys as fields. -/
structure RepoStore where
  accounts : Table String AccountRow
  submissions : List LoggedSubmission
  repoHashes : IdTable Hash
  repoTags : IdTable String
  repoMappings : Table (Nat × Nat) MappingRow
  hashUniqueIndex : Bool
  reports : List ReportRow
  distinctHashCount : Option Nat
  storeGeneration : Option String
  seedCkpt : Option SeedCheckpoint
  rebuildInProgress : Bool

namespace RepoStore

/-- A store as the migrations leave it. -/
def empty : RepoStore where
  accounts := ∅
  submissions := []
  repoHashes := .empty
  repoTags := .empty
  repoMappings := ∅
  hashUniqueIndex := true
  reports := []
  distinctHashCount := none
  storeGeneration := none
  seedCkpt := none
  rebuildInProgress := false

def mappingCursor (s : RepoStore) : Nat := Table.maxOf s.repoMappings MappingRow.seq

/-- `repo_mappings` joined with the texts of its ids. -/
def joinRows (s : RepoStore) : List (Hash × String × MappingRow) :=
  s.repoMappings.entries.filterMap fun e =>
    match s.repoHashes.valueOf e.1.1, s.repoTags.valueOf e.1.2 with
    | some h, some t => some (h, t, e.2)
    | _, _ => none

/-- The mapping row of a hash and a tag. -/
def row (s : RepoStore) (hash : Hash) (tag : String) : Option MappingRow :=
  match s.repoHashes.idOf hash, s.repoTags.idOf tag with
  | some hid, some tid => s.repoMappings.lookup (hid, tid)
  | _, _ => none

/-- The store as a log: the status of each pair and the sequence number it was given. -/
def log (s : RepoStore) : Log (Hash × String) MappingStatus := fun k =>
  (s.row k.1 k.2).map fun r => (r.status, r.seq)

/-- What the schema enforces while the hash index is there: unique hashes and tags, mappings that
refer to interned ids; and that no two mappings share a sequence number. -/
structure Sound (s : RepoStore) : Prop where
  hashes : s.repoHashes.Unique
  tags : s.repoTags.Unique
  refs : ∀ k r, s.repoMappings.lookup k = some r → k.1 ∈ s.repoHashes.ids ∧ k.2 ∈ s.repoTags.ids
  seqs : ∀ k k' r r', s.repoMappings.lookup k = some r → s.repoMappings.lookup k' = some r' →
    r.seq = r'.seq → k = k'

theorem sound_empty : empty.Sound where
  hashes := IdTable.unique_empty
  tags := IdTable.unique_empty
  refs := by intro k r h; simp [empty] at h
  seqs := by intro k k' r r' h; simp [empty] at h

theorem row_eq_some {s : RepoStore} {h : Hash} {t : String} {r : MappingRow} :
    s.row h t = some r ↔ ∃ hid tid, s.repoHashes.idOf h = some hid ∧
      s.repoTags.idOf t = some tid ∧ s.repoMappings.lookup (hid, tid) = some r := by
  unfold row
  cases hh : s.repoHashes.idOf h with
  | none => simp
  | some hid =>
    cases ht : s.repoTags.idOf t with
    | none => simp
    | some tid => simp

theorem log_eq_some {s : RepoStore} {h : Hash} {t : String} {st : MappingStatus} {n : Nat} :
    s.log (h, t) = some (st, n) ↔ ∃ r, s.row h t = some r ∧ r.status = st ∧ r.seq = n := by
  simp [log, Option.map_eq_some_iff]

/-- On a sound store the join lists exactly the rows of the pairs. -/
theorem mem_joinRows {s : RepoStore} (hs : s.Sound) {h : Hash} {t : String} {r : MappingRow} :
    (h, t, r) ∈ s.joinRows ↔ s.row h t = some r := by
  rw [row_eq_some]
  constructor
  · intro hmem
    obtain ⟨⟨⟨hid, tid⟩, r'⟩, he, hjoin⟩ := List.mem_filterMap.1 hmem
    split at hjoin
    · rename_i h' t' hh ht
      simp only [Option.some.injEq, Prod.mk.injEq] at hjoin
      obtain ⟨rfl, rfl, rfl⟩ := hjoin
      exact ⟨hid, tid, IdTable.idOf_of_valueOf hs.hashes hh, IdTable.idOf_of_valueOf hs.tags ht,
        Table.mem_entries.1 he⟩
    · cases hjoin
  · rintro ⟨hid, tid, hh, ht, hl⟩
    refine List.mem_filterMap.2 ⟨⟨(hid, tid), r⟩, Table.mem_entries.2 hl, ?_⟩
    simp [IdTable.valueOf_of_idOf hh, IdTable.valueOf_of_idOf ht]

/-- No two rows of the join have one sequence number. -/
theorem nodup_joinRows {s : RepoStore} (hs : s.Sound) : s.joinRows.Nodup := by
  have hkeys : s.repoMappings.entries.Pairwise fun e e' => e.1 ≠ e'.1 :=
    List.pairwise_map.1 s.repoMappings.nodupKeys
  rw [List.Nodup, joinRows, List.pairwise_filterMap]
  refine (List.Pairwise.and_mem.1 hkeys).imp ?_
  rintro e e' ⟨he, he', hne⟩ r hr r' hr' rfl
  refine hne (hs.seqs _ _ _ _ (Table.mem_entries.1 he) (Table.mem_entries.1 he') ?_)
  grind

theorem row_seq_le {s : RepoStore} {h : Hash} {t : String} {r : MappingRow}
    (hr : s.row h t = some r) : r.seq ≤ s.mappingCursor := by
  obtain ⟨hid, tid, _, _, hl⟩ := row_eq_some.1 hr
  exact Table.le_maxOf hl

theorem log_bounded (s : RepoStore) : Bounded s.log s.mappingCursor := by
  rintro ⟨h, t⟩ st n hlog
  obtain ⟨r, hr, _, rfl⟩ := log_eq_some.1 hlog
  exact row_seq_le hr

theorem Sound.distinct {s : RepoStore} (hs : s.Sound) : Distinct s.log := by
  rintro ⟨h, t⟩ ⟨h', t'⟩ st st' n hlog hlog'
  obtain ⟨r, hr, _, hn⟩ := log_eq_some.1 hlog
  obtain ⟨r', hr', _, hn'⟩ := log_eq_some.1 hlog'
  obtain ⟨hid, tid, hh, ht, hl⟩ := row_eq_some.1 hr
  obtain ⟨hid', tid', hh', ht', hl'⟩ := row_eq_some.1 hr'
  have hk := hs.seqs _ _ _ _ hl hl' (by rw [hn, hn'])
  simp only [Prod.mk.injEq] at hk
  obtain ⟨rfl, rfl⟩ := hk
  have hhash := IdTable.mem_rows_unique (IdTable.mem_of_idOf hh) (IdTable.mem_of_idOf hh')
  have htag := IdTable.mem_rows_unique (IdTable.mem_of_idOf ht) (IdTable.mem_of_idOf ht')
  rw [hhash, htag]

end RepoStore

end Server
end Naiad
