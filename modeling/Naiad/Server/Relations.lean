import Mathlib.Data.Prod.Lex
import Naiad.Lib.LastWrite
import Naiad.Netproto.Sign
import Naiad.Server.Status

/-!
# Naiad.Server.Relations

The relation table of a repository: one row for each author's opinion of an edge, the two ways to
write it, and the reads that serve it.

* `relationStatuses_applyBridgeRelations`: the bridge's rows are written in order, the last of an
  edge winning.
-/

namespace Naiad
namespace Server

open Lib Netproto

structure RelationKey where
  kind : RelKind
  fromTag : String
  toTag : String
  author : String
deriving DecidableEq

structure RelationRow where
  status : MappingStatus
  signature : List Byte
  createdAt : Int
  seq : Nat
deriving DecidableEq

/-- The store with its relation table. -/
structure RepoDb extends RepoStore where
  relations : Table RelationKey RelationRow

structure AuthoredEdge where
  fromTag : String
  toTag : String
  author : String
deriving DecidableEq

structure DeltaEdge where
  kind : RelKind
  fromTag : String
  toTag : String
  author : String
  status : MappingStatus
  seq : Nat
deriving DecidableEq

structure RelationGraph where
  cursor : Nat
  siblings : List AuthoredEdge
  parents : List AuthoredEdge
deriving DecidableEq

structure RelationDelta where
  cursor : Nat
  edges : List DeltaEdge
deriving DecidableEq

def RelationKey.of (sub : RelationSubmission) : RelationKey :=
  ⟨sub.kind, sub.fromTag, sub.toTag, sub.author⟩

namespace RepoDb

def empty : RepoDb := { RepoStore.empty with relations := ∅ }

def relationCursor (db : RepoDb) : Nat := Table.maxOf db.relations RelationRow.seq

end RepoDb

/-- `ON CONFLICT .. DO UPDATE` of a signed relation: a removal dominates, and brings its
signature. -/
def mergeRelation (new old : RelationRow) : Option RelationRow :=
  some {
    status := if old.status = .deleted ∨ new.status = .deleted then .deleted else .current
    signature := if new.status = .deleted then new.signature else old.signature
    createdAt := new.createdAt
    seq := new.seq }

/-- `ON CONFLICT .. DO UPDATE .. WHERE relations.status <> excluded.status`. -/
def mergeBridgeRelation (new old : RelationRow) : Option RelationRow :=
  if old.status = new.status then none else some new

namespace RepoDb

/-- Apply one verified relation submission. -/
def applyRelation (db : RepoDb) (ts : Int) (sub : RelationSubmission) :
    RepoDb × Except StoreError Unit :=
  let db₁ : RepoDb := { db with toRepoStore := db.ensureAccount sub.author ts }
  if db₁.isBanned sub.author then (db₁, .error (.banned sub.author))
  else
    match hexDecode sub.signature with
    | none => (db₁, .error (.notHex sub.signature))
    | some signature =>
      let new : RelationRow := ⟨sub.op.status, signature, ts, db₁.relationCursor + 1⟩
      ({ db₁ with relations :=
          (Table.upsert db₁.relations (.of sub) new (mergeRelation new)).1 }, .ok ())

/-- One row of `apply_bridge_relations`, with the count of rows changed. -/
def bridgeRelation (ts : Int) (acc : RepoDb × Nat) (sub : RelationSubmission) :
    Except StoreError (RepoDb × Nat) :=
  match hexDecode sub.signature with
  | none => .error (.notHex sub.signature)
  | some signature =>
    let new : RelationRow := ⟨sub.op.status, signature, ts, acc.1.relationCursor + 1⟩
    let up := Table.upsert acc.1.relations (.of sub) new (mergeBridgeRelation new)
    .ok ({ acc.1 with relations := up.1 }, acc.2 + up.2)

def bridgeRelations (ts : Int) : RepoDb × Nat → List RelationSubmission →
    Except StoreError (RepoDb × Nat)
  | acc, [] => .ok acc
  | acc, sub :: subs =>
    match bridgeRelation ts acc sub with
    | .error e => .error e
    | .ok acc' => bridgeRelations ts acc' subs

/-- The bridge's rows, in one transaction under the bridge's own account. -/
def applyBridgeRelations (db : RepoDb) (ts : Int) (rows : List RelationSubmission) :
    Except StoreError (RepoDb × Nat) :=
  match rows with
  | [] => .ok (db, 0)
  | row :: _ =>
    bridgeRelations ts ({ db with toRepoStore := db.ensureAccount row.author ts }, 0) rows

/-! ## Reads -/

/-- Every row past `since`, tombstones included, in the order of the sequence numbers. -/
def edgesSince (db : RepoDb) (since : Nat) : List DeltaEdge :=
  orderBy (fun e => e.seq) (db.relations.entries.filterMap fun e =>
    if since < e.2.seq then
      some ⟨e.1.kind, e.1.fromTag, e.1.toTag, e.1.author, e.2.status, e.2.seq⟩
    else none)

/-- The edges of a kind that some author holds current, each with the least of these authors. -/
def edgesOf (db : RepoDb) (kind : RelKind) : List AuthoredEdge :=
  let current := db.relations.entries.filter fun e => e.1.kind = kind ∧ e.2.status = .current
  orderBy (fun e => toLex (e.fromTag, e.toTag))
    ((current.map fun e => (e.1.fromTag, e.1.toTag)).dedup.filterMap fun p =>
      ((current.filter fun e => (e.1.fromTag, e.1.toTag) = p).map fun e => e.1.author).min?.map
        fun author => ⟨p.1, p.2, author⟩)

def relationsGraph (db : RepoDb) : RelationGraph where
  cursor := db.relationCursor
  siblings := db.edgesOf .sibling
  parents := db.edgesOf .parent

/-- The reply to `GET /repo/relations?since=`. -/
def relationDelta (db : RepoDb) (since : Nat) : RelationDelta where
  cursor := db.relationCursor
  edges := db.edgesSince since

end RepoDb

/-! ## The bridge's writes -/

def RepoDb.relationStatuses (db : RepoDb) : RelationKey → Option MappingStatus := fun k =>
  (db.relations.lookup k).map RelationRow.status

def relationWrite (sub : RelationSubmission) : RelationKey × MappingStatus :=
  (.of sub, sub.op.status)

theorem mergeBridgeRelation_status (new old : RelationRow) :
    ((mergeBridgeRelation new old).getD old).status = new.status := by
  unfold mergeBridgeRelation
  split
  · assumption
  · rfl

theorem status_upsert {t : Table RelationKey RelationRow} {k : RelationKey} {new : RelationRow}
    {merge : RelationRow → Option RelationRow}
    (hm : ∀ old, ((merge old).getD old).status = new.status) (k' : RelationKey) :
    ((Table.upsert t k new merge).1.lookup k').map RelationRow.status =
      write (fun k => (t.lookup k).map RelationRow.status) (k, new.status) k' := by
  by_cases hk : k' = k
  · subst hk
    rw [write_same]
    rcases Table.upsert_cases t k' new merge with ⟨old, hl, hmerge, hu⟩ | ⟨r, hu, hr⟩
    · have := hm old
      rw [hu, hl]
      simpa [hmerge] using this
    · rw [hu, AList.lookup_insert]
      rcases hr with ⟨_, rfl⟩ | ⟨old, _, hmerge⟩
      · rfl
      · have := hm old
        simpa [hmerge] using this
  · rw [Table.lookup_upsert_ne hk, write_ne hk]

theorem bridgeRelation_ok {ts : Int} {acc acc' : RepoDb × Nat} {sub : RelationSubmission}
    (h : RepoDb.bridgeRelation ts acc sub = .ok acc') :
    acc'.1.toRepoStore = acc.1.toRepoStore ∧
      acc'.1.relationStatuses = write acc.1.relationStatuses (relationWrite sub) := by
  unfold RepoDb.bridgeRelation at h
  split at h
  · cases h
  · rename_i signature hdec
    cases h
    refine ⟨rfl, ?_⟩
    funext k
    exact status_upsert (mergeBridgeRelation_status _) k

theorem bridgeRelations_ok {ts : Int} {subs : List RelationSubmission} {acc acc' : RepoDb × Nat}
    (h : RepoDb.bridgeRelations ts acc subs = .ok acc') :
    acc'.1.toRepoStore = acc.1.toRepoStore ∧
      acc'.1.relationStatuses = writeAll acc.1.relationStatuses (subs.map relationWrite) := by
  induction subs generalizing acc with
  | nil =>
    cases h
    exact ⟨rfl, rfl⟩
  | cons sub subs ih =>
    rw [RepoDb.bridgeRelations] at h
    split at h
    · cases h
    · rename_i acc₁ hsub
      obtain ⟨hrepo₁, hst₁⟩ := bridgeRelation_ok hsub
      obtain ⟨hrepo, hst⟩ := ih h
      refine ⟨hrepo.trans hrepo₁, ?_⟩
      rw [hst, hst₁]
      rfl

theorem relationStatuses_applyBridgeRelations {db db' : RepoDb} {ts : Int} {n : Nat}
    {rows : List RelationSubmission} (h : db.applyBridgeRelations ts rows = .ok (db', n)) :
    (db'.toRepoStore = db.toRepoStore ∨
        ∃ author, db'.toRepoStore = db.ensureAccount author ts) ∧
      db'.relationStatuses = writeAll db.relationStatuses (rows.map relationWrite) := by
  cases rows with
  | nil =>
    cases h
    exact ⟨.inl rfl, rfl⟩
  | cons row rows =>
    obtain ⟨hrepo, hst⟩ := bridgeRelations_ok h
    exact ⟨.inr ⟨row.author, hrepo⟩, hst⟩

end Server
end Naiad
