import Naiad.Db.Services
import Naiad.Netproto.Sign

/-!
# Naiad.Db.Staging

A client database with its two staging tables: tags imported for files by their SHA-256, and the raw
relation edges of a service. Staged mappings and rejections reference the service they belong to;
relation edges only carry its id.
-/

namespace Naiad
namespace Db

open Lib Netproto

/-- `staged_mappings`, keyed by SHA-256, tag and service. -/
structure StagedRow where
  status : MappingStatus
  createdAt : Int
deriving DecidableEq

/-- `service_relation_edges`, keyed by service, kind, from, to and author. -/
structure EdgeRow where
  status : MappingStatus
  seq : Nat
deriving DecidableEq

abbrev EdgeKey := Nat × RelKind × String × String × String

structure ClientDb where
  db : Db
  staged : Table (Hash × Nat × Nat) StagedRow
  relationEdges : Table EdgeKey EdgeRow

namespace ClientDb

def empty : ClientDb := ⟨Db.empty, ∅, ∅⟩

/-- Stage one imported record; a later one of the same key updates its status. -/
def stageMapping (c : ClientDb) (service : Nat) (now : Int) (item : Hash × Tag × MappingStatus) :
    ClientDb :=
  { c with
    db := c.db.internTag item.2.1
    staged := c.staged.insert (item.1, c.db.internedTag item.2.1, service) ⟨item.2.2, now⟩ }

def stageMappingsBatch (c : ClientDb) (service : Nat) (items : List (Hash × Tag × MappingStatus))
    (now : Int) : ClientDb :=
  items.foldl (fun c item => c.stageMapping service now item) c

/-- The edge as the repo last sent it. -/
def stageRelationEdge (c : ClientDb) (key : EdgeKey) (status : MappingStatus) (seq : Nat) :
    ClientDb :=
  { c with relationEdges := c.relationEdges.insert key ⟨status, toI64 seq⟩ }

/-- `INSERT OR IGNORE` hides no missing reference. -/
def addRejection (c : ClientDb) (service file tag : Nat) : Except ServiceError ClientDb :=
  if (c.db.services.lookup service).isSome ∧ (c.db.files.lookup file).isSome ∧
      tag ∈ c.db.tags.ids then
    .ok { c with db := { c.db with rejections := insert (service, file, tag) c.db.rejections } }
  else .error .constraint

end ClientDb

end Db
end Naiad
