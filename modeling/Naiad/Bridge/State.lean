import Naiad.Lib.Durable
import Naiad.Server.Relations

/-!
# Naiad.Bridge.State

What the bridge of a mirror keeps: its private state database, beside the repository it mirrors
into, and the programs that write the two.

* `StateDb`: the id definitions of the upstream, the index of the next update, the phases of the
  seed that are done.
* `BridgeNode`: both databases; a transaction commits in one of them at a time.
-/

namespace Naiad
namespace Bridge

open Lib Netproto Server

inductive BridgeError
  | upstream (message : String)
  | unresolvedTagId (id : Nat)
  | unresolvedHashId (id : Nat)
  | store (e : StoreError)
  | rebuildInterrupted
  | fingerprintMismatch
  | duplicateHashes
deriving DecidableEq

/-- `sync_state` holds the next index and the `seed_phase_*` flags. -/
structure StateDb where
  defsHashes : Table Nat String
  defsTags : Table Nat String
  nextIndex : Option Nat
  seedPhaseMappings : Bool
  seedPhaseDefs : Bool
  seedPhaseCursor : Bool
  seedPhaseRelations : Bool

namespace StateDb

def empty : StateDb := ⟨∅, ∅, none, false, false, false, false⟩

def nextUpdateIndex (st : StateDb) : Nat := st.nextIndex.getD 0

def setNextUpdateIndex (st : StateDb) (index : Nat) : StateDb :=
  { st with nextIndex := some index }

/-- `DELETE FROM sync_state WHERE key = 'seed_phase_mappings'`: the other keys stay. -/
def resetSeedPhaseMappings (st : StateDb) : StateDb := { st with seedPhaseMappings := false }

/-- `INSERT OR REPLACE INTO defs_hashes`, in one transaction. -/
def insertDefsHashes (st : StateDb) (rows : List (Nat × String)) : StateDb :=
  { st with defsHashes := rows.foldl (fun t r => t.insert r.1 r.2) st.defsHashes }

def insertDefsTags (st : StateDb) (rows : List (Nat × String)) : StateDb :=
  { st with defsTags := rows.foldl (fun t r => t.insert r.1 r.2) st.defsTags }

end StateDb

structure BridgeNode where
  state : StateDb
  repo : RepoDb

namespace BridgeNode

def empty : BridgeNode := ⟨.empty, .empty⟩

def setStore (node : BridgeNode) (s : RepoStore) : BridgeNode :=
  { node with repo := { node.repo with toRepoStore := s } }

end BridgeNode

/-- A program of the bridge. -/
abbrev BridgeM := Prog BridgeNode BridgeError

def onState (f : StateDb → StateDb) : BridgeM Unit :=
  .put fun node => { node with state := f node.state }

/-- A statement of the store that cannot fail. -/
def onStore (f : RepoStore → RepoStore) : BridgeM Unit :=
  .put fun node => node.setStore (f node.repo.toRepoStore)

def tryStore {A : Type} (f : RepoStore → Except StoreError (RepoStore × A)) : BridgeM A :=
  .write fun node =>
    match f node.repo.toRepoStore with
    | .error e => .error (.store e)
    | .ok (s, a) => .ok (node.setStore s, a)

theorem lookup_insertAll {K V : Type} [DecidableEq K] (rows : List (K × V)) (t : Table K V) (id : K) :
    (rows.foldl (fun t r => t.insert r.1 r.2) t).lookup id = writeAll t.lookup rows id := by
  induction rows generalizing t with
  | nil => rfl
  | cons r rows ih =>
    rw [List.foldl_cons, ih, writeAll_cons]
    have hone : (t.insert r.1 r.2).lookup = write t.lookup r := by
      funext k
      by_cases hk : k = r.1
      · subst hk
        simp [write]
      · simp [write, hk]
    rw [hone]

/-! ## The bridge's signatures -/

/-- The bridge's account, as it signs relations. -/
structure Signer where
  publicHex : String
  relationSignature : Op → RelKind → String → String → List Byte

def hexEncode (bs : List Byte) : String := String.ofList (hexChars bs)

@[simp] theorem hexDecode_hexEncode (bs : List Byte) : hexDecode (hexEncode bs) = some bs := by
  simp [hexDecode, hexEncode, hexBytes_hexChars]

def Signer.signRelation (a : Signer) (op : Op) (kind : RelKind) (fromTag toTag : Tag) :
    RelationSubmission where
  version := protocolVersion
  op := op
  kind := kind
  fromTag := fromTag.display
  toTag := toTag.display
  author := a.publicHex
  signature := hexEncode (a.relationSignature op kind fromTag.display toTag.display)
  origin := none

end Bridge
end Naiad
