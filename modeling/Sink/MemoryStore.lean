import Sink.ReadBudget

/-!
# The in-memory store

`internal/storage/memory/memory.go`. The three calls are atomic: the
source holds one mutex around each of them. A write that matches its
precondition gets the next value of the store's own counter as revision.
-/

namespace Sink

/-- A read of one record, with the budget its document is charged to. -/
structure ReadOperation where
  address : Address
  budget : ReadBudget
deriving Repr, DecidableEq

namespace Memory

structure Record where
  document : Document
  revision : Revision
deriving Repr, DecidableEq

structure Store where
  records : Address → Option Record
  nextRevision : Nat

/-- `binary.BigEndian.PutUint64`. -/
def bigEndian64 (n : Nat) : Revision :=
  [n / 2 ^ 56, n / 2 ^ 48, n / 2 ^ 40, n / 2 ^ 32, n / 2 ^ 24, n / 2 ^ 16, n / 2 ^ 8, n].map
    UInt8.ofNat

namespace Store

def empty : Store := ⟨fun _ => none, 0⟩

/-- `Seed`: a record with whatever revision the caller gives. -/
def seed (s : Store) (address : Address) (record : Record) : Store :=
  { s with records := Function.update s.records address (some record) }

def readOne (s : Store) (op : ReadOperation) (st : ReserveState) :
    Storage.ReadResult × ReserveState :=
  match s.records op.address with
  | none => (⟨.notFound, .empty, [], none⟩, st)
  | some stored =>
    match op.budget.reserve stored.document.size st with
    | (some e, st) => (⟨.failed, .empty, [], some e⟩, st)
    | (none, st) => (⟨.found, stored.document, stored.revision, none⟩, st)

def read (s : Store) : List ReadOperation → ReserveState → List Storage.ReadResult × ReserveState
  | [], st => ([], st)
  | op :: ops, st =>
    let (result, st) := s.readOne op st
    let (results, st) := s.read ops st
    (result :: results, st)

def matchesPrecondition (condition : Storage.Precondition) (stored : Option Record) : Bool :=
  match condition, stored with
  | .none, _ => true
  | .recordExists, stored => stored.isSome
  | .recordNotExists, stored => stored.isNone
  | .revisionMatches revision, some record => record.revision == revision
  | .revisionMatches _, none => false
  | .revisionAbsent, some record => record.revision.isEmpty
  | .revisionAbsent, none => false

/-- `newRevisionLocked`: the counter is a `uint64`. -/
def newRevision (s : Store) : Nat := (s.nextRevision + 1) % 2 ^ 64

/-- Apply one conditional write. -/
def writeOne (s : Store) (op : Storage.WriteOperation) : Storage.WriteResult × Store :=
  if matchesPrecondition op.precondition (s.records op.address) then
    (⟨.applied, bigEndian64 s.newRevision, none⟩,
      { records := Function.update s.records op.address
          (some ⟨op.document, bigEndian64 s.newRevision⟩)
        nextRevision := s.newRevision })
  else (⟨.preconditionFailed, [], none⟩, s)

def write (s : Store) : List Storage.WriteOperation → List Storage.WriteResult × Store
  | [] => ([], s)
  | op :: ops =>
    let (result, s) := s.writeOne op
    let (results, s) := s.write ops
    (result :: results, s)

def delete (s : Store) : List Address → List Storage.DeleteResult × Store
  | [] => ([], s)
  | address :: addresses =>
    let s : Store := { s with records := Function.update s.records address none }
    let (results, s) := s.delete addresses
    (⟨.applied, none⟩ :: results, s)

end Store

end Memory

end Sink
