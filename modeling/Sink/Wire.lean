import Sink.Convert

/-!
# Request messages

The read, write and delete requests of the public protocol. A message field
that may be absent is an `Option`, and so is an operation, because a caller in
the same process can pass nil; a getter of an absent message answers the
zero value. An enum value the code does not know takes the default branch of
every switch, as `unspecified` does.
-/

namespace Sink

/-- `sink.ReadOperation`; the storage layer has an operation of that name, too. -/
structure Wire.ReadOperation where
  uri : GoString
deriving Repr, DecidableEq

structure ReadRequest where
  operations : List (Option Wire.ReadOperation)
deriving Repr, DecidableEq

structure LuaProgram where
  source : GoString
  sha256 : GoString
deriving Repr, DecidableEq

inductive WriteMode where
  | unspecified
  | create
  | replace
  | upsert
deriving Repr, DecidableEq

structure PutOperation where
  document : Option Document
  mode : WriteMode
deriving Repr, DecidableEq

structure MergeOperation where
  incomingDocument : Option Document
  luaProgram : Option LuaProgram
deriving Repr, DecidableEq

/-- The oneof of a write operation. -/
inductive WriteAction where
  | none
  | put (operation : Option PutOperation)
  | merge (operation : Option MergeOperation)
deriving Repr, DecidableEq

structure WriteOperation where
  uri : GoString
  action : WriteAction
  returnDocument : Bool
deriving Repr, DecidableEq

structure WriteRequest where
  operations : List (Option WriteOperation)
  completionMode : CompletionMode
  luaPrograms : List (Option LuaProgram)
deriving Repr, DecidableEq

structure DeleteOperation where
  uri : GoString
deriving Repr, DecidableEq

structure DeleteRequest where
  operations : List (Option DeleteOperation)
  completionMode : CompletionMode
deriving Repr, DecidableEq

/-- `queue.Mutation`: one asynchronous write or delete. -/
structure Mutation where
  write : Option WriteOperation
  delete : Option DeleteOperation
deriving Repr, DecidableEq

/-! ## Getters -/

def Wire.ReadOperation.getUri : Option Wire.ReadOperation → GoString
  | none => []
  | some op => op.uri

namespace WriteOperation

def getUri : Option WriteOperation → GoString
  | .none => []
  | some op => op.uri

def getPut : Option WriteOperation → Option PutOperation
  | some ⟨_, .put operation, _⟩ => operation
  | _ => .none

def getMerge : Option WriteOperation → Option MergeOperation
  | some ⟨_, .merge operation, _⟩ => operation
  | _ => .none

def getReturnDocument : Option WriteOperation → Bool
  | .none => false
  | some op => op.returnDocument

end WriteOperation

def DeleteOperation.getUri : Option DeleteOperation → GoString
  | none => []
  | some op => op.uri

def LuaProgram.getSource : Option LuaProgram → GoString
  | none => []
  | some program => program.source

def MergeOperation.getSource (operation : MergeOperation) : GoString :=
  LuaProgram.getSource operation.luaProgram

/-- `GetDocument().GetPayload()` of a possibly absent put. -/
def PutOperation.getPayload : Option PutOperation → List UInt8
  | some ⟨some document, _⟩ => document.payload
  | _ => []

def validCompletionMode (mode : CompletionMode) : Bool :=
  mode == .waitUntilApplied || mode == .returnAfterAccepted || mode == .waitUntilVisible

def WriteRequest.hasWriteReturns (req : WriteRequest) : Bool :=
  req.operations.any WriteOperation.getReturnDocument

end Sink
