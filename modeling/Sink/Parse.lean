import Sink.Lib.Sha256
import Sink.Wire
import Sink.WriteGroup

/-!
# Parsing write operations

The part of `write.go` and `server.go` that turns the operations of a
request into parsed writes, and those into groups by record. `Codec` collects
what the server computes with the help of other packages: URIs, document
syntax, digests, the Lua compiler and encoded sizes. Nothing is assumed of
them but the length of a digest.
-/

namespace Sink

structure Codec where
  /-- `protocol.ParseAddress`: a URI with a resource path. -/
  parseAddress : GoString → Fallible Address
  /-- `Address.Store`. -/
  store : Address → GoString
  /-- `storage.BatchKey`. -/
  batchKey : Address → Fallible GoString
  validateDocument : Document → Option GoError
  /-- `sha256.Sum256`. -/
  sum256 : GoString → GoString
  sum256_length : ∀ source, (sum256 source).length = 32
  /-- `LuaEngine.Compile`, while the context is not done. -/
  compile : LuaProgram → Fallible Merger
  /-- `SizeVT` of the messages. -/
  writeSize : WriteRequest → Nat
  deleteSize : DeleteRequest → Nat
  mutationSize : Mutation → Nat

/-- The declared programs of a request, by digest. -/
abbrev LuaPrograms := GoString → Option LuaProgram

/-- A parsed write with what only publishing reads of it: the message it came
from and the resolved program of a merge. -/
structure AcceptedWrite where
  parsed : ParsedWrite
  original : WriteOperation
  program : Option LuaProgram

namespace Codec

variable (codec : Codec)

def recordStore (uri : GoString) : GoString :=
  match codec.parseAddress uri with
  | .error _ => []
  | .ok address => codec.store address

/-! ## Lua programs -/

def declarationError (index : Nat) (problem : String) : GoError :=
  .text (lit "program " ++ decimal index ++ lit problem)

def validateLuaDeclarations :
    Nat → (GoString → Option GoString) → List (Option LuaProgram) → Option GoError
  | _, _, [] => none
  | index, _, none :: _ => some (declarationError index " source is required")
  | index, seen, some program :: rest =>
    let digest := codec.sum256 program.source
    if program.source.isEmpty then some (declarationError index " source is required")
    else if !program.sha256.isEmpty && program.sha256 != digest then
      some (declarationError index " SHA-256 digest does not match source")
    else if (seen digest).any (· != program.source) then
      some (declarationError index " has a duplicate SHA-256 digest")
    else validateLuaDeclarations (index + 1)
      (Function.update seen digest (some program.source)) rest

/-- Declare one program under the digest of its source. -/
def declare (programs : LuaPrograms) (program : Option LuaProgram) : LuaPrograms :=
  let source := LuaProgram.getSource program
  Function.update programs (codec.sum256 source) (some ⟨source, codec.sum256 source⟩)

def parseLuaPrograms (programs : List (Option LuaProgram)) : Fallible LuaPrograms :=
  match codec.validateLuaDeclarations 0 (fun _ => none) programs with
  | some err => .error err
  | none => .ok (programs.foldl codec.declare fun _ => none)

def resolveLuaProgram (program : LuaProgram) (programs : LuaPrograms) :
    Fallible LuaProgram :=
  if !program.source.isEmpty then
    let digest := codec.sum256 program.source
    if !program.sha256.isEmpty && (program.sha256.length != 32 || program.sha256 != digest) then
      refuse "lua program SHA-256 digest does not match source"
    else .ok ⟨program.source, digest⟩
  else if program.sha256.length != 32 then
    refuse "lua program source or SHA-256 reference is required"
  else
    match programs program.sha256 with
    | none => .error (.text
        (lit "lua program SHA-256 reference was not declared in the write request"))
    | some declared => .ok declared

/-! ## Operations -/

def convertDocument (document : Option Document) : Fallible Document :=
  match document with
  | none => refuse "document is required"
  | some document =>
    if document.encoding = .unspecified then
      refuse "document encoding is required"
    else
      match codec.validateDocument document with
      | some err => .error err
      | none => .ok document

def parsePut (operation : Option PutOperation) : Fallible ParsedPut :=
  match operation with
  | none => refuse "put operation is required"
  | some put => do
    let document ← codec.convertDocument put.document
    match put.mode with
    | .create => .ok ⟨document, .recordNotExists, by simp⟩
    | .replace => .ok ⟨document, .recordExists, by simp⟩
    | .upsert => .ok ⟨document, .none, by simp⟩
    | .unspecified => refuse "put operation has an invalid write mode"

def parseMerge (operation : Option MergeOperation) (programs : LuaPrograms) :
    Fallible (ParsedMerge × LuaProgram) :=
  match operation with
  | none => refuse "merge operation is required"
  | some merge => do
    let incoming ← codec.convertDocument merge.incomingDocument
    match merge.luaProgram with
    | none => refuse "lua merge program is required"
    | some program => do
      let resolved ← codec.resolveLuaProgram program programs
      .ok (⟨incoming, (← codec.compile resolved)⟩, resolved)

def parseAction (action : WriteAction) (programs : LuaPrograms) :
    Fallible (Action × Option LuaProgram) :=
  match action with
  | .put operation => do
    let put ← codec.parsePut operation
    .ok (.put put, none)
  | .merge operation => do
    let (merge, program) ← codec.parseMerge operation programs
    .ok (.merge merge, some program)
  | .none => refuse "write action is required"

/-- The address of an operation the storage can route. -/
def parseRecord (uri : GoString) : Fallible Address := do
  let address ← codec.parseAddress uri
  let _ ← codec.batchKey address
  .ok address

def parseWrite (index : Nat) (operation : Option WriteOperation) (programs : LuaPrograms) :
    Fallible AcceptedWrite :=
  match operation with
  | none => refuse "write operation is required"
  | some original => do
    let address ← codec.parseRecord original.uri
    let (action, program) ← codec.parseAction original.action programs
    .ok ⟨⟨index, address, original.returnDocument, action⟩, original, program⟩

/-- Every URI names a record of one Store, every document is valid and every
program takes the incoming document. -/
def plain (store : GoString) : Codec where
  parseAddress uri := .ok ⟨uri⟩
  store _ := store
  batchKey _ := .ok []
  validateDocument _ := none
  sum256 := Sha256.digest
  sum256_length := Sha256.length_digest
  compile _ := .ok fun _ _ incoming => .ok incoming
  writeSize req := req.operations.length
  deleteSize req := req.operations.length
  mutationSize _ := 1

end Codec

/-! ## Groups -/

def WriteGroup.append (g : WriteGroup) (op : ParsedWrite) (h : op.address = g.address) :
    WriteGroup where
  address := g.address
  operations := g.operations ++ [op]
  nonempty := by simp
  sameAddress := by
    intro o ho
    rcases List.mem_append.mp ho with ho | ho
    · exact g.sameAddress o ho
    · rw [List.mem_singleton.mp ho]
      exact h

def addToGroup (op : ParsedWrite) : List WriteGroup → List WriteGroup
  | [] => [.single op]
  | g :: gs => if h : op.address = g.address then g.append op h :: gs else g :: addToGroup op gs

def buildWriteGroups (operations : List ParsedWrite) : List WriteGroup :=
  operations.foldl (fun groups op => addToGroup op groups) []

end Sink
