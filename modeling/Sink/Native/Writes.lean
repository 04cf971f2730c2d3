import Mathlib.Data.FinEnum
import Sink.Scan.MongoCommand

/-!
# Native MongoDB writes

`mongodb/native_writes.go`: what `Execute` makes of a decoded write command
before it sends it. A record carries its revision in a metadata field of its
document, so a command that writes documents must give each of them a new
revision and may not touch that field in any other way. The whole command is
prepared before anything is sent: a member that is refused refuses them all.

An update has one of four forms. A replacement gets the metadata field, an
operator update gets it through `$set` (its own, or a new one), a pipeline
through a last stage; an inserted document is treated as a replacement.

`newRevision` draws random bytes and can fail; `fresh i` is what it answers
for member `i` of the command. A command that has no members is member 0.
-/

namespace Sink.Mongo

open Sink.Scan

/-! ## The metadata field -/

/-- The metadata field of a store: a name, not a path, and not `_id`. -/
structure MetadataField where
  name : GoString
  nonempty : name ≠ []
  notID : name ≠ lit "_id"
  plain : ∀ c ∈ name, c ∉ lit ".$\x00"

def defaultMetadataField : GoString := lit "__sink"

def MetadataField.new (option : GoString) : Fallible MetadataField :=
  let name := if option = [] then defaultMetadataField else option
  if h : name = [] ∨ name = lit "_id" ∨ ¬ ∀ c ∈ name, c ∉ lit ".$\x00" then
    refuse "create MongoDB storage: metadata field is invalid"
  else
    .ok {
      name
      nonempty := fun hname => h (.inl hname)
      notID := fun hname => h (.inr (.inl hname))
      plain := by
        rw [not_or, not_or, not_not] at h
        exact h.2.2 }

def Bson.binary (data : List UInt8) : Bson := .other 0x05 (0x00 :: data)

def invalidNativeWrite (message : GoString) : GoError :=
  invalidArgumentError (.text (lit "revision-protected MongoDB write: " ++ message))

/-! ## Checks -/

/-- A loop that returns the first error. -/
def checkEach {α : Type} (check : α → Fallible Unit) : List α → Fallible Unit
  | [] => .ok ()
  | a :: rest => do
    check a
    checkEach check rest

/-- `nativeFieldIndex`, with the index as the place it stands for: the fields
before the first one called `name`, its value and the fields behind it. -/
def nativeFieldIndex (name : GoString) : D → Option (D × Bson × D)
  | [] => none
  | (key, value) :: rest =>
    if key = name then some ([], value, rest)
    else (nativeFieldIndex name rest).map fun (before, found, after) =>
      ((key, value) :: before, found, after)

variable (driver : Driver) (m : MetadataField)

/-- The fields of one document; `check` looks into their values. -/
def validateDocumentFields (check : Bson → Fallible Unit) :
    List GoString → D → Fallible Unit
  | _, [] => .ok ()
  | seen, (key, value) :: rest =>
    if seen.contains key then
      .error (invalidNativeWrite (lit "duplicate field " ++ driver.quote key))
    else do
      check value
      validateDocumentFields check (key :: seen) rest

/-- `validateNativeWriteFields`, with `fuel` levels of nesting left. -/
def validateNativeWriteFields : Nat → Bson → Fallible Unit
  | 0, _ => .error (invalidNativeWrite (lit "document nesting exceeds 100"))
  | fuel + 1, .document fields =>
    validateDocumentFields driver (validateNativeWriteFields fuel) [] fields
  | fuel + 1, .array items => checkEach (validateNativeWriteFields fuel) items
  | _ + 1, _ => .ok ()

/-- `path` is the metadata field or stands below it. -/
def Reserved (path : GoString) : Prop := path = m.name ∨ (m.name ++ lit ".") <+: path

instance (path : GoString) : Decidable (Reserved m path) := inferInstanceAs (Decidable (_ ∨ _))

def nativeWritePath (path : GoString) : Fallible Unit :=
  if Reserved m path then
    .error (invalidNativeWrite (lit "field " ++ driver.quote path ++ lit " is reserved by Sink"))
  else .ok ()

/-! ## The forms of an update -/

/-- A document that holds only a revision. -/
def revisionMetadata (revision : Revision) : D := [(lit "revision", .binary revision)]

def nativeRevisionMetadata (fresh : Fallible Revision) : Fallible D :=
  match fresh with
  | .error err => .error (backendError (some err))
  | .ok revision => .ok (revisionMetadata revision)

def isOperator (key : GoString) : Bool := (lit "$").isPrefixOf key

/-- The loop of `nativeReplacement`. -/
def checkReplacementField (field : GoString × Bson) : Fallible Unit :=
  if isOperator field.1 then
    .error (invalidNativeWrite (lit "replacement field " ++ driver.quote field.1 ++
      lit " cannot be an operator"))
  else nativeWritePath driver m field.1

def nativeReplacement (fresh : Fallible Revision) (document : D) : Fallible D := do
  checkEach (checkReplacementField driver m) document
  let metadata ← nativeRevisionMetadata fresh
  return document ++ [(m.name, .document metadata)]

def updateOperators : List GoString :=
  ["$currentDate", "$inc", "$min", "$max", "$mul", "$rename", "$set", "$setOnInsert", "$unset",
    "$addToSet", "$pop", "$pull", "$push", "$pullAll", "$bit"].map lit

def checkOperatorField (operator : GoString) (field : GoString × Bson) : Fallible Unit := do
  nativeWritePath driver m field.1
  if operator = lit "$rename" then
    match field.2 with
    | .string destination => nativeWritePath driver m destination
    | _ => throw (invalidNativeWrite (lit "$rename destination must be a string"))

def checkOperator (operator : GoString × Bson) : Fallible Unit :=
  if !updateOperators.contains operator.1 then
    .error (invalidNativeWrite (lit "unsupported update operator " ++ driver.quote operator.1))
  else
    match operator.2 with
    | .document fields => checkEach (checkOperatorField driver m operator.1) fields
    | _ => .error (invalidNativeWrite (operator.1 ++ lit " must contain a document"))

def nativeOperatorUpdate (fresh : Fallible Revision) (update : D) : Fallible D := do
  checkEach (checkOperator driver m) update
  let metadata ← nativeRevisionMetadata fresh
  let field := (m.name, Bson.document metadata)
  match nativeFieldIndex (lit "$set") update with
  | some (before, .document fields, after) =>
    return before ++ (lit "$set", .document (fields ++ [field])) :: after
  -- every operator holds a document, so only a missing `$set` is left
  | _ => return update ++ [(lit "$set", .document [field])]

/-- The loop over the paths of `$unset`. -/
def checkUnsetPath (path : Bson) : Fallible Unit :=
  match path with
  | .string path => nativeWritePath driver m path
  | _ => .error (invalidNativeWrite (lit "$unset paths must be strings"))

def checkStage (stage : Bson) : Fallible Unit :=
  match stage with
  | .document [(operator, value)] =>
    if (["$set", "$addFields", "$project"].map lit).contains operator then
      match value with
      | .document fields => checkEach (fun field => nativeWritePath driver m field.1) fields
      | _ => .error (invalidNativeWrite (operator ++ lit " must contain a document"))
    else if operator = lit "$unset" then
      match value with
      | .array paths => checkEach (checkUnsetPath driver m) paths
      | path => checkEach (checkUnsetPath driver m) [path]
    -- these may replace the whole document; the last stage sets the metadata
    else if (["$replaceRoot", "$replaceWith"].map lit).contains operator then .ok ()
    else
      .error (invalidNativeWrite (lit "unsupported update pipeline stage " ++
        driver.quote operator))
  | _ =>
    .error (invalidNativeWrite
      (lit "each update pipeline stage must contain exactly one operator"))

def metadataStage (metadata : D) : D :=
  [(lit "$set", .document [(m.name, .document [(lit "$literal", .document metadata)])])]

def nativePipelineUpdate (fresh : Fallible Revision) (pipeline : List Bson) :
    Fallible (List Bson) := do
  checkEach (checkStage driver m) pipeline
  let metadata ← nativeRevisionMetadata fresh
  return pipeline ++ [.document (metadataStage m metadata)]

/-- An update document that replaces the whole record. -/
def isReplacement : D → Bool
  | [] => true
  | (key, _) :: _ => !isOperator key

variable (name : GoString) (fresh : Fallible Revision)

/-- The switch of `nativeUpdateMember`, over the value of field `name`. -/
def nativeUpdate :
    Bson → Fallible Bson
  | .document value =>
    if isReplacement value then (nativeReplacement driver m fresh value).map .document
    else (nativeOperatorUpdate driver m fresh value).map .document
  | .array value => (nativePipelineUpdate driver m fresh value).map .array
  | _ => .error (invalidNativeWrite (name ++ lit " must be an update document or pipeline"))

def nativeUpdateMember (member : D) :
    Fallible D :=
  match nativeFieldIndex name member with
  | none => .error (invalidNativeWrite (lit "missing " ++ name))
  | some (before, value, after) =>
    (nativeUpdate driver m name fresh value).map fun update => before ++ (name, update) :: after

/-! ## The command -/

/-- The loop over the members of an insert or update, from member `i` on. -/
def prepareMembers (field : GoString) (prepare : Fallible Revision → D → Fallible D)
    (fresh : Nat → Fallible Revision) : Nat → List Bson → Fallible (List Bson)
  | _, [] => .ok []
  | i, .document document :: rest => do
    let prepared ← prepare (fresh i) document
    let rest ← prepareMembers field prepare fresh (i + 1) rest
    return .document prepared :: rest
  | i, _ :: _ =>
    .error (invalidNativeWrite (field ++ lit "[" ++ decimal i ++ lit "] must be a document"))

/-- The case of `insert` and `update`. -/
def prepareBatch (fresh : Nat → Fallible Revision) (field : GoString)
    (prepare : Fallible Revision → D → Fallible D) (command : D) :
    Fallible D :=
  match nativeFieldIndex field command with
  | none => .error (invalidNativeWrite (lit "missing " ++ field))
  | some (before, .array members, after) =>
    (prepareMembers field prepare fresh 0 members).map fun members =>
      before ++ (field, .array members) :: after
  | some _ => .error (invalidNativeWrite (field ++ lit " must be an array"))

/-- The case of `findAndModify`. -/
def prepareModify (fresh : Nat → Fallible Revision) (command : D) : Fallible D :=
  match nativeFieldIndex (lit "remove") command with
  | some (_, .boolean true, _) =>
    if (nativeFieldIndex (lit "update") command).isSome then
      .error (invalidNativeWrite (lit "findAndModify cannot combine remove and update"))
    else .ok command
  | _ => nativeUpdateMember driver m (lit "update") (fresh 0) command

/-- The value of the first field names a collection that may be written. -/
def writableCollection : Bson → Bool
  | .string collection => !blank collection && !(lit "system.").isPrefixOf collection
  | _ => false

def writeCommands : List GoString :=
  ["insert", "update", "delete", "findAndModify", "findandmodify"].map lit

/-- `prepareNativeWrite`. The decoder refuses an empty command. -/
def prepareNativeWrite (fresh : Nat → Fallible Revision) (command : D) :
    Fallible D :=
  match command with
  | [] => .ok []
  | (name, target) :: _ =>
    if !writeCommands.contains name then .ok command
    else if !writableCollection target then
      .error (invalidNativeWrite (lit "writes require a non-system collection name"))
    else do
      validateNativeWriteFields driver 101 (.document command)
      if name = lit "insert" then
        prepareBatch fresh (lit "documents") (nativeReplacement driver m) command
      else if name = lit "update" then
        prepareBatch fresh (lit "updates") (nativeUpdateMember driver m (lit "u")) command
      else if name = lit "findAndModify" ∨ name = lit "findandmodify" then
        prepareModify driver m fresh command
      -- a deleted record needs no revision: a stale one no longer matches
      else .ok command

end Sink.Mongo
