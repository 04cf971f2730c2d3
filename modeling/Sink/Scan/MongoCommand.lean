import Sink.Scan.Cursor

/-!
# MongoDB find commands

`mongodb/native.go`, `native_query_validation.go` and the first half of
`mongodb/scan.go`: which native commands a scan accepts, and the find command
it sends for one page. The accepted fields of the caller's command are read
once (`FindOptions`); a page adds the seek condition, the order, the collation
and the limit.

What the code uses of the driver, of URI and media type parsing and of `fmt`
is given by `Driver`; BSON values are already decoded. Execute's half of
`validateNativeCommand` is not modelled.
-/

namespace Sink.Mongo

open Sink.Scan

/-- A BSON value; doubles are their IEEE bits, the kinds the code never looks
into are their bytes. -/
inductive Bson where
  | double (bits : UInt64)
  | string (text : GoString)
  | document (fields : List (GoString × Bson))
  | array (items : List Bson)
  | boolean (value : Bool)
  | int32 (value : Int)
  | int64 (value : Int)
  | other (kind : UInt8) (data : List UInt8)
deriving Repr

abbrev D := List (GoString × Bson)

namespace Bson

/-- The doubles 1, -1 and, with either sign, 0. -/
def oneBits : UInt64 := 0x3FF0000000000000
def minusOneBits : UInt64 := 0xBFF0000000000000
def minusZeroBits : UInt64 := 0x8000000000000000

/-- `false, int32(0), int64(0), float64(0)`. -/
def isZero : Bson → Bool
  | .boolean value => !value
  | .int32 value => value == 0
  | .int64 value => value == 0
  | .double bits => bits == 0 || bits == minusZeroBits
  | _ => false

/-- `true, int32(1), int64(1), float64(1)`. -/
def isOne : Bson → Bool
  | .boolean value => value
  | .int32 value => value == 1
  | .int64 value => value == 1
  | .double bits => bits == oneBits
  | _ => false

/-- A sort direction; an `int32` is checked by the caller. -/
def direction? : Bson → Option Int
  | .int32 value => some value
  | .int64 value => if value = 1 ∨ value = -1 then some value else none
  | .double bits =>
    if bits = oneBits then some 1 else if bits = minusOneBits then some (-1) else none
  | _ => none

end Bson

/-- The libraries below the MongoDB store. -/
structure Driver where
  /-- `%q`. -/
  quote : GoString → GoString
  /-- `uri.Parse`: the Store and the segments of an address. -/
  parseURI : GoString → Fallible (GoString × List GoString)
  parseMediaType : GoString → Fallible GoString
  validateBSONDocument : List UInt8 → Fallible Unit
  unmarshal : List UInt8 → Fallible D
  marshal : D → Fallible (List UInt8)
  /-- `raw.Elements`. -/
  elements : List UInt8 → Option D
  /-- `raw.Lookup("_id")`. -/
  lookupID : List UInt8 → Option Bson
  /-- A document that was written reads back. -/
  elements_marshal : ∀ d bytes, marshal d = .ok bytes → bytes ≠ [] ∧ elements bytes = some d

variable (driver : Driver)

/-! ## Accepted commands -/

/-- `forbiddenNativePipeline`, with `fuel` levels of nesting left. -/
def forbiddenNativePipeline : Nat → Bson → Bool
  | 0, _ => true
  | fuel + 1, .array pipeline =>
    pipeline.any fun stage =>
      match stage with
      | .document [(operator, value)] =>
        if operator = lit "$out" ∨ operator = lit "$merge" ∨ operator = lit "$changeStream" then
          true
        else if operator = lit "$facet" then
          match value with
          | .document facets => facets.any fun facet => forbiddenNativePipeline fuel facet.2
          | _ => true
        else if operator = lit "$lookup" ∨ operator = lit "$unionWith" then
          match value with
          | .document options => options.any fun option =>
            decide (option.1 = lit "pipeline") && forbiddenNativePipeline fuel option.2
          | _ => false
        else false
      | _ => true
  | _, _ => true

def forbiddenNativeQuery (name : GoString) (command : D) : Bool :=
  command.any fun (key, value) =>
    if key = lit "tailable" ∨ key = lit "awaitData" ∨ key = lit "noCursorTimeout" ∨
        key = lit "singleBatch" then true
    else if key = lit "pipeline" then
      decide (name = lit "aggregate") && forbiddenNativePipeline 101 value
    else false

def collectionCommands : List GoString :=
  ["find", "aggregate", "listIndexes", "insert", "update", "delete", "findAndModify",
    "findandmodify", "count", "distinct", "createIndexes", "dropIndexes", "collStats"].map lit

def managedFields : List GoString :=
  ["$db", "lsid", "txnNumber", "startTransaction", "autocommit", "apiVersion", "apiStrict",
    "apiDeprecationErrors", "maxTimeMS", "$readPreference"].map lit

/-- The loop over the fields of a command. -/
def checkFields : List GoString → D → Fallible Unit
  | _, [] => .ok ()
  | seen, (key, _) :: rest =>
    if seen.contains key then
      .error (.text (lit "duplicate command field " ++ driver.quote key))
    else if managedFields.contains key then
      .error (.text (lit "command field " ++ driver.quote key ++
        lit " is managed by Sink's driver"))
    else checkFields (key :: seen) rest

/-- The database and the collection a native URI names. -/
def nativeTarget (store : GoString) (uri : GoString) : Fallible (GoString × GoString) := do
  let (addressed, parts) ← driver.parseURI uri
  let invalid := GoError.text
    (lit "MongoDB native URI requires the configured Store and database[/collection]")
  match parts with
  | [] => .error invalid
  | database :: rest =>
    if addressed ≠ store ∨ rest.length > 1 ∨ blank database ∨
        database.any (lit "/\\. \"$\x00").contains then .error invalid
    else
      let collection := rest.headD []
      if collection.contains 0 then refuse "invalid MongoDB collection name"
      else .ok (database, collection)

def nativeCommand (req : NativeRequest) (collection : GoString) : Fallible D :=
  if req.payload = [] ∧ collection ≠ [] then .ok [(lit "find", .string collection)]
  else
    match driver.validateBSONDocument req.payload with
    | .error err => .error (.wrapped (lit "invalid BSON command: " ++ err.message) err)
    | .ok () =>
      match driver.unmarshal req.payload with
      | .error err => .error (.wrapped (lit "decode BSON command: " ++ err.message) err)
      | .ok [] => refuse "BSON command is empty"
      | .ok command => .ok command

/-- The command of a collection URI must be about that collection. -/
def retarget (collection : GoString) (command : D) : Fallible D :=
  match command with
  | [] => .ok []
  | (name, value) :: rest =>
    if collection = [] then .ok command
    else if !collectionCommands.contains name then
      refuse "command requires a database URI, not a collection URI"
    else
      match value with
      | .string target =>
        if target ≠ [] ∧ target ≠ collection then
          refuse "native command must target the URI collection"
        else .ok ((name, .string collection) :: rest)
      | _ => refuse "native command must target the URI collection"

def checkScanned (command : D) : Fallible Unit :=
  match command with
  | [] => .ok ()
  | (name, _) :: _ =>
    if !(["find", "aggregate", "listIndexes", "listCollections"].map lit).contains name then
      .error (.text (lit "command " ++ driver.quote name ++ lit " cannot be scanned"))
    else if forbiddenNativeQuery name command then
      refuse "scan does not permit data-writing stages or tailable cursors"
    else if command.any fun field => decide (field.1 = lit "allowPartialResults") &&
        !(match field.2 with | .boolean false => true | _ => false) then
      refuse "native queries require complete results from every shard"
    else .ok ()

def validateNativeCommand (store : GoString) (req : NativeRequest) :
    Fallible (GoString × D) := do
  let (database, collection) ← nativeTarget driver store req.uri
  if req.method ≠ [] ∨ req.path ≠ [] ∨ req.query ≠ [] ∨ req.headers ≠ [] then
    throw (.text (lit "MongoDB native requests do not use method, path, query or headers"))
  if req.contentType ≠ [] ∨ req.payload ≠ [] then
    if (driver.parseMediaType req.contentType).toOption ≠ some (lit "application/bson") then
      throw (.text (lit "MongoDB native requests require application/bson content_type"))
  let command ← nativeCommand driver req collection
  let command ← retarget collection command
  checkFields driver [] command
  checkScanned driver command
  return (database, command)

/-! ## The find command of a page -/

/-- What a scan takes from the caller's command. -/
structure FindOptions where
  /-- The command's own field and those passed on. -/
  result : D
  filter : D
  direction : Int
  hideID : Bool

/-- The loop over a projection: the fields sent, and whether `_id` is hidden. -/
def projectionFields : D → Fallible (D × Bool)
  | [] => .ok ([], false)
  | (key, value) :: rest =>
    if (lit "_id.").isPrefixOf key then
      refuse "Scan cannot project part of _id"
    else if key = lit "_id" ∧ value.isZero then
      -- `_id` is needed for the position and taken out of the answer instead
      (projectionFields rest).map fun (fields, _) => (fields, true)
    else if key = lit "_id" ∧ !value.isOne then
      refuse "Scan cannot replace _id in a projection"
    else (projectionFields rest).map fun (fields, hide) => ((key, value) :: fields, hide)

/-- One field of the caller's command. -/
def scanField (opts : FindOptions) (key : GoString) (value : Bson) :
    Fallible FindOptions :=
  if key = lit "filter" then
    match value with
    | .document filter => .ok { opts with filter }
    | _ => refuse "Scan filter must be a document"
  else if key = lit "sort" then
    match value with
    | .document [(field, order)] =>
      if field ≠ lit "_id" then
        refuse "Scan supports only _id ascending or descending sort"
      else
        match order.direction? with
        | some direction =>
          if direction = 1 ∨ direction = -1 then .ok { opts with direction }
          else refuse "invalid Scan sort direction"
        | none => refuse "invalid Scan sort direction"
    | _ => refuse "Scan supports only _id ascending or descending sort"
  else if key = lit "batchSize" then .ok opts
  else if key = lit "collation" then
    match value with
    | .document [(field, .string locale)] =>
      if field = lit "locale" ∧ locale = lit "simple" then .ok opts
      else refuse "Scan requires simple collation for a unique _id order"
    | _ => refuse "Scan requires simple collation for a unique _id order"
  else if key = lit "projection" then
    match value with
    | .document projection =>
      (projectionFields projection).map fun (fields, hide) =>
        { opts with
          result := opts.result ++ [(key, .document fields)]
          hideID := opts.hideID || hide }
    | _ => refuse "Scan projection must be a document"
  else if (["hint", "readConcern", "let", "comment", "allowDiskUse"].map lit).contains key then
    .ok { opts with result := opts.result ++ [(key, value)] }
  else
    .error (.text (lit "find option " ++ driver.quote key ++
      lit " is unsupported by resumable Scan; use Query for skip/limit pagination"))

/-- The loop over the fields of the caller's command. -/
def scanFields (opts : FindOptions) : D → Fallible FindOptions
  | [] => .ok opts
  | (key, value) :: rest => do
    let opts ← scanField driver opts key value
    scanFields opts rest

def nativeProjection (p : Projection) : D :=
  p.fields.map fun field => (field, .int32 (if p.exclude then 0 else 1))

/-- The first half of `scanFind`. -/
def findOptions (command : D) (projection : Option Projection) : Fallible FindOptions :=
  match command with
  | [] => refuse "Scan requires a collection name"
  | (name, value) :: rest =>
    if name ≠ lit "find" then
      .error (.text (lit ("Scan requires find with an _id seek order; " ++
        "use Query for aggregates and Execute for non-cursor commands")))
    else
      let options :=
        match projection with
        | none => rest
        | some p => rest.filter (fun field => decide (field.1 ≠ lit "projection")) ++
            [(lit "projection", .document (nativeProjection p))]
      match value with
      | .string collection =>
        if collection = [] then refuse "Scan requires a collection name"
        else scanFields driver ⟨[(name, value)], [], 1, false⟩ options
      | _ => refuse "Scan requires a collection name"

/-- The `_id` a position holds. -/
def seekID (position : List UInt8) : Fallible (Option Bson) :=
  let invalid := GoError.text (lit "invalid BSON scan position")
  if position = [] then .ok none
  else
    match driver.validateBSONDocument position with
    | .error _ => .error invalid
    | .ok () =>
      match driver.elements position with
      | some [(key, last)] => if key = lit "_id" then .ok (some last) else .error invalid
      | _ => .error invalid

/-- The filter of a page. Expression comparison uses BSON's total order,
including mixed `_id` types. -/
def seekFilter (opts : FindOptions) : Option Bson → D
  | none => opts.filter
  | some last =>
    let operator := if opts.direction < 0 then lit "$lt" else lit "$gt"
    let literal := Bson.document [(lit "$literal", last)]
    let comparison := Bson.document [(operator, .array [.string (lit "$_id"), literal])]
    [(lit "$and", .array [.document opts.filter, .document [(lit "$expr", comparison)]])]

/-- The command that asks for `limit` documents behind `last`. -/
def findCommand (opts : FindOptions) (last : Option Bson) (limit : Int) : D :=
  opts.result ++
    [(lit "filter", .document (seekFilter opts last)),
     (lit "sort", .document [(lit "_id", .int32 opts.direction)]),
     (lit "collation", .document [(lit "locale", .string (lit "simple"))]),
     (lit "limit", .int64 limit),
     (lit "batchSize", .int32 limit)]

def scanFind (command : D) (req : ScanRequest) (position : List UInt8) :
    Fallible (D × Bool) := do
  let opts ← findOptions driver command req.projection
  .ok (findCommand opts (← seekID driver position) (req.batchSize + 1), opts.hideID)

end Sink.Mongo
