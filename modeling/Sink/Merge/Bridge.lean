import Sink.Merge.Values

/-!
# The Lua bridge

`json_bridge.go`, `bson_bridge.go` and `result_budget.go`: BSON is decoded into
Go values (`decodeBSONObject`), those become Lua tables (`goToLua`), and the
table a script returns is checked (`validateResultBudget`) and written as a
document again (`encodeJSONObject`).

The types that Lua does not have are remembered beside the tables: by slot for
integers (`integerFields`), by string identity for dates (`dateTimes`), by
table for scalars (`bsonScalars`). The flag `outputBSON` is part of the state
that the functions back to Go hand on. A path of nested tables has no table
twice, so the number of tables bounds the recursion of `luaToGo`; depth bounds
that of `visit`. The deadline of an execution is not modelled.
-/

namespace Sink.Merge

open Sink.Scan (validUTF8)

variable (lib : Library)

/-! ## Decoding BSON -/

/-- The last part of `decodeBSONValue`: the Extended JSON view of a scalar. The
driver writes one object, so the second failure is the only one there is. -/
def decodeBSONScalar (raw : Bson) : Fallible Any := do
  let unsupported : GoError :=
    .text (lit "BSON type " ++ raw.kind.name ++ lit " has no supported scalar view")
  let encoded ← lib.marshalExtJSON [(lit "value", raw)]
  match ← lib.decodeJSONValue encoded with
  | .map fields =>
    match KeyedList.lookup (lit "value") fields with
    | some (.map view) => .ok (.bsonScalar raw.kind view)
    | _ => .error unsupported
  | _ => .error unsupported

mutual

def decodeBSONValue : Bson → Nat → Fallible Any
  | raw, depth =>
    if 256 < depth then refuse "BSON input exceeds the merge depth limit"
    else
      match raw with
      | .document fields => do .ok (.map (← decodeBSONFields fields depth []))
      | .array items => do .ok (.slice (← decodeBSONItems items depth))
      | .int32 value => .ok (.bsonInteger value.toInt64 false)
      | .int64 value => .ok (.bsonInteger value true)
      | .double bits =>
        if finite bits then .ok (.float64 bits) else decodeBSONScalar lib (.double bits)
      | .string text => .ok (.string text)
      | .boolean value => .ok (.bool value)
      | .null => .ok .null
      | .dateTime millis =>
        if yearInRange millis then .ok (.bsonDateTime (lib.formatDate millis))
        else decodeBSONScalar lib (.dateTime millis)
      | .codeWithScope code scope => do
        let decoded ← decodeBSONFields scope (depth + 1) []
        .ok (.bsonScalar .codeWithScope
          [(lit "$code", .string code), (lit "$scope", .map decoded)])
      | .scalar kind data => decodeBSONScalar lib (.scalar kind data)

/-- The loop of `decodeBSONObject`, with the fields decoded so far. -/
def decodeBSONFields : List (GoString × Bson) → Nat → List (GoString × Any) →
    Fallible (List (GoString × Any))
  | [], _, result => .ok result
  | (key, raw) :: rest, depth, result =>
    if (KeyedList.lookup key result).isSome then
      .error (.text (lit "BSON document contains duplicate field " ++ lib.quote key))
    else do
      let value ← decodeBSONValue raw (depth + 1)
      decodeBSONFields rest depth (KeyedList.insert key value result)

/-- The loop over an array. -/
def decodeBSONItems : List Bson → Nat → Fallible (List Any)
  | [], _ => .ok []
  | raw :: rest, depth => do
    let value ← decodeBSONValue raw (depth + 1)
    .ok (value :: (← decodeBSONItems rest depth))

end

def decodeBSONObject (fields : List (GoString × Bson)) (depth : Nat) :
    Fallible (List (GoString × Any)) :=
  decodeBSONFields lib fields depth []

/-! ## JSON numbers -/

/-- `strings.IndexAny(text, "eE")`: the text around the first exponent mark. -/
def splitExponent (text : GoString) : GoString × Option GoString :=
  let mantissa := text.takeWhile fun b => b != 0x65 && b != 0x45
  match text.drop mantissa.length with
  | [] => (mantissa, none)
  | _ :: exponent => (mantissa, some exponent)

/-- The exponent behind its mark. -/
def parseExponent : Option GoString → Option Int
  | none => some 0
  | some digits => parseInt 32 digits

/-- The sign in front of the digits. -/
def splitSign (mantissa : GoString) : GoString × GoString :=
  match mantissa with
  | 0x2D :: rest => ([0x2D], rest)
  | _ => ([], mantissa)

def outsideError (text : GoString) : GoError :=
  .text (lit "JSON integer " ++ lib.quote text ++ lit " is outside the signed 64-bit range")

/-- Whether a JSON number is an integer, and which: the value, whether it is
integral, and the failure. -/
def exactJSONInteger (text : GoString) : Int × Bool × Option GoError :=
  let (mantissa, exponentText) := splitExponent text
  match parseExponent exponentText with
  | none =>
    (0, false,
      some (.text (lit "JSON number " ++ lib.quote text ++ lit " has an unsupported exponent")))
  | some exponent =>
    let (sign, mantissa) := splitSign mantissa
    let whole := mantissa.takeWhile fun b => b != 0x2E
    let fraction := (mantissa.drop whole.length).drop 1
    let exponent := exponent - fraction.length
    let digits := (whole ++ fraction).dropWhile fun b => b == 0x30
    if digits = [] then (0, true, none)
    else
      let cut := digits.length + exponent
      if exponent < 0 ∧ (cut ≤ 0 ∨ (digits.drop cut.toNat).any fun b => b != 0x30) then
        (0, false, none)
      else
        let (digits, exponent) :=
          if exponent < 0 then (digits.take cut.toNat, 0) else (digits, exponent)
        if 19 < digits.length + exponent then (0, true, some (outsideError lib text))
        else
          match parseInt 64 (sign ++ digits ++ List.replicate exponent.toNat 0x30) with
          | none => (0, true, some (outsideError lib text))
          | some integer => (integer, true, none)

def jsonNumberToLua (number : GoString) : Fallible Value :=
  match parseInt 64 number with
  | some integer => .ok (.int (Int64.ofInt integer))
  | none =>
    let invalid : GoError := .text (lit "invalid JSON number " ++ lib.quote number)
    match lib.parseFloat number with
    | none => .error invalid
    | some value =>
      if !finite value then .error invalid
      else
        match exactJSONInteger lib number with
        | (_, _, some err) => .error err
        | (integer, true, none) =>
          -- Decimal or exponent notation of an integer that no double is.
          let integer := Int64.ofInt integer
          let rounded := lib.floatOfInt integer
          if (rounded != value && !(isZero rounded && isZero value)) ||
              lib.intOfFloat value != some integer then .ok (.int integer)
          else .ok (.float value)
        | (_, false, none) =>
          if isZero value then
            .error (.text (lit "JSON number " ++ lib.quote number ++
              lit " underflows a Lua number"))
          else .ok (.float value)

/-! ## Go to Lua -/

namespace Bridge

variable (b : Bridge)

/-- A new table with one of the metatables; its identity is the number of
tables before. -/
def newTable (metatable : Meta) : Bridge :=
  { b with tables := b.tables ++ [{ metatable := some metatable, entries := [] }] }

/-- A string with a backing array of its own. -/
def newString : Bridge := { b with strings := b.strings + 1 }

def setField (table : Nat) (key : Key) (value : Value) : Bridge :=
  { b with tables := b.tables.modify table fun t =>
      { t with entries := setEntry key value t.entries } }

def rememberInteger (table : Nat) (key : Key) : Any → Bridge
  | .bsonInteger value wide =>
    { b with integerFields := fun t k =>
        if t = table ∧ k = key then some { value, wide } else b.integerFields t k }
  | _ => b

/-- `b.bsonScalars[table] = kind`. -/
def markScalar (table : Nat) (kind : Kind) : Bridge :=
  { b with bsonScalars := fun t => if t = table then some kind else b.bsonScalars t }

def addIntegerKind (value : Int64) (wide : Bool) : Bridge :=
  { b with integerKinds := fun v =>
      if v = value then b.integerKinds v ||| (if wide then 2 else 1) else b.integerKinds v }

def table (b : Bridge) (table : Nat) : Table :=
  b.tables.getD table { metatable := none, entries := [] }

end Bridge

mutual

def goToLua : Any → Bridge → Fallible (Value × Bridge)
  | .null, b => .ok (.table nullTable, b)
  | .bool value, b => .ok (.bool value, b)
  -- The string was made when its document was decoded, and is nobody else's.
  | .string text, b => .ok (.string text b.strings, b.newString)
  | .bsonDateTime text, b =>
    .ok (.string text b.strings,
      { b.newString with dateTimes := (text, b.strings) :: b.dateTimes })
  | .bsonScalar kind view, b => do
    let filled ← goToLuaFields b.tables.length view (b.newTable .object)
    .ok (.table b.tables.length, filled.markScalar b.tables.length kind)
  | .bsonInteger value wide, b => .ok (.int value, b.addIntegerKind value wide)
  | .float64 bits, b => .ok (.float bits, b)
  | .number text, b => do .ok (← jsonNumberToLua lib text, b)
  | .slice items, b => do
    .ok (.table b.tables.length, ← goToLuaItems b.tables.length 1 items (b.newTable .array))
  | .map fields, b => do
    .ok (.table b.tables.length, ← goToLuaFields b.tables.length fields (b.newTable .object))
  | value, _ => .error (.text (lit "unsupported Go value " ++ value.typeName))

/-- The loop that fills an array, from a given index on. -/
def goToLuaItems (table : Nat) : Nat → List Any → Bridge → Fallible Bridge
  | _, [], b => .ok b
  | index, item :: rest, b => do
    let (converted, b) ← goToLua item b
    goToLuaItems table (index + 1) rest
      ((b.setField table (.int index) converted).rememberInteger table (.int index) item)

/-- The loop that fills an object. -/
def goToLuaFields (table : Nat) : List (GoString × Any) → Bridge → Fallible Bridge
  | [], b => .ok b
  | (key, item) :: rest, b => do
    let (converted, b) ← goToLua item b
    goToLuaFields table rest
      ((b.setField table (.string key) converted).rememberInteger table (.string key) item)

end

/-! ## The budget of a result -/

structure ResultBudget where
  remaining : Int
  nodes : Int
deriving Repr, DecidableEq

def Key.value : Key → Value
  | .bool value => .bool value
  | .string text => .string text 0
  | .int value => .int (Int64.ofInt value)
  | .float bits => .float bits
  | .table identity => .table identity
  | .virtualTable => .virtualTable
  | .other typeName => .other typeName

/-- The bytes charged for a value. -/
def visitCost : Value → Int
  | .string text _ => 1 + (text.length + 2)
  | _ => 1

def budgetExhausted : GoError :=
  .wrapped (Sentinel.executionExhausted.text ++
    lit ": expanded result exceeds the byte, node, or depth budget")
    (.sentinel .executionExhausted)

def invalidResult (reason : String) : GoError :=
  .wrapped (Sentinel.invalidResult.text ++ lit ": " ++ lit reason) (.sentinel .invalidResult)

/-- The loop of `visit` over the entries of a table. -/
def visitEntries (visit : Value → ResultBudget → Fallible ResultBudget) :
    List (Key × Value) → ResultBudget → Fallible ResultBudget
  | [], budget => .ok budget
  | (key, item) :: rest, budget => do
    let budget ← visit key.value budget
    let budget ← visit item budget
    visitEntries visit rest budget

/-- `visit` with `levels` left of the 257 levels there are. -/
def visit (b : Bridge) : Nat → List Nat → Value → ResultBudget → Fallible ResultBudget
  | 0, _, _, _ => .error budgetExhausted
  | levels + 1, active, value, budget =>
    let nodes := budget.nodes - 1
    let cost := visitCost value
    if nodes < 0 ∨ budget.remaining < cost then .error budgetExhausted
    else
      let budget : ResultBudget := { remaining := budget.remaining - cost, nodes }
      match value with
      | .table table =>
        if table ∈ active then .error (invalidResult "result contains a table cycle")
        else
          visitEntries (visit b levels (table :: active)) (lib.order (b.table table).entries)
            budget
      | .virtualTable => .error (invalidResult "virtual tables are not supported")
      | _ => .ok budget

def validateResultBudget (b : Bridge) (value : Value) (maximum : Int) : Fallible Unit := do
  let budget : ResultBudget :=
    { remaining := maximum, nodes := max 64 (min (maximum.tdiv 8) 1000000) }
  let _ ← visit lib b 257 [] value budget

/-! ## Back to Go -/

mutual

def orderedBSONValue : Any → Any
  | .map fields => .d (orderedFields fields)
  | .slice items => .a (orderedItems items)
  | value => value

def orderedFields : List (GoString × Any) → List (GoString × Any)
  | [] => []
  | (key, value) :: rest => (key, orderedBSONValue value) :: orderedFields rest

def orderedItems : List Any → List Any
  | [] => []
  | value :: rest => orderedBSONValue value :: orderedItems rest

end

def encodeBSONScalar (kind : Kind) (decoded : Any) : Fallible Any :=
  if kind = .codeWithScope then
    match decoded with
    | .map view =>
      if view.length ≠ 2 then
        refuse "BSON code with scope requires $code and $scope"
      else
        match KeyedList.lookup (lit "$code") view, KeyedList.lookup (lit "$scope") view with
        | some (.string code), some (.map scope) =>
          .ok (.codeWithScope code (orderedBSONValue (.map scope)))
        | _, _ => refuse "BSON code with scope requires a string and document"
    | _ => refuse "BSON code with scope requires $code and $scope"
  else do
    let encoded ← lib.marshalJSON (.map [(lit "value", decoded)])
    match lib.unmarshalExtJSON encoded with
    | .error err =>
      .error (.wrapped (lit "encode BSON " ++ kind.name ++ lit ": " ++ err.message) err)
    | .ok document =>
      -- `Lookup` of a missing field is the zero value, whose type is no BSON type.
      match KeyedList.lookup (lit "value") document with
      | some value =>
        if value.kind ≠ kind then
          .error (.text (lit "BSON scalar view changed type from " ++ kind.name ++
            lit " to " ++ value.kind.name))
        else .ok (.rawValue value)
      | none =>
        .error (.text (lit "BSON scalar view changed type from " ++ kind.name ++
          lit " to invalid"))

def bsonIntegerValue (value : Int64) (wide : Bool) : Any :=
  if wide ∨ value.toInt < -2147483648 ∨ 2147483647 < value.toInt then .int64 value
  else .int32 value.toInt32

/-- A conversion back to Go of values nested in the active tables: what is
found under `outputBSON`, and `outputBSON` after it. -/
abbrev Convert := Value → Bool → Fallible (Any × Bool)

section Tables

variable (convert : Convert) (b : Bridge) (table : Nat)

def luaFieldToGo (key : Key) (value : Value) (outputBSON : Bool) : Fallible (Any × Bool) :=
  match outputBSON, value, b.integerFields table key with
  | true, .int number, some integer => .ok (bsonIntegerValue number integer.wide, true)
  | _, _, _ => convert value outputBSON

/-- The entries are numbered from one, and how many there are. -/
def inspectLuaTable (entries : List (Key × Value)) : Nat × Bool :=
  (entries.length, entries.all fun entry =>
    match entry.1 with
    | .int value => decide (1 ≤ value)
    | _ => false)

/-- The loop of `luaArrayToGo`: so many items, from a given index on. -/
def luaItemsToGo (entries : List (Key × Value)) : Nat → Nat → Bool →
    Fallible (List Any × Bool)
  | 0, _, outputBSON => .ok ([], outputBSON)
  | count + 1, index, outputBSON => do
    let (item, outputBSON) ←
      luaFieldToGo convert b table (.int index) (getEntry (.int index) entries) outputBSON
    let (items, outputBSON) ← luaItemsToGo entries count (index + 1) outputBSON
    .ok (item :: items, outputBSON)

def luaArrayToGo (outputBSON : Bool) : Fallible (Any × Bool) :=
  let entries := (b.table table).entries
  let (count, array) := inspectLuaTable (lib.order entries)
  if !array || lib.len entries != count then
    refuse "lua JSON array must have contiguous integer keys starting at one"
  else do
    let (items, outputBSON) ← luaItemsToGo convert b table entries count 1 outputBSON
    .ok (.slice items, outputBSON)

/-- The loop of `luaObjectToGo`, with the fields converted so far. -/
def luaFieldsToGo : List (Key × Value) → List (GoString × Any) → Bool →
    Fallible (List (GoString × Any) × Bool)
  | [], result, outputBSON => .ok (result, outputBSON)
  | (key, value) :: rest, result, outputBSON =>
    match key with
    | .string text =>
      if !validUTF8 text then
        refuse "lua JSON object contains an invalid UTF-8 key"
      else do
        let (converted, outputBSON) ← luaFieldToGo convert b table key value outputBSON
        luaFieldsToGo rest (KeyedList.insert text converted result) outputBSON
    | _ =>
      .error (.text (lit "lua JSON object has a non-string key of type " ++ key.typeName))

def luaObjectToGo (outputBSON : Bool) : Fallible (Any × Bool) := do
  let (fields, outputBSON) ←
    luaFieldsToGo convert b table (lib.order (b.table table).entries) [] outputBSON
  .ok (.map fields, outputBSON)

def luaTableToGo (outputBSON : Bool) : Fallible (Any × Bool) :=
  match (b.table table).metatable with
  | some .object => luaObjectToGo lib convert b table outputBSON
  | some .array => luaArrayToGo lib convert b table outputBSON
  | some .null => refuse "lua result contains an invalid JSON null value"
  | none =>
    let (count, array) := inspectLuaTable (lib.order (b.table table).entries)
    if array && count != 0 then luaArrayToGo lib convert b table outputBSON
    else luaObjectToGo lib convert b table outputBSON

end Tables

/-- `luaToGo`, at most `fuel - 1` tables deep. -/
def luaToGo (b : Bridge) : Nat → List Nat → Value → Bool → Fallible (Any × Bool)
  | 0, _, _, _ => refuse "lua result is nested without end"
  | fuel + 1, active, value, outputBSON =>
    match value with
    | .nil => .ok (.null, outputBSON)
    | .bool value => .ok (.bool value, outputBSON)
    | .string text data =>
      if !validUTF8 text then
        refuse "lua result contains an invalid UTF-8 string"
      else if (text, data) ∈ b.dateTimes ∧ outputBSON then do
        .ok (.dateTime (← lib.parseDate text), outputBSON)
      else .ok (.string text, outputBSON)
    | .int number =>
      if outputBSON then
        let kind := b.integerKinds number
        if kind = 3 then
          .error (.text (lit "copied BSON integer has ambiguous int32/int64 origins; " ++
            lit "retain its original document field"))
        else .ok (bsonIntegerValue number (kind == 2), outputBSON)
      else .ok (.number (decimal number.toInt), outputBSON)
    | .float bits =>
      if !finite bits then refuse "lua result contains a non-finite number"
      else .ok (.float64 bits, outputBSON)
    | .table table =>
      if table = nullTable then .ok (.null, outputBSON)
      else if table ∈ active then refuse "lua result contains a table cycle"
      else
        let nested := luaToGo b fuel (table :: active)
        match b.bsonScalars table, outputBSON with
        | some kind, true =>
          if kind ≠ .codeWithScope then do
            -- The numbers of a view are JSON, not integers of the document.
            let (decoded, _) ← luaTableToGo lib nested b table false
            .ok (← encodeBSONScalar lib kind decoded, true)
          else do
            let (decoded, outputBSON) ← luaTableToGo lib nested b table true
            if outputBSON then .ok (← encodeBSONScalar lib kind decoded, outputBSON)
            else .ok (decoded, outputBSON)
        | _, _ => luaTableToGo lib nested b table outputBSON
    | .virtualTable => refuse "lua result contains a virtual table"
    | .other typeName =>
      .error (.text (lit "lua result contains unsupported type " ++ typeName))

/-! ## Encoding -/

/-- The payload of a result, before its bytes are laid out. -/
inductive Encoded where
  | json (text : GoString)
  | bson (document : Bson)
deriving Repr

def encodeJSONObject (b : Bridge) (value : Value) (encoding : DocumentEncoding) :
    Fallible Encoded := do
  let failed (err : GoError) : GoError :=
    .wrapped (lit "encode merge result: " ++ err.message) err
  let (decoded, _) ← luaToGo lib b (b.tables.length + 1) [] value (encoding == .bson)
  match decoded with
  | .map _ =>
    match encoding with
    | .json =>
      match lib.marshalJSON decoded with
      | .error err => .error (failed err)
      | .ok encoded => .ok (.json encoded)
    | .bson =>
      match lib.marshalBSON (orderedBSONValue decoded) with
      | .error err => .error (failed err)
      | .ok encoded => .ok (.bson encoded)
    | .unspecified => refuse "merge result encoding is required"
  | _ => refuse "merge result must be a JSON object"

end Sink.Merge
