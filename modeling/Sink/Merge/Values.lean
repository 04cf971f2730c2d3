import Sink.Lib.KeyedList
import Sink.Scan.Cursor

/-!
# The values of a merge

A merge reads BSON (`Bson`), holds it as Go values (`Any`), hands those to the
Lua virtual machine as tables and strings (`Value`, `Bridge`) and turns what
the script returns back into Go values and BSON.

A Go map is the list of its entries in key order (`KeyedList`): a loop over
sorted keys is a loop over the list. Lua tables and the backing arrays of
strings have identities, since the side tables of `luaJSONBridge` are keyed by
them. What the code uses of `time`, `encoding/json`, `strconv`, the BSON
driver and the virtual machine is given by `Library`.
-/

namespace Sink.Merge

open Sink.Scan (validUTF8)

/-! ## BSON -/

/-- The BSON types whose values Lua sees only through Extended JSON. -/
inductive ScalarKind where
  | binary
  | undefined
  | objectID
  | regex
  | dbPointer
  | javaScript
  | symbol
  | timestamp
  | decimal128
  | minKey
  | maxKey
deriving Repr, DecidableEq

/-- `bson.Type`. -/
inductive Kind where
  | double
  | string
  | embeddedDocument
  | array
  | boolean
  | dateTime
  | null
  | codeWithScope
  | int32
  | int64
  | scalar (kind : ScalarKind)
deriving Repr, DecidableEq

/-- `bson.Type.String`. -/
def Kind.name : Kind → GoString
  | .double => lit "double"
  | .string => lit "string"
  | .embeddedDocument => lit "embedded document"
  | .array => lit "array"
  | .boolean => lit "boolean"
  | .dateTime => lit "UTC datetime"
  | .null => lit "null"
  | .codeWithScope => lit "code with scope"
  | .int32 => lit "32-bit integer"
  | .int64 => lit "64-bit integer"
  | .scalar .binary => lit "binary"
  | .scalar .undefined => lit "undefined"
  | .scalar .objectID => lit "objectID"
  | .scalar .regex => lit "regex"
  | .scalar .dbPointer => lit "dbPointer"
  | .scalar .javaScript => lit "javascript"
  | .scalar .symbol => lit "symbol"
  | .scalar .timestamp => lit "timestamp"
  | .scalar .decimal128 => lit "128-bit decimal"
  | .scalar .minKey => lit "min key"
  | .scalar .maxKey => lit "max key"

/-- A BSON value. Doubles are their IEEE bits, the values the code never looks
into their bytes. -/
inductive Bson where
  | double (bits : UInt64)
  | string (text : GoString)
  | document (fields : List (GoString × Bson))
  | array (items : List Bson)
  | boolean (value : Bool)
  | dateTime (millis : Int64)
  | null
  | codeWithScope (code : GoString) (scope : List (GoString × Bson))
  | int32 (value : Int32)
  | int64 (value : Int64)
  | scalar (kind : ScalarKind) (data : List UInt8)
deriving Repr

/-- `raw.Type`. -/
def Bson.kind : Bson → Kind
  | .double _ => .double
  | .string _ => .string
  | .document _ => .embeddedDocument
  | .array _ => .array
  | .boolean _ => .boolean
  | .dateTime _ => .dateTime
  | .null => .null
  | .codeWithScope _ _ => .codeWithScope
  | .int32 _ => .int32
  | .int64 _ => .int64
  | .scalar kind _ => .scalar kind

mutual

/-- The names and texts of a value are UTF-8, as `ValidateBSONDocument` checks. -/
def Bson.textual : Bson → Bool
  | .string text => validUTF8 text
  | .document fields => textualFields fields
  | .array items => textualItems items
  | .codeWithScope code scope => validUTF8 code && textualFields scope
  | _ => true

def textualFields : List (GoString × Bson) → Bool
  | [] => true
  | (key, raw) :: rest => validUTF8 key && raw.textual && textualFields rest

def textualItems : List Bson → Bool
  | [] => true
  | raw :: rest => raw.textual && textualItems rest

end

structure BsonDocument where
  fields : List (GoString × Bson)
  textual : textualFields fields = true

/-! ## Go values -/

/-- The Go values that decoding, the bridge and encoding exchange. -/
inductive Any where
  | null
  | bool (value : Bool)
  | string (text : GoString)
  | float64 (bits : UInt64)
  /-- `json.Number`. -/
  | number (text : GoString)
  /-- `[]any`. -/
  | slice (items : List Any)
  /-- `map[string]any`. -/
  | map (fields : List (GoString × Any))
  | bsonDateTime (text : GoString)
  | bsonInteger (value : Int64) (wide : Bool)
  | bsonScalar (kind : Kind) (view : List (GoString × Any))
  | int32 (value : Int32)
  | int64 (value : Int64)
  /-- `bson.DateTime`. -/
  | dateTime (millis : Int64)
  /-- `bson.RawValue`. -/
  | rawValue (raw : Bson)
  /-- `bson.CodeWithScope`. -/
  | codeWithScope (code : GoString) (scope : Any)
  /-- `bson.D`. -/
  | d (fields : List (GoString × Any))
  /-- `bson.A`. -/
  | a (items : List Any)
deriving Repr

/-- `%T`. -/
def Any.typeName : Any → GoString
  | .null => lit "<nil>"
  | .bool _ => lit "bool"
  | .string _ => lit "string"
  | .float64 _ => lit "float64"
  | .number _ => lit "json.Number"
  | .slice _ => lit "[]interface \x7b\x7d"
  | .map _ => lit "map[string]interface \x7b\x7d"
  | .bsonDateTime _ => lit "merge.bsonDateTime"
  | .bsonInteger _ _ => lit "merge.bsonInteger"
  | .bsonScalar _ _ => lit "merge.bsonScalar"
  | .int32 _ => lit "int32"
  | .int64 _ => lit "int64"
  | .dateTime _ => lit "bson.DateTime"
  | .rawValue _ => lit "bson.RawValue"
  | .codeWithScope _ _ => lit "bson.CodeWithScope"
  | .d _ => lit "bson.D"
  | .a _ => lit "bson.A"

/-- The exponent bits of a double are not all ones: neither infinite nor NaN. -/
def finite (bits : UInt64) : Bool := bits &&& 0x7FF0000000000000 != 0x7FF0000000000000

/-- Positive or negative zero. -/
def isZero (bits : UInt64) : Bool := bits == 0 || bits == 0x8000000000000000

/-! ## Integers in decimal -/

/-- The number that decimal digits denote. -/
def digitsValue : Nat → GoString → Option Nat
  | total, [] => some total
  | total, b :: rest =>
    if 0x30 ≤ b && b ≤ 0x39 then digitsValue (10 * total + (b.toNat - 0x30)) rest else none

/-- `strconv.ParseInt(text, 10, bits)`; only whether it fails is looked at. -/
def parseInt (bits : Nat) (text : GoString) : Option Int :=
  let (negative, digits) :=
    match text with
    | 0x2D :: rest => (true, rest)
    | 0x2B :: rest => (false, rest)
    | _ => (false, text)
  match digits with
  | [] => none
  | _ =>
    match digitsValue 0 digits with
    | none => none
    | some magnitude =>
      let value : Int := if negative then -magnitude else magnitude
      if -(2 ^ (bits - 1)) ≤ value ∧ value < 2 ^ (bits - 1) then some value else none

/-- A number that `ParseInt` reads and that prints back the same. -/
def PlainInteger (text : GoString) (value : Int64) : Prop :=
  parseInt 64 text = some value.toInt ∧ decimal value.toInt = text

/-- JSON as the driver writes it for a scalar: UTF-8, and every number a signed
64-bit integer. -/
inductive Plain : Any → Prop
  | null : Plain .null
  | bool (value : Bool) : Plain (.bool value)
  | string {text : GoString} (valid : validUTF8 text = true) : Plain (.string text)
  | number {text : GoString} (value : Int64) (plain : PlainInteger text value) :
      Plain (.number text)
  | slice {items : List Any} (each : ∀ item ∈ items, Plain item) : Plain (.slice items)
  | map {fields : List (GoString × Any)} (order : KeyedList.Increasing fields)
      (names : ∀ field ∈ fields, validUTF8 field.1 = true)
      (each : ∀ field ∈ fields, Plain field.2) : Plain (.map fields)

/-! ## Lua values -/

/-- `vm.Value`. A string is its text and its backing array, a table its
identity. -/
inductive Value where
  | nil
  | bool (value : Bool)
  | string (text : GoString) (data : Nat)
  | int (value : Int64)
  | float (bits : UInt64)
  | table (table : Nat)
  /-- A table that is not a `*vm.Table`. -/
  | virtualTable
  /-- A function, or another value without fields. -/
  | other (typeName : GoString)
deriving Repr, DecidableEq

/-- A `vm.Value` as a key: strings are compared by their text. -/
inductive Key where
  | bool (value : Bool)
  | string (text : GoString)
  | int (value : Int)
  | float (bits : UInt64)
  | table (table : Nat)
  | virtualTable
  | other (typeName : GoString)
deriving Repr, DecidableEq

def Key.typeName : Key → GoString
  | .bool _ => lit "boolean"
  | .string _ => lit "string"
  | .int _ => lit "number"
  | .float _ => lit "number"
  | .table _ => lit "table"
  | .virtualTable => lit "table"
  | .other typeName => typeName

/-- The metatables of the bridge. -/
inductive Meta where
  | object
  | array
  | null
deriving Repr, DecidableEq

structure Table where
  metatable : Option Meta
  entries : List (Key × Value)
deriving Repr

/-- `table.SetInt` and `table.SetString` of a value that is not nil. -/
def setEntry (key : Key) (value : Value) : List (Key × Value) → List (Key × Value)
  | [] => [(key, value)]
  | entry :: rest =>
    if entry.1 = key then (key, value) :: rest else entry :: setEntry key value rest

/-- `table.Get`. -/
def getEntry (key : Key) (entries : List (Key × Value)) : Value :=
  match entries.find? fun entry => entry.1 = key with
  | some entry => entry.2
  | none => .nil

structure BsonInteger where
  value : Int64
  wide : Bool
deriving Repr, DecidableEq

/-- `luaJSONBridge` and the part of the virtual machine it has filled: the
tables by identity and the number of string arrays made so far. -/
structure Bridge where
  tables : List Table
  strings : Nat
  dateTimes : List (GoString × Nat)
  integerKinds : Int64 → UInt8
  integerFields : Nat → Key → Option BsonInteger
  bsonScalars : Nat → Option Kind

/-- The table that stands for JSON null, made with the bridge. -/
def nullTable : Nat := 0

def newLuaJSONBridge : Bridge where
  tables := [{ metatable := some .null, entries := [] }]
  strings := 0
  dateTimes := []
  integerKinds := fun _ => 0
  integerFields := fun _ _ => none
  bsonScalars := fun _ => none

/-! ## Libraries -/

/-- `time.UnixMilli(millis).UTC()` has a year from 0 to 9999. -/
def yearInRange (millis : Int64) : Bool :=
  -62167219200000 ≤ millis.toInt && millis.toInt < 253402300800000

/-- A scalar that is decoded into its Extended JSON view. -/
def Bson.viewed : Bson → Bool
  | .double bits => !finite bits
  | .dateTime millis => !yearInRange millis
  | .scalar _ _ => true
  | _ => false

/-- The BSON type that the driver documents for a Go value with no values inside. -/
def Any.mapped : Any → Option Bson
  | .null => some .null
  | .bool value => some (.boolean value)
  | .string text => some (.string text)
  | .float64 bits => some (.double bits)
  | .int32 value => some (.int32 value)
  | .int64 value => some (.int64 value)
  | .dateTime millis => some (.dateTime millis)
  | .rawValue raw => some raw
  | _ => none

/-- The libraries below the bridge. -/
structure Library where
  /-- `%q`. -/
  quote : GoString → GoString
  /-- `Format(time.RFC3339Nano)` of an instant in UTC. -/
  formatDate : Int64 → GoString
  /-- `time.Parse(time.RFC3339Nano, _)`, then `bson.NewDateTimeFromTime`. -/
  parseDate : GoString → Fallible Int64
  /-- `number.Float64()`. -/
  parseFloat : GoString → Option UInt64
  /-- `float64(integer)`. -/
  floatOfInt : Int64 → UInt64
  /-- `int64(value)` of a double within the range of `int64`. -/
  intOfFloat : UInt64 → Option Int64
  /-- The order in which `table.ForEach` visits the entries. -/
  order : List (Key × Value) → List (Key × Value)
  /-- `table.Len()`. -/
  len : List (Key × Value) → Nat
  /-- `bson.MarshalExtJSON(_, true, false)`. -/
  marshalExtJSON : List (GoString × Bson) → Fallible GoString
  /-- `bson.UnmarshalExtJSON(_, false, &document)`. -/
  unmarshalExtJSON : GoString → Fallible (List (GoString × Bson))
  /-- `json.Marshal`. -/
  marshalJSON : Any → Fallible GoString
  /-- A JSON decoder with `UseNumber` that reads one value and nothing more. -/
  decodeJSONValue : GoString → Fallible Any
  /-- `bson.Marshal`, before the bytes are laid out. -/
  marshalBSON : Any → Fallible Bson
  /-- Every entry is visited once. -/
  order_perm : ∀ entries, (order entries).Perm entries
  /-- A length is a border. -/
  len_border : ∀ entries,
    (len entries = 0 ∨ Key.int (len entries) ∈ entries.map Prod.fst) ∧
      Key.int (len entries + 1) ∉ entries.map Prod.fst
  formatDate_valid : ∀ millis, yearInRange millis = true → validUTF8 (formatDate millis) = true
  /-- A date text is read back exactly. -/
  parse_format : ∀ millis, yearInRange millis = true → parseDate (formatDate millis) = .ok millis
  /-- The Extended JSON view of a scalar is plain JSON and is read back exactly. -/
  view_inverse : ∀ raw text fields view, raw.viewed = true →
    marshalExtJSON [(lit "value", raw)] = .ok text →
    decodeJSONValue text = .ok (.map fields) →
    KeyedList.lookup (lit "value") fields = some (.map view) →
    Plain (.map view) ∧ ∃ encoded,
      marshalJSON (.map [(lit "value", .map view)]) = .ok encoded ∧
        unmarshalExtJSON encoded = .ok [(lit "value", raw)]
  marshal_mapped : ∀ value raw, value.mapped = some raw → marshalBSON value = .ok raw
  marshal_code : ∀ code scope fields, marshalBSON scope = .ok (.document fields) →
    marshalBSON (.codeWithScope code scope) = .ok (.codeWithScope code fields)
  marshal_d : ∀ fields written,
    List.Forall₂ (fun field other => field.1 = other.1 ∧ marshalBSON field.2 = .ok other.2)
      fields written → marshalBSON (.d fields) = .ok (.document written)
  marshal_a : ∀ items written, List.Forall₂ (fun item raw => marshalBSON item = .ok raw)
    items written → marshalBSON (.a items) = .ok (.array written)

end Sink.Merge
