import Sink.Scan.Cursor

/-!
# Search queries of a scan

`search/scan_sizing.go` and the parts of `search/scan.go` and `search/query.go`
that prepare a query: the sort order a scan demands, the sort values of a hit
as canonical JSON text, the projection, and the cache of fetch sizes.

Raw JSON values are bytes; what `encoding/json` makes of them is given by
`RawJson`. `nativeOptions`, which turns a native request into request options,
is a parameter; `performQuery` is seen from outside only, as hits or an error.
-/

namespace Sink.Search

open Sink.Scan

/-- `encoding/json` on raw messages. -/
structure RawJson where
  /-- `json.Unmarshal` into `[]json.RawMessage`. -/
  array : List UInt8 → Option (List (List UInt8))
  /-- `json.Unmarshal` into a `string`. -/
  string : List UInt8 → Option GoString
  /-- `json.Unmarshal` into `map[string]json.RawMessage`. -/
  object : List UInt8 → Option (List (GoString × List UInt8))
  /-- Decoding with `UseNumber`: whether it is a string, a number or a bool. -/
  scalar : List UInt8 → Fallible Bool
  /-- The `sort` field of a hit; nil if it is missing. -/
  sortOf : List UInt8 → Fallible (List UInt8)
  /-- `json.Marshal` of raw messages, which compacts them. -/
  compact : List (List UInt8) → Fallible (List UInt8)
  /-- `json.Marshal` of a map with one list of names. -/
  names : GoString → List GoString → Fallible (List UInt8)
  compact_ne_nil : ∀ values text, compact values = .ok text → text ≠ []
  /-- Compacting a compact text changes nothing. -/
  compact_idem : ∀ values values' text, compact values = .ok text → array text = some values' →
    compact values' = .ok text

/-- A query body: `map[string]json.RawMessage`. -/
abbrev Body := GoString → Option (List UInt8)

def Body.set (body : Body) (name : GoString) (value : List UInt8) : Body :=
  Function.update body name (some value)

structure RequestOptions where
  method : GoString
  path : GoString
  rawPath : GoString
  query : List (GoString × List GoString)
  headers : List (GoString × List GoString)
  contentType : GoString
  payload : List UInt8
  retrySafe : Bool
  maxBytes : Int
deriving Repr, DecidableEq

namespace RequestOptions

/-- `opts.query.Has(name)`. -/
def has (opts : RequestOptions) (name : GoString) : Bool :=
  opts.query.any fun parameter => decide (parameter.1 = name)

/-- `opts.query.Del(name)`. -/
def del (opts : RequestOptions) (name : GoString) : RequestOptions :=
  { opts with query := opts.query.filter fun parameter => decide (parameter.1 ≠ name) }

end RequestOptions

section Json

variable (json : RawJson)

/-! ## Sort orders and sort values -/

def unsupportedSort : GoError := .text
  (lit ("Scan sort fields require asc or desc; " ++
    "sort scripts, modes and missing-value substitutions are unsupported"))

def sortName (raw : List UInt8) : Fallible GoString :=
  match json.string raw with
  | some name => .ok name
  | none =>
    match json.object raw with
    | some [(name, value)] =>
      match json.string value with
      | some direction =>
        if direction = lit "asc" ∨ direction = lit "desc" then .ok name
        else .error unsupportedSort
      | none => .error unsupportedSort
    | _ => refuse "invalid Scan sort field"

/-- The loop of `scanSort`. -/
def checkSort : List GoString → List (List UInt8) → Fallible Unit
  | _, [] => .ok ()
  | seen, raw :: rest => do
    let name ← sortName json raw
    if name = [] ∨ (lit "_").isPrefixOf name ∨ seen.contains name then
      .error (.text (lit ("Scan requires distinct ordinary sort fields; " ++
        "_id, _doc, _shard_doc and _score cannot provide a live seek order")))
    else checkSort (name :: seen) rest

def scanSort (body : Body) : Fallible Nat :=
  match (body (lit "sort")).bind json.array with
  | none | some [] => .error (.text
      (lit "Scan requires a sort array ending in a unique immutable field with doc_values"))
  | some fields => do
    checkSort json [] fields
    .ok fields.length

/-- The loop of `scanSortValues`. -/
def checkScalars : List (List UInt8) → Fallible Unit
  | [] => .ok ()
  | value :: rest => do
    if ← json.scalar value then checkScalars rest
    else refuse "Scan sort fields must have non-null scalar values"

def scanSortValues (raw : List UInt8) (count : Nat) : Fallible (List UInt8) :=
  let omitted := GoError.text (lit "Scan hit or cursor omitted its complete sort values")
  match json.array raw with
  | none => .error omitted
  | some values =>
    if values.length ≠ count then .error omitted
    else do
      checkScalars json values
      json.compact values

variable {count : Nat} {raw text : List UInt8}

theorem scanSortValues_ok (h : scanSortValues json raw count = .ok text) :
    ∃ values, json.array raw = some values ∧ json.compact values = .ok text := by
  unfold scanSortValues at h
  split at h
  · cases h
  rename_i values harray
  split at h
  · cases h
  obtain ⟨-, -, h⟩ := bind_ok h
  exact ⟨values, harray, h⟩

/-- Sort values that were read once are read the same way again. -/
theorem scanSortValues_idem {raw text text' : List UInt8}
    (h : scanSortValues json raw count = .ok text)
    (h' : scanSortValues json text count = .ok text') : text' = text := by
  obtain ⟨values, -, hcompact⟩ := scanSortValues_ok json h
  obtain ⟨values', harray, hcompact'⟩ := scanSortValues_ok json h'
  rw [json.compact_idem values values' text hcompact harray] at hcompact'
  exact (Except.ok.inj hcompact').symm

theorem scanSortValues_ne_nil (h : scanSortValues json raw count = .ok text) : text ≠ [] := by
  obtain ⟨values, -, hcompact⟩ := scanSortValues_ok json h
  exact json.compact_ne_nil values text hcompact

/-! ## Options of a query -/

/-- `/_search` or `/{index}/_search`. -/
def searchPath (path : GoString) : Bool :=
  let trimmed := if path.head? = some 0x2F then path.drop 1 else path
  let index := trimmed.takeWhile (· ≠ 0x2F)
  let endpoint := (trimmed.dropWhile (· ≠ 0x2F)).drop 1
  let indexed := !index.isEmpty && (index.head? != some 0x5F || index == lit "_all" ||
    index.any (lit ",:*?").contains)
  path == lit "/_search" || (indexed && endpoint == lit "_search")

/-- The query body of a payload. -/
def queryBody (payload : List UInt8) : Fallible Body :=
  if payload = [] then .ok fun _ => none
  else if !validUTF8 payload then
    refuse "Query, Count and Scan require a valid UTF-8 JSON body"
  else
    match json.object payload with
    | none => refuse "Query and Count require a JSON object body"
    | some fields => .ok fun name =>
      (fields.find? fun field => decide (field.1 = name)).map Prod.snd

/-- `pageOptions`. `mediaType` is `mime.ParseMediaType`, without the parameters
and empty on errors, and `quote` is `%q`. -/
def pageOptions (quote : GoString → GoString)
    (nativeOptions : NativeRequest → Fallible RequestOptions)
    (mediaType : GoString → GoString) (req : NativeRequest) :
    Fallible (RequestOptions × Body) := do
  let opts ← nativeOptions { req with
    path := if req.path = [] then lit "/_search" else req.path
    method := if req.method = [] then lit "POST" else req.method }
  if !searchPath opts.path ∨ opts.path.count 0x2F ≠ opts.rawPath.count 0x2F ∨
      (opts.method ≠ lit "GET" ∧ opts.method ≠ lit "POST") then
    throw (.text (lit "Query, Count and Scan require /_search or /\x7bindex\x7d/_search"))
  if opts.contentType ≠ [] ∧ mediaType opts.contentType ≠ lit "application/json" ∧
      !(lit "+json").isSuffixOf (mediaType opts.contentType) then
    throw (.text (lit "Query and Count require a JSON content_type"))
  let parameters := ["source", "filter_path", "scroll", "scroll_id", "search_after", "pit"].map lit
  if let some name := parameters.find? opts.has then
    throw (.text (lit "Query and Count do not support parameter " ++ quote name))
  let body ← queryBody json opts.payload
  if let some name := (["search_after", "pit"].map lit).find? fun name => (body name).isSome then
    throw (.text (lit "Query and Count do not support " ++ quote name ++
      lit "; use Execute for manual pagination"))
  let opts := (opts.del (lit "from")).del (lit "size")
  return ({ opts with
    method := lit "POST"
    retrySafe := true
    contentType := lit "application/json"
    headers := opts.headers.filter (fun header => decide (header.1 ≠ lit "Accept")) ++
      [(lit "Accept", [lit "application/json"])] },
    fun name => if name = lit "from" ∨ name = lit "size" then none else body name)

def applyProjection (opts : RequestOptions) (body : Body) :
    Option Projection → Fallible (RequestOptions × Body)
  | none => .ok (opts, body)
  | some p =>
    let opts := ((opts.del (lit "_source")).del (lit "_source_includes")).del
      (lit "_source_excludes")
    if p.fields = [] then .ok (opts, body.set (lit "_source") (lit "true"))
    else do
      let encoded ← json.names (lit (if p.exclude then "excludes" else "includes")) p.fields
      .ok (opts, body.set (lit "_source") encoded)

/-- Body fields with which a scan does not return plain hits. -/
def unsupportedFields : List GoString :=
  ["aggs", "aggregations", "collapse", "rescore", "suggest", "terminate_after", "knn",
    "retriever"].map lit

/-- The checks of `Scan` on a query, and what it sends for every page: the
options, the body and the number of sort fields. `quote` is `%q`. -/
def prepare (quote : GoString → GoString) (opts : RequestOptions) (body : Body)
    (projection : Option Projection) : Fallible (RequestOptions × Body × Nat) := do
  let (opts, body) ← applyProjection json opts body projection
  if opts.has (lit "sort") then refuse "Scan requires sort in the JSON body"
  else
    match unsupportedFields.find? fun field => (body field).isSome with
    | some field => .error (.text (lit "Scan does not support " ++ quote field))
    | none =>
      if opts.has (lit "terminate_after") then
        refuse "Scan does not support terminate_after"
      else do
        let count ← scanSort json body
        .ok (opts.del (lit "track_total_hits"),
          body.set (lit "track_total_hits") (lit "false"), count)

end Json

/-! ## Fetch sizes -/

structure ScanSizeHint where
  key : List UInt8
  size : Int
  expires : Int
deriving Repr, DecidableEq

def maxScanSizeHints : Nat := 256

/-- A minute, in the unit of the clock. -/
def hintLifetime : Int := 60000000000

/-- The cache of fetch sizes, most recent first. A hint is a positive size. -/
structure ScanSizeCache where
  recent : List ScanSizeHint
  positive : ∀ hint ∈ recent, 1 ≤ hint.size

namespace ScanSizeCache

variable (c : ScanSizeCache)

def find (key : List UInt8) : Option ScanSizeHint :=
  c.recent.find? fun hint => decide (hint.key = key)

/-- `recent.Remove` and `delete`. -/
def remove (key : List UInt8) : ScanSizeCache where
  recent := c.recent.filter fun hint => decide (hint.key ≠ key)
  positive hint hmem := c.positive hint (List.mem_of_mem_filter hmem)

/-- `MoveToFront` or `PushFront`. -/
def push (hint : ScanSizeHint) (hsize : 1 ≤ hint.size) : ScanSizeCache where
  recent := hint :: (c.remove hint.key).recent
  positive := by
    exact List.forall_mem_cons.mpr ⟨hsize, (c.remove hint.key).positive⟩

theorem find_mem {key : List UInt8} {hint : ScanSizeHint} (h : c.find key = some hint) :
    hint ∈ c.recent := List.mem_of_find?_eq_some h

/-- `suggest` at the time `now`. -/
def suggest (now : Int) (key : List UInt8) (maximum : Int) : Int × ScanSizeCache :=
  match h : c.find key with
  | none => (maximum, c)
  | some hint =>
    if now > hint.expires then (maximum, c.remove key)
    else (min maximum hint.size, c.push hint (c.positive hint (c.find_mem h)))

/-- Forget the oldest hint of a cache that is too long. -/
def evict : ScanSizeCache :=
  if c.recent.length > maxScanSizeHints then
    { recent := c.recent.dropLast
      positive := fun hint hmem => c.positive hint (List.dropLast_subset _ hmem) }
  else c

/-- `remember` at the time `now`. -/
def remember (now : Int) (key : List UInt8) (size : Int) : ScanSizeCache :=
  if hsize : size < 1 then c
  else
    match h : c.find key with
    | some hint =>
      c.push { hint with size := min hint.size size } (by
        have hpos := c.positive hint (c.find_mem h)
        show 1 ≤ min hint.size size
        omega)
    | none => (c.push ⟨key, size, now + hintLifetime⟩ (by show 1 ≤ size; omega)).evict

/-- A fetch size is at least one and never more than what was asked for. -/
theorem suggest_bounds (now : Int) (key : List UInt8) {maximum : Int} (hmax : 1 ≤ maximum) :
    1 ≤ (c.suggest now key maximum).1 ∧ (c.suggest now key maximum).1 ≤ maximum := by
  unfold suggest
  split
  · exact ⟨hmax, Int.le_refl _⟩
  rename_i hint hfind
  split
  · exact ⟨hmax, Int.le_refl _⟩
  · have hpos := c.positive hint (c.find_mem hfind)
    omega

end ScanSizeCache

end Sink.Search
