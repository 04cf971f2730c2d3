import Sink.Lib.Base64
import Sink.Lib.Bytes
import Sink.Scan.Cursor
import Sink.Texts

/-!
# Record keys

`search/key.go`, the first function of `mongodb/bson.go` and `resolve` of both
stores: how the typed key of a record address becomes a document id or an `_id`,
and which record an address stands for.

Search ids are texts. A string key is its own id unless it begins like an
escaped one; every other key is escaped, with a tag for its type and its bytes
in base64 or, for an integer, in decimal. MongoDB has a type for each kind of
key. `KeyLibrary` is the URI library and what a backend reads of the texts in a
request.
-/

namespace Sink.Records

open Sink.Scan (validUTF8)

/-! ## Keys -/

/-- `storage.Key`. -/
structure Key where
  type : GoString
  data : List UInt8
deriving Repr, DecidableEq

structure KeyLibrary where
  /-- `%q`. -/
  quote : GoString → GoString
  /-- `uri.ParseKey`. -/
  parseKey : GoString → Fallible Key
  /-- The text that a backend reads for one that `encoding/json` wrote. -/
  received : GoString → GoString
  /-- Different segments are different keys. -/
  parseKey_injective : ∀ segment other key,
    parseKey segment = .ok key → parseKey other = .ok key → segment = other
  parseKey_valid : ∀ segment key, parseKey segment = .ok key →
    key.type = lit "string" → validUTF8 key.data = true
  received_valid : ∀ text, validUTF8 text = true → received text = text

variable (lib : KeyLibrary)

def escapedKeyPrefix : GoString := lit "~sink~"

def maximumDocumentID : Nat := 512

/-- `int64(binary.BigEndian.Uint64(data))`. -/
def int64Value (data : List UInt8) : Int64 := (UInt64.ofNat (Bytes.bigEndian data)).toInt64

def encodeKeyPart (value : List UInt8) : GoString := Base64.encode value

/-- `documentID` before its length is checked. -/
def escapedID (key : Key) : Fallible GoString :=
  if key.type = lit "string" then
    if key.data = [] then refuse "search string record key must not be empty"
    else if escapedKeyPrefix.isPrefixOf key.data then
      .ok (escapedKeyPrefix ++ (lit "string~" ++ encodeKeyPart key.data))
    else .ok key.data
  else if key.type = lit "int64" then
    if key.data.length ≠ 8 then refuse "int64 record key must contain 8 bytes"
    else .ok (escapedKeyPrefix ++ (lit "int64~" ++ decimal (int64Value key.data).toInt))
  else if key.type = lit "bytes" then
    .ok (escapedKeyPrefix ++ (lit "bytes~" ++ encodeKeyPart key.data))
  else if !(lit "opaque:").isPrefixOf key.type then
    .error (.text (lit "unsupported search record key type " ++ lib.quote key.type))
  else
    let name := key.type.drop (lit "opaque:").length
    if name = [] then refuse "opaque record key type is required"
    else
      .ok (escapedKeyPrefix ++ (lit "opaque~" ++
        (encodeKeyPart name ++ 0x7E :: encodeKeyPart key.data)))

def documentID (key : Key) : Fallible GoString := do
  let id ← escapedID lib key
  if maximumDocumentID < id.length then
    .error (.text (lit "search document ID exceeds " ++ decimal maximumDocumentID ++
      lit " bytes"))
  else .ok id

def objectIDKeyType : GoString := lit "opaque:mongodb/object-id"

/-- The Go values that `mongoID` returns. -/
inductive MongoID where
  | string (text : GoString)
  | int64 (value : Int64)
  /-- `bson.Binary` with subtype 0. -/
  | binary (data : List UInt8)
  | objectID (data : List UInt8)
deriving Repr, DecidableEq

def mongoID (key : Key) : Fallible MongoID :=
  if key.type = lit "string" then .ok (.string key.data)
  else if key.type = lit "int64" then
    if key.data.length ≠ 8 then refuse "int64 record key must contain 8 bytes"
    else .ok (.int64 (int64Value key.data))
  else if key.type = lit "bytes" then .ok (.binary key.data)
  else if key.type = objectIDKeyType then
    if key.data.length ≠ 12 then
      refuse "MongoDB ObjectID record key must contain 12 bytes"
    else .ok (.objectID key.data)
  else .error (.text (lit "unsupported MongoDB record key type " ++ lib.quote key.type))

/-! ## Addresses -/

/-- `storage.Address`, as the URI library splits it. -/
structure RecordAddress where
  store : GoString
  segments : List GoString
deriving Repr, DecidableEq

def notConfigured (store : GoString) : GoError :=
  invalidArgumentError (.text (lit "logical store " ++ lib.quote store ++ lit " is not configured"))

structure ResolvedDocument where
  index : GoString
  id : GoString
deriving Repr, DecidableEq

/-- `resolve` of the search store. -/
def resolveDocument (logicalStore : GoString) (address : RecordAddress) :
    Fallible ResolvedDocument :=
  if address.store ≠ logicalStore then .error (notConfigured lib address.store)
  else
    match address.segments with
    | [index, segment] => do
      let key ← (lib.parseKey segment).mapError invalidArgumentError
      let id ← (documentID lib key).mapError invalidArgumentError
      .ok { index, id }
    | _ => .error (invalidArgumentError (.text (lit "search record URI requires index/typed-key")))

structure ResolvedCollection where
  database : GoString
  collection : GoString
  recordKey : Key
deriving Repr, DecidableEq

/-- `resolve` of the MongoDB store. -/
def resolveCollection (store : GoString) (address : RecordAddress) :
    Fallible ResolvedCollection :=
  if address.store ≠ store then .error (notConfigured lib address.store)
  else
    match address.segments with
    | [database, collection, segment] =>
      if database.any (fun b => (lit "/\\. \"$\x00").contains b) || collection.contains 0 then
        .error (invalidArgumentError (.text (lit "invalid MongoDB database or collection name")))
      else do
        let key ← (lib.parseKey segment).mapError invalidArgumentError
        let _ ← (mongoID lib key).mapError invalidArgumentError
        .ok { database, collection, recordKey := key }
    | _ =>
      .error (invalidArgumentError
        (.text (lit "MongoDB record URI requires database/collection/typed-key")))

/-! ## Parts of an id -/

theorem int64Value_injective {data other : List UInt8} (hdata : data.length = 8)
    (hother : other.length = 8) (h : int64Value data = int64Value other) : data = other := by
  have hnumber : ∀ bytes : List UInt8, bytes.length = 8 →
      (int64Value bytes).toUInt64.toNat = Bytes.bigEndian bytes := by
    intro bytes hlength
    have hlt := Bytes.bigEndian_lt bytes
    rw [hlength] at hlt
    exact UInt64.toNat_ofNat_of_lt' hlt
  refine Bytes.bigEndian_injective (hdata.trans hother.symm) ?_
  rw [← hnumber data hdata, ← hnumber other hother, h]

/-- The kinds of escaped ids. -/
inductive Escape where
  | string
  | int64
  | bytes
  | typed
deriving Repr, DecidableEq

namespace Escape

def tag : Escape → GoString
  | .string => lit "string~"
  | .int64 => lit "int64~"
  | .bytes => lit "bytes~"
  | .typed => lit "opaque~"

theorem tag_injective {escape other : Escape} {body rest : GoString}
    (h : escape.tag ++ body = other.tag ++ rest) : escape = other ∧ body = rest := by
  have hhead : (escape.tag ++ body).head? = (other.tag ++ rest).head? := congrArg List.head? h
  have hnonempty : ∀ escape : Escape, escape.tag ≠ [] := by
    intro escape
    cases escape <;> decide
  have hsame : escape = other := by
    rw [List.head?_append_of_ne_nil _ (hnonempty escape),
      List.head?_append_of_ne_nil _ (hnonempty other)] at hhead
    revert hhead
    cases escape <;> cases other <;> decide
  subst hsame
  exact ⟨rfl, List.append_cancel_left h⟩

/-- What follows the tag of a key. -/
def Holds : Escape → Key → GoString → Prop
  | .string, key, body => key.type = lit "string" ∧ body = encodeKeyPart key.data
  | .int64, key, body =>
    key.type = lit "int64" ∧ key.data.length = 8 ∧ body = decimal (int64Value key.data).toInt
  | .bytes, key, body => key.type = lit "bytes" ∧ body = encodeKeyPart key.data
  | .typed, key, body => ∃ name, key.type = lit "opaque:" ++ name ∧
      body = encodeKeyPart name ++ 0x7E :: encodeKeyPart key.data

theorem Holds.key_eq {escape : Escape} {key other : Key} {body : GoString}
    (h : escape.Holds key body) (h' : escape.Holds other body) : key = other := by
  cases escape with
  | string =>
    obtain ⟨htype, hbody⟩ := h
    obtain ⟨htype', hbody'⟩ := h'
    rw [Key.mk.injEq]
    exact ⟨htype.trans htype'.symm, Base64.encode_injective (hbody.symm.trans hbody')⟩
  | int64 =>
    obtain ⟨htype, hlength, hbody⟩ := h
    obtain ⟨htype', hlength', hbody'⟩ := h'
    rw [Key.mk.injEq]
    exact ⟨htype.trans htype'.symm, int64Value_injective hlength hlength'
      (Int64.toInt_inj.mp (decimal_injective (hbody.symm.trans hbody')))⟩
  | bytes =>
    obtain ⟨htype, hbody⟩ := h
    obtain ⟨htype', hbody'⟩ := h'
    rw [Key.mk.injEq]
    exact ⟨htype.trans htype'.symm, Base64.encode_injective (hbody.symm.trans hbody')⟩
  | typed =>
    obtain ⟨name, htype, hbody⟩ := h
    obtain ⟨name', htype', hbody'⟩ := h'
    have hseparator : ¬Base64.Letter 0x7E := by decide
    obtain ⟨hname, hdata⟩ := Base64.encode_separated hseparator (hbody.symm.trans hbody')
    rw [Key.mk.injEq]
    rw [hname] at htype
    exact ⟨htype.trans htype'.symm, Base64.encode_injective hdata⟩

end Escape

/-! ## Different keys, different ids -/

variable {lib}

/-- A string key that is its own id, or an escaped key. -/
def Identified (key : Key) (id : GoString) : Prop :=
  (key.type = lit "string" ∧ ¬escapedKeyPrefix <+: id ∧ id = key.data) ∨
    ∃ escape body, Escape.Holds escape key body ∧ id = escapedKeyPrefix ++ (escape.tag ++ body)

variable {id : GoString}

theorem escapedID_identified {key : Key} (h : escapedID lib key = .ok id) : Identified key id := by
  unfold escapedID at h
  split at h
  · rename_i htype
    split at h
    · cases h
    split at h
    · cases h
      exact .inr ⟨.string, _, ⟨htype, rfl⟩, rfl⟩
    rename_i hprefix
    cases h
    exact .inl ⟨htype, fun hpre => hprefix (List.isPrefixOf_iff_prefix.mpr hpre), rfl⟩
  · split at h
    · rename_i htype
      split at h
      · cases h
      rename_i hlength
      cases h
      exact .inr ⟨.int64, _, ⟨htype, not_not.mp hlength, rfl⟩, rfl⟩
    · split at h
      · rename_i htype
        cases h
        exact .inr ⟨.bytes, _, ⟨htype, rfl⟩, rfl⟩
      · split at h
        · cases h
        rename_i hprefix
        rw [Bool.not_eq_true, Bool.not_eq_false'] at hprefix
        obtain ⟨name, hname⟩ := List.isPrefixOf_iff_prefix.mp hprefix
        dsimp only at h
        split at h
        · cases h
        cases h
        refine .inr ⟨.typed, _, ⟨name, hname.symm, ?_⟩, rfl⟩
        rw [← hname, List.drop_left]

theorem documentID_identified {key : Key} (h : documentID lib key = .ok id) :
    Identified key id := by
  obtain ⟨id, hid, h⟩ := bind_ok h
  split at h
  · cases h
  · cases h
    exact escapedID_identified hid

theorem Identified.key_eq {key other : Key} (h : Identified key id) (h' : Identified other id) :
    key = other := by
  rcases h with ⟨htype, hfree, hid⟩ | ⟨escape, body, hholds, hid⟩
  · rcases h' with ⟨htype', _, hid'⟩ | ⟨escape', body', _, hid'⟩
    · obtain ⟨type, data⟩ := key
      rw [Key.mk.injEq]
      exact ⟨htype.trans htype'.symm, hid.symm.trans hid'⟩
    · exact absurd ⟨_, hid'.symm⟩ hfree
  · rcases h' with ⟨_, hfree', _⟩ | ⟨escape', body', hholds', hid'⟩
    · exact absurd ⟨_, hid.symm⟩ hfree'
    have htext := List.append_cancel_left (hid.symm.trans hid')
    obtain ⟨rfl, rfl⟩ := Escape.tag_injective htext
    exact hholds.key_eq hholds'

end Sink.Records
