import Sink.Lib.JsonText
import Sink.Merge.Values
import Sink.Records.Validation

/-!
# JSON documents of a merge

`decodeJSONObject` of `merge/json_bridge.go`, with the check of
`storage/document.go` before it.

`json.Valid` accepts the escape of half a surrogate pair and the decoder reads
each of them as U+FFFD, so that strings can change and keys become one. Nothing
else is lost: a decoded object is what its text denotes (`Denotes`) if and only
if no half pair is left once later fields have replaced earlier ones.
-/

namespace Sink.Merge

open JsonText Sink.Records
open Sink.Scan (blank validUTF8)

mutual

/-- How deep arrays and objects are nested. -/
def nesting : Node (List Piece) → Nat
  | .array items => 1 + itemsNesting items
  | .object fields => 1 + fieldsNesting fields
  | _ => 0

def itemsNesting : List (Node (List Piece)) → Nat
  | [] => 0
  | item :: rest => max (nesting item) (itemsNesting rest)

def fieldsNesting : List (List Piece × Node (List Piece)) → Nat
  | [] => 0
  | (_, item) :: rest => max (nesting item) (fieldsNesting rest)

end

/-- What `ValidateDocument` asks of a JSON payload: braces around it, once its
white space is trimmed, and that it is UTF-8 and JSON, which `encoding/json`
reads up to a depth of 10000. -/
def validJSON (payload : List UInt8) : Bool :=
  let positions := List.range payload.length
  positions.any (fun i => blank (payload.take i) && payload[i]? == some 0x7B) &&
    positions.any (fun i => payload[i]? == some 0x7D && blank (payload.drop (i + 1))) &&
    validUTF8 payload && (parseAs id payload).any fun v => decide (nesting v ≤ 10000)

mutual

/-- A value as `Decode` gives it, with its numbers as texts. -/
def anyOf : Node (List Piece) → Any
  | .null => .null
  | .bool value => .bool value
  | .number text => .number text
  | .string pieces => .string (text pieces)
  | .array items => .slice (anysOf items)
  | .object fields => .map (mapOf [] fields)

def anysOf : List (Node (List Piece)) → List Any
  | [] => []
  | item :: rest => anyOf item :: anysOf rest

/-- A field replaces an earlier one of its name. -/
def mapOf (object : List (GoString × Any)) :
    List (List Piece × Node (List Piece)) → List (GoString × Any)
  | [] => object
  | (name, item) :: rest => mapOf (KeyedList.insert (text name) (anyOf item) object) rest

end

variable (syntaxError : GoError) (decodeBSONObject : List UInt8 → Fallible Any)

/-- `decodeJSONValue`. -/
def decodeJSONValue (encoded : List UInt8) : Fallible Any :=
  match value id ((strip encoded).length + 1) encoded with
  | none => .error (.wrapped (lit "decode JSON: " ++ syntaxError.message) syntaxError)
  | some (decoded, trailing) =>
    if skip trailing = [] then .ok (anyOf decoded)
    else refuse "decode JSON: unexpected trailing content"

def decodeJSONObject (document : Document) :
    Fallible (DocumentEncoding × List (GoString × Any)) := do
  validateDocument validJSON document
  match ← (if document.encoding = .bson then decodeBSONObject document.payload
    else decodeJSONValue syntaxError document.payload) with
  | .map object => .ok (document.encoding, object)
  | _ => refuse "document must be an object"

/-! ## What a text denotes -/

mutual

/-- The value is what the text denotes: every string has the bytes that it
denotes, and every field an entry, unless a later field of its name replaces it. -/
def Denotes : Node (List Piece) → Any → Prop
  | .null, .null => True
  | .bool value, .bool value' => value = value'
  | .number number, .number number' => number = number'
  | .string pieces, .string bytes => bytes.map .byte = denoted pieces
  | .array items, .slice values => ItemsDenote items values
  | .object fields, .map entries => FieldsDenote fields entries ∧
      ∀ entry ∈ entries, ∃ field ∈ fields, entry.1.map .byte = denoted field.1
  | _, _ => False

def ItemsDenote : List (Node (List Piece)) → List Any → Prop
  | [], [] => True
  | item :: items, value :: values => Denotes item value ∧ ItemsDenote items values
  | _, _ => False

def FieldsDenote : List (List Piece × Node (List Piece)) → List (GoString × Any) → Prop
  | [], _ => True
  | (name, item) :: rest, entries =>
    ((∃ later ∈ rest, denoted later.1 = denoted name) ∨
      ∃ entry ∈ entries, entry.1.map .byte = denoted name ∧ Denotes item entry.2) ∧
    FieldsDenote rest entries

end

mutual

/-- No string has half a pair. A field that a later one of its name replaces
does not count, but its name does. -/
def paired : Node (List Piece) → Bool
  | .string pieces => pairedFrom none pieces
  | .array items => itemsPaired items
  | .object fields => fieldsPaired fields
  | _ => true

def itemsPaired : List (Node (List Piece)) → Bool
  | [] => true
  | item :: rest => paired item && itemsPaired rest

def fieldsPaired : List (List Piece × Node (List Piece)) → Bool
  | [] => true
  | (name, item) :: rest => pairedFrom none name &&
      (paired item || rest.any fun later => decide (denoted later.1 = denoted name)) &&
      fieldsPaired rest

end

section

variable {name : List Piece} {item : Node (List Piece)} {entry : GoString × Any}
  {fields : List (List Piece × Node (List Piece))} {object : List (GoString × Any)}

/-- An entry that no field replaces is left. -/
theorem mem_mapOf_iff (h : KeyedList.Increasing object)
    (hnames : ∀ field ∈ fields, text field.1 ≠ entry.1) :
    entry ∈ mapOf object fields ↔ entry ∈ object := by
  induction fields generalizing object with
  | nil => rfl
  | cons field rest ih =>
    obtain ⟨hname, hrest⟩ := List.forall_mem_cons.mp hnames
    rw [mapOf, ih h.insert hrest, h.mem_insert_iff]
    refine ⟨fun hmem => hmem.elim (fun heq => ?_) And.left, fun hmem => .inr ⟨hmem, hname.symm⟩⟩
    exact absurd (congrArg Prod.fst heq).symm hname

theorem key_of_mem_mapOf (hmem : entry ∈ mapOf object fields) :
    entry ∈ object ∨ ∃ field ∈ fields, entry.1 = text field.1 := by
  induction fields generalizing object with
  | nil => exact .inl hmem
  | cons field rest ih =>
    rcases ih hmem with hobject | ⟨other, hother, hkey⟩
    · rcases KeyedList.mem_insert hobject with rfl | hobject
      · exact .inr ⟨field, List.mem_cons_self, rfl⟩
      · exact .inl hobject
    · exact .inr ⟨other, List.mem_cons_of_mem _ hother, hkey⟩

theorem fieldsPaired_cons :
    fieldsPaired ((name, item) :: fields) = true ↔ pairedFrom none name = true ∧
      ((∃ later ∈ fields, denoted later.1 = denoted name) ∨ paired item = true) ∧
      fieldsPaired fields = true := by
  simp [fieldsPaired, and_assoc, or_comm]

theorem denoted_text {pieces : List Piece} (h : pairedFrom none pieces = true) :
    (text pieces).map .byte = denoted pieces := eq_denoted_iff.mpr ⟨rfl, h⟩

theorem fieldsPaired_names (h : fieldsPaired fields = true) :
    ∀ field ∈ fields, (text field.1).map .byte = denoted field.1 := by
  induction fields with
  | nil => nofun
  | cons field rest ih =>
    obtain ⟨hname, -, hrest⟩ := fieldsPaired_cons.mp h
    exact List.forall_mem_cons.mpr ⟨denoted_text hname, ih hrest⟩

/-- The last field of its name has the entry. -/
theorem last_mem_mapOf (h : KeyedList.Increasing object) (hname : pairedFrom none name = true)
    (hrest : fieldsPaired fields = true)
    (hlast : ¬∃ later ∈ fields, denoted later.1 = denoted name) (hkey : entry.1 = text name) :
    entry ∈ mapOf object ((name, item) :: fields) ↔ entry = (text name, anyOf item) := by
  rw [mapOf, mem_mapOf_iff h.insert, h.mem_insert_iff]
  · exact ⟨fun hmem => hmem.resolve_right fun hobject => hobject.2 hkey, .inl⟩
  · intro field hfield heq
    refine hlast ⟨field, hfield, ?_⟩
    rw [← fieldsPaired_names hrest field hfield, heq, hkey, denoted_text hname]

end

mutual

/-- What `Decode` gives is what the text denotes if and only if no half pair is left. -/
theorem denotes_iff : ∀ (v : Node (List Piece)), Denotes v (anyOf v) ↔ paired v = true
  | .null | .bool _ | .number _ => by simp [anyOf, Denotes, paired]
  | .string pieces => by
    rw [anyOf, Denotes, eq_denoted_iff, paired]
    exact and_iff_right rfl
  | .array items => by
    rw [anyOf, Denotes, paired]
    exact itemsDenote_iff items
  | .object fields => by
    rw [anyOf, Denotes, paired, fieldsDenote_iff fields .nil]
    refine and_iff_left_of_imp fun hpaired entry hmem => ?_
    obtain ⟨field, hfield, hkey⟩ := (key_of_mem_mapOf hmem).resolve_left List.not_mem_nil
    exact ⟨field, hfield, hkey ▸ fieldsPaired_names hpaired field hfield⟩

theorem itemsDenote_iff : ∀ (items : List (Node (List Piece))),
    ItemsDenote items (anysOf items) ↔ itemsPaired items = true
  | [] => by simp [anysOf, ItemsDenote, itemsPaired]
  | item :: rest => by
    rw [anysOf, ItemsDenote, itemsPaired, Bool.and_eq_true, denotes_iff item, itemsDenote_iff rest]

theorem fieldsDenote_iff : ∀ (fields : List (List Piece × Node (List Piece)))
    {object : List (GoString × Any)}, KeyedList.Increasing object →
      (FieldsDenote fields (mapOf object fields) ↔ fieldsPaired fields = true)
  | [], _, _ => by simp [FieldsDenote, fieldsPaired]
  | (name, item) :: rest, object, h => by
    rw [FieldsDenote, fieldsPaired_cons, ← and_assoc, mapOf, fieldsDenote_iff rest h.insert]
    refine and_congr_left fun hrest => ?_
    by_cases hlater : ∃ later ∈ rest, denoted later.1 = denoted name
    · obtain ⟨later, hmem, heq⟩ := hlater
      have hname : pairedFrom none name = true :=
        (eq_denoted_iff.mp ((fieldsPaired_names hrest later hmem).trans heq)).2
      exact iff_of_true (.inl ⟨later, hmem, heq⟩) ⟨hname, .inl ⟨later, hmem, heq⟩⟩
    · rw [or_iff_right hlater, or_iff_right hlater, ← denotes_iff item]
      constructor
      · rintro ⟨entry, hmem, hkey, hdenotes⟩
        obtain ⟨htext, hname⟩ := eq_denoted_iff.mp hkey
        cases (last_mem_mapOf h hname hrest hlater htext).mp hmem
        exact ⟨hname, hdenotes⟩
      · rintro ⟨hname, hdenotes⟩
        exact ⟨(text name, anyOf item), (last_mem_mapOf h hname hrest hlater rfl).mpr rfl,
          denoted_text hname, hdenotes⟩

end

theorem decodeJSONValue_ok {encoded : List UInt8} {decoded : Any}
    (h : decodeJSONValue syntaxError encoded = .ok decoded) :
    ∃ v, parseAs id encoded = some v ∧ decoded = anyOf v := by
  unfold decodeJSONValue at h
  split at h
  · cases h
  rename_i v trailing hvalue
  split at h
  · rename_i hend
    cases h
    refine ⟨v, ?_, rfl⟩
    rw [parseAs, hvalue]
    exact if_pos hend
  · cases h

/-- A decoded object is what its text denotes if and only if no half pair is left. -/
theorem decodeJSONObject_denotes {document : Document} {object : List (GoString × Any)}
    (h : decodeJSONObject syntaxError decodeBSONObject document = .ok (.json, object)) :
    ∃ fields, parseAs id document.payload = some (.object fields) ∧
      (Denotes (.object fields) (.map object) ↔ fieldsPaired fields = true) := by
  obtain ⟨-, -, h⟩ := bind_ok h
  obtain ⟨decoded, hdecoded, h⟩ := bind_ok h
  split at h
  · obtain ⟨hjson, rfl⟩ := Prod.mk.inj (Except.ok.inj h)
    rw [if_neg (by rw [hjson]; decide)] at hdecoded
    obtain ⟨v, hparse, hv⟩ := decodeJSONValue_ok syntaxError hdecoded
    cases v with
    | object fields =>
      refine ⟨fields, hparse, ?_⟩
      rw [hv]
      exact denotes_iff (.object fields)
    | _ => cases hv
  · cases h

/-- A field that writes half a pair is replaced by a later one of its name. -/
theorem decodeJSONObject_denotes_replaced :
    ∃ document object, document = (⟨.json, lit "\x7b\"a\":\"\\ud800\",\"a\":1\x7d"⟩ : Document) ∧
      decodeJSONObject (.text []) (fun _ => .ok .null) document = .ok (.json, object) ∧
      object = [(lit "a", .number (lit "1"))] ∧
      ∃ fields, parseAs id document.payload = some (.object fields) ∧
        Denotes (.object fields) (.map object) := by
  refine ⟨_, _, rfl, rfl, rfl, ?_⟩
  obtain ⟨fields, hparse, hiff⟩ := decodeJSONObject_denotes (.text []) (fun _ => .ok .null)
    (show decodeJSONObject _ _ ⟨.json, lit "\x7b\"a\":\"\\ud800\",\"a\":1\x7d"⟩ = _ from rfl)
  refine ⟨fields, hparse, hiff.mpr ?_⟩
  cases hparse
  decide

/-- Two names that are half a pair each become one. -/
theorem decodeJSONObject_collapses :
    ∃ document object fields, validateDocument validJSON document = .ok () ∧
      (∀ syntaxError decodeBSONObject,
        decodeJSONObject syntaxError decodeBSONObject document = .ok (.json, object)) ∧
      object = [([0xEF, 0xBF, 0xBD], .number [0x32])] ∧
      parseAs id document.payload = some (.object fields) ∧
      fields = [([.code 0xD800], .number [0x31]), ([.code 0xD801], .number [0x32])] ∧
      ¬Denotes (.object fields) (.map object) := by
  refine ⟨⟨.json, lit "\x7b\"\\ud800\":1,\"\\ud801\":2\x7d"⟩, _, _, by decide +kernel,
    fun _ _ => rfl, rfl, rfl, rfl, fun h => ?_⟩
  exact absurd ((denotes_iff (.object _)).mp h) (by decide)

end Sink.Merge
