import Sink.Lib.BsonWire
import Sink.Scan.Cursor

/-!
# Validation of documents

`storage/bson.go` and `storage/document.go`: a BSON document is accepted if it
is one document and every document, array and code scope in it is, to a depth of
256, if its names and texts are UTF-8 and the values of each type have the shape
of the type.

The driver's reading of one level is `BsonWire`. A container is checked with the
number of levels that are left, so that the check of nested containers is a
parameter of what is done at one level.
-/

namespace Sink.Records

open BsonWire
open Sink.Scan (validUTF8)

def maxBSONDepth : Nat := 256

/-- What follows the text. -/
def validateBSONString (payload : List UInt8) : Fallible (List UInt8) :=
  let invalid := refuse "invalid BSON string length, terminator or UTF-8"
  match readLength payload with
  | none => invalid
  | some (length, remaining) =>
    if length < 1 || remaining.length < length || remaining[length - 1]? != some 0 ||
        !validUTF8 (remaining.take (length - 1)) then invalid
    else .ok (remaining.drop length)

section

-- the check of a container one level down
variable (container : List UInt8 → Bool → Fallible Unit)

def validateBSONValue (raw : RawValue) : Fallible Unit :=
  if raw.type = typeEmbeddedDocument || raw.type = typeArray then
    container raw.value (raw.type == typeArray)
  else if raw.type = typeString || raw.type = typeJavaScript || raw.type = typeSymbol then
    match validateBSONString raw.value with
    | .ok [] => .ok ()
    | _ => refuse "invalid BSON string"
  else if raw.type = typeCodeWithScope then
    if raw.value.length < 4 then refuse "invalid BSON code with scope"
    else do
      let scope ← validateBSONString (raw.value.drop 4)
      container scope false
  else if raw.type = typeBoolean then
    -- an element of this type has one byte
    if raw.value.any (1 < ·) then refuse "invalid BSON boolean" else .ok ()
  else if raw.type = typeBinary then
    match readBinary raw.value with
    | some (_, _, []) => .ok ()
    | _ => refuse "invalid BSON binary length"
  else if raw.type = typeDBPointer then
    match validateBSONString raw.value with
    | .ok remaining =>
      if remaining.length ≠ 12 then refuse "invalid BSON DBPointer" else .ok ()
    | .error _ => refuse "invalid BSON DBPointer"
  else if raw.type = typeRegex then
    if !validUTF8 raw.value then
      refuse "BSON regular expression contains invalid UTF-8"
    else .ok ()
  else .ok ()

/-- The loop over the elements of a container, from the element of the index. -/
def validateElements (array : Bool) : Nat → Nat → List UInt8 → Fallible Unit
  | _, _, [] => .ok ()
  | 0, _, _ :: _ => refuse "invalid BSON element"
  | fuel + 1, index, b :: remaining =>
    match readElement (b :: remaining) with
    | none => refuse "invalid BSON element"
    | some (element, rest) =>
      if !validUTF8 element.key then
        refuse "BSON field name contains invalid UTF-8"
      else if array && element.key != decimal index then
        .error (.text
          (lit "BSON array keys must be consecutive decimal indexes starting at zero"))
      else do
        validateBSONValue container element.raw
        validateElements array fuel (index + 1) rest

end

/-- `validateBSONContainer`, with the levels that are left. -/
def validateBSONContainer : Nat → List UInt8 → Bool → Fallible Unit
  | 0, _, _ => .error (.text (lit "BSON nesting exceeds " ++ decimal maxBSONDepth))
  | levels + 1, payload, array =>
    match contents payload with
    | none => refuse "invalid BSON document length or terminator"
    | some remaining =>
      validateElements (validateBSONContainer levels) array remaining.length 0 remaining

def validateBSONDocument (payload : List UInt8) : Fallible Unit :=
  validateBSONContainer (maxBSONDepth + 1) payload false

/-- `storage.ValidateDocument`, with `validJSON` what it asks of a JSON payload. -/
def validateDocument (validJSON : List UInt8 → Bool) (document : Document) :
    Fallible Unit :=
  match document.encoding with
  | .json =>
    if validJSON document.payload then .ok ()
    else refuse "document payload must contain a valid UTF-8 JSON object"
  | .bson =>
    match validateBSONDocument document.payload with
    | .error err =>
      .error (.wrapped
        (lit "document payload must contain a valid BSON document: " ++ err.message) err)
    | .ok () => .ok ()
  | .unspecified => refuse "document encoding is required"

/-! ## Accepted elements -/

/-- What the loop asks of one element of a document. -/
def Accepted (container : List UInt8 → Bool → Fallible Unit) (element : Element) : Prop :=
  validUTF8 element.key = true ∧ validateBSONValue container element.raw = .ok ()

/-- The loop accepts the elements that are read, one by one. -/
theorem validateElements_ok_iff {container fuel index src} :
    validateElements container false fuel index src = .ok () ↔
      ∃ elements, elementsFrom fuel src = some elements ∧
        ∀ element ∈ elements, Accepted container element := by
  induction fuel generalizing index src with
  | zero =>
    cases src with
    | nil =>
      refine ⟨fun _ => ⟨[], elementsFrom.eq_1 0, fun _ h => absurd h List.not_mem_nil⟩, fun _ => ?_⟩
      rw [validateElements]
    | cons b src =>
      constructor
      · intro h
        cases h
      · rintro ⟨elements, h, _⟩
        cases h
  | succ fuel ih =>
    cases src with
    | nil =>
      refine ⟨fun _ => ⟨[], elementsFrom.eq_1 _, fun _ h => absurd h List.not_mem_nil⟩, fun _ => ?_⟩
      rw [validateElements]
    | cons b src =>
      rw [validateElements, elementsFrom]
      cases hread : readElement (b :: src) with
      | none =>
        constructor
        · intro h
          cases h
        · rintro ⟨_, h, _⟩
          cases h
      | some read =>
        obtain ⟨element, rest⟩ := read
        dsimp only
        rw [Bool.false_and]
        constructor
        · intro h
          split at h
          · cases h
          rename_i hkey
          rw [if_neg Bool.false_ne_true] at h
          obtain ⟨⟨⟩, hvalue, h⟩ := bind_ok h
          obtain ⟨elements, hrest, haccepted⟩ := ih.mp h
          refine ⟨element :: elements, by rw [hrest]; rfl, ?_⟩
          exact List.forall_mem_cons.mpr ⟨⟨by simpa using hkey, hvalue⟩, haccepted⟩
        · rintro ⟨elements, h, haccepted⟩
          cases hrest : elementsFrom fuel rest with
          | none => rw [hrest] at h; cases h
          | some others =>
            rw [hrest] at h
            cases h
            obtain ⟨hkey, hvalue⟩ := haccepted element List.mem_cons_self
            rw [hkey, if_neg (by simp), if_neg Bool.false_ne_true, hvalue]
            exact ih.mpr ⟨others, hrest, fun other hmem =>
              haccepted other (List.mem_cons_of_mem _ hmem)⟩

theorem Accepted.long {levels : Nat} {element : Element}
    (h : Accepted (validateBSONContainer levels) element)
    (htype : element.raw.type = typeEmbeddedDocument ∨ element.raw.type = typeArray ∨
      element.raw.type = typeCodeWithScope) : 4 ≤ element.raw.value.length := by
  have hvalue := h.2
  have hcontainer : ∀ {payload : List UInt8} {array : Bool},
      validateBSONContainer levels payload array = .ok () → 4 ≤ payload.length := by
    intro payload array hok
    cases levels with
    | zero => cases hok
    | succ levels =>
      rw [validateBSONContainer] at hok
      split at hok
      · cases hok
      · rename_i hcontents
        exact contents_length hcontents
  rw [validateBSONValue] at hvalue
  rcases htype with htype | htype | htype
  · rw [if_pos (by rw [htype]; decide)] at hvalue
    exact hcontainer hvalue
  · rw [if_pos (by rw [htype]; decide)] at hvalue
    exact hcontainer hvalue
  · rw [htype, if_neg (by decide), if_neg (by decide), if_pos rfl] at hvalue
    split at hvalue
    · cases hvalue
    · rename_i hlength
      exact Nat.le_of_not_lt hlength

variable {payload : List UInt8}

/-- The elements of an accepted document: each is accepted and framed. -/
theorem validateBSONDocument_elements (h : validateBSONDocument payload = .ok ()) :
    ∃ elements, BsonWire.elements payload = some elements ∧
      ∀ element ∈ elements, Accepted (validateBSONContainer maxBSONDepth) element ∧
        Framed element.raw ∧ 0 ∉ element.key := by
  rw [validateBSONDocument, validateBSONContainer] at h
  split at h
  · cases h
  rename_i remaining hcontents
  obtain ⟨elements, hread, haccepted⟩ := validateElements_ok_iff.mp h
  have helements : BsonWire.elements payload = some elements := by
    rw [BsonWire.elements, hcontents, Option.bind_some, hread]
  refine ⟨elements, helements, ?_⟩
  intro element hmem
  obtain ⟨place, rest, hplace⟩ := elements_mem helements hmem
  exact ⟨haccepted element hmem, readElement_framed hplace (haccepted element hmem).long,
    (readElement_eq hplace).2.1⟩

theorem validateBSONDocument_marshal {elements : List Element} (h : marshal elements = some payload)
    (accepted : ∀ element ∈ elements, Accepted (validateBSONContainer maxBSONDepth) element)
    (framed : ∀ element ∈ elements, Framed element.raw) :
    validateBSONDocument payload = .ok () := by
  obtain ⟨rfl, hsize, hnames⟩ := marshal_eq h
  rw [validateBSONDocument, validateBSONContainer, contents_documentBytes hsize]
  exact validateElements_ok_iff.mpr ⟨elements,
    elementsFrom_bytes (fun element hmem => ⟨hnames element hmem, framed element hmem⟩)
      (Nat.le_refl _), accepted⟩

end Sink.Records
