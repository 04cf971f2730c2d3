import Sink.Records.Addresses
import Sink.Records.Validation

/-!
# Stored documents

The second half of `mongodb/bson.go`. A record is stored as one document: the
fields of the user's document, its `_id` before them if it has none, and after
them a field with the revision. `replacement` makes it, `userDocument` takes it
apart.

`MongoDriver` holds the texts of the driver's errors, which the code passes on,
and the check of JSON, which it never reaches. The driver copies raw values, so
what it marshals is `BsonWire.marshal`.
-/

namespace Sink.Records

open BsonWire List
open Sink.Scan (validUTF8)

variable {expectedID : RawValue} {fields : List Element} {id : MongoID} {revision : Revision}
  {stored : List UInt8}

structure MongoDriver where
  /-- `%q`. -/
  quote : GoString → GoString
  validJSON : List UInt8 → Bool
  /-- What `Validate` and `Elements` of a raw document fail with. -/
  elementsError : List UInt8 → GoError
  /-- What `bson.Marshal` fails with. -/
  marshalError : List Element → GoError

variable (driver : MongoDriver) (metadataField : GoString)

def idElement (id : MongoID) : Element := { key := lit "_id", raw := rawValue id }

/-- The document with the revision. -/
def metadata (revision : Revision) : List Element :=
  [{ key := lit "revision", raw := ⟨typeBinary, binaryBytes 0 revision⟩ }]

def metadataElement (revision : Revision) : Element :=
  { key := metadataField, raw := ⟨typeEmbeddedDocument, documentBytes (metadata revision)⟩ }

/-- The loop of `replacement`, which keeps every field: whether there is an `_id`. -/
def checkFields (expectedID : RawValue) : Bool → List Element → Fallible Bool
  | foundID, [] => .ok foundID
  | foundID, element :: rest =>
    if element.key = metadataField then
      .error (.text (lit "document field " ++ driver.quote metadataField ++
        lit " is reserved by Sink"))
    else if element.key = lit "_id" then
      if foundID then refuse "document contains more than one _id field"
      else if !recordIDsEqual element.raw expectedID then
        refuse "document _id does not match the logical record key"
      else checkFields expectedID true rest
    else checkFields expectedID foundID rest

def replacement (document : Document) (id : MongoID) (revision : Revision) :
    Fallible (List UInt8) :=
  if document.encoding ≠ .bson then
    refuse "MongoDB storage requires BSON document encoding"
  else do
    validateDocument driver.validJSON document
    match elements document.payload with
    | none =>
      let err := driver.elementsError document.payload
      .error (.wrapped (lit "read BSON document elements: " ++ err.message) err)
    | some elements => do
      let foundID ← checkFields driver metadataField (rawValue id) false elements
      let replacement :=
        (if foundID then elements else idElement id :: elements) ++
          [metadataElement metadataField revision]
      match marshal replacement with
      | none =>
        let err := driver.marshalError replacement
        .error (.wrapped
          (lit "encode MongoDB replacement document: " ++ err.message) err)
      | some encoded => .ok encoded

def storedRevision (raw : RawValue) : Fallible Revision :=
  let failed (problem : String) :=
    .error (.text (lit "stored document field " ++ driver.quote metadataField ++ lit problem))
  if raw.type ≠ typeEmbeddedDocument then failed " is not a document"
  else
    match readDocument raw.value with
    | none => failed " is not a document"
    | some (metadata, _) =>
      match lookup metadata (lit "revision") with
      | none => failed " has no revision"
      | some value =>
        if value.type ≠ typeBinary then failed " has an invalid revision"
        else
          match readBinary value.value with
          | none => failed " has an invalid revision"
          | some (subtype, data, _) =>
            if subtype ≠ 0 || data.isEmpty then failed " has an invalid revision"
            else .ok data

/-- The loop of `userDocument`. -/
def userFields : Bool → Revision → List Element → Fallible (List Element × Revision)
  | _, revision, [] => .ok ([], revision)
  | foundMetadata, revision, element :: rest =>
    if element.key ≠ metadataField then do
      let (fields, revision) ← userFields foundMetadata revision rest
      .ok (element :: fields, revision)
    else if foundMetadata then
      .error (.text (lit "stored document contains more than one " ++
        driver.quote metadataField ++ lit " field"))
    else do
      let revision ← storedRevision driver metadataField element.raw
      userFields true revision rest

def userDocument (raw : List UInt8) : Fallible (Document × Revision) :=
  match elements raw with
  | none =>
    let err := driver.elementsError raw
    .error (.wrapped (lit "validate stored BSON document: " ++ err.message) err)
  | some elements => do
    let (fields, revision) ← userFields driver metadataField false [] elements
    match marshal fields with
    | none =>
      let err := driver.marshalError fields
      .error (.wrapped (lit "encode user BSON document: " ++ err.message) err)
    | some encoded => .ok ({ encoding := .bson, payload := encoded }, revision)

/-! ## The fields of a stored document -/

def hasID (fields : List Element) : Bool := fields.any fun field => field.key = lit "_id"

/-- The fields with the `_id` of the record, if they had none. -/
def withID (id : MongoID) (fields : List Element) : List Element :=
  if hasID fields then fields else idElement id :: fields

/-- What `replacement` asks of the fields of a document. -/
structure Storable (expectedID : RawValue) (fields : List Element) : Prop where
  free : ∀ field ∈ fields, field.key ≠ metadataField
  matching : ∀ field ∈ fields, field.key = lit "_id" → recordIDsEqual field.raw expectedID = true
  single : fields.countP (fun field => field.key = lit "_id") ≤ 1

variable {driver metadataField}

theorem hasID_cons (field : Element) (fields : List Element) :
    hasID (field :: fields) = (decide (field.key = lit "_id") || hasID fields) := rfl

theorem hasID_withID (id : MongoID) (fields : List Element) : hasID (withID id fields) = true := by
  rw [withID]
  split
  · assumption
  · rfl

theorem withID_withID (id : MongoID) (fields : List Element) :
    withID id (withID id fields) = withID id fields := by
  rw [withID, if_pos (hasID_withID id fields)]

/-- The loop ends well exactly for the fields that it should. -/
theorem checkFields_ok_iff {foundID result : Bool} :
    checkFields driver metadataField expectedID foundID fields = .ok result ↔
      (∀ field ∈ fields, field.key ≠ metadataField ∧
        (field.key = lit "_id" → recordIDsEqual field.raw expectedID = true)) ∧
      foundID.toNat + fields.countP (fun field => field.key = lit "_id") ≤ 1 ∧
      result = (foundID || hasID fields) := by
  induction fields generalizing foundID with
  | nil =>
    rw [checkFields, Except.ok.injEq]
    cases foundID <;> cases result <;> simp [hasID]
  | cons field rest ih =>
    rw [checkFields, forall_mem_cons, countP_cons, hasID_cons]
    by_cases hreserved : field.key = metadataField
    · simp [hreserved]
    rw [if_neg hreserved]
    by_cases hkey : field.key = lit "_id"
    · rw [if_pos hkey]
      cases foundID with
      | true => simp [hkey]
      | false =>
        rw [if_neg Bool.false_ne_true]
        cases hequal : recordIDsEqual field.raw expectedID with
        | false => simp [hkey]
        | true =>
          rw [hkey] at hreserved
          rw [Bool.not_true, if_neg Bool.false_ne_true, ih]
          simp [hkey, hreserved, Nat.add_comm]
    · rw [if_neg hkey, ih]
      simp [hkey, hreserved]

theorem checkFields_of_storable (h : Storable metadataField expectedID fields) :
    checkFields driver metadataField expectedID false fields = .ok (hasID fields) := by
  refine checkFields_ok_iff.mpr ⟨?_, ?_, rfl⟩
  · intro field hmem
    exact ⟨h.free field hmem, h.matching field hmem⟩
  · have hsingle := h.single
    rw [Bool.toNat_false]
    omega

theorem storable_of_checkFields {result : Bool}
    (h : checkFields driver metadataField expectedID false fields = .ok result) :
    Storable metadataField expectedID fields ∧ result = hasID fields := by
  obtain ⟨hfields, hsingle, hresult⟩ := checkFields_ok_iff.mp h
  exact ⟨⟨fun field hmem => (hfields field hmem).1, fun field hmem => (hfields field hmem).2,
    by omega⟩, hresult⟩

theorem recordIDsEqual_refl (raw : RawValue) : recordIDsEqual raw raw = true :=
  recordIDsEqual_iff.mpr (.inl rfl)

theorem Storable.withID (h : Storable metadataField (rawValue id) fields)
    (hname : metadataField ≠ lit "_id") :
    Storable metadataField (rawValue id) (withID id fields) := by
  rw [Records.withID]
  split
  · exact h
  rename_i hnone
  refine ⟨?_, ?_, ?_⟩
  · exact forall_mem_cons.mpr ⟨hname.symm, h.free⟩
  · intro field hmem hkey
    rcases mem_cons.mp hmem with rfl | hmem
    · exact recordIDsEqual_refl _
    · exact h.matching field hmem hkey
  · have hzero : fields.countP (fun field => field.key = lit "_id") = 0 := by
      rw [countP_eq_zero]
      intro field hmem hkey
      exact hnone (any_eq_true.mpr ⟨field, hmem, hkey⟩)
    rw [countP_cons, hzero]
    simp [idElement]

/-! ## Values that Sink writes -/

variable {key : Key}

theorem rawValue_framed (made : id.Made key) (h : (rawValue id).value.length < 2 ^ 31) :
    Framed (rawValue id) := by
  cases id with
  | string text =>
    have hlength : (stringBytes text).length < 2 ^ 31 := h
    rw [length_stringBytes] at hlength
    exact framed_string (by omega)
  | int64 value =>
    have hlength : (int64Bytes value).length = 8 := Bytes.length_toLittleEndian _ _
    exact framed_fixed (by rw [hlength]; rfl)
  | binary data =>
    have hlength : (binaryBytes 0 data).length < 2 ^ 31 := h
    rw [length_binaryBytes] at hlength
    exact framed_binary 0 (by omega)
  | objectID data => exact framed_fixed (by rw [made.2]; rfl)

/-- The texts of ids are UTF-8. -/
def MongoID.Textual : MongoID → Prop
  | .string text => validUTF8 text = true
  | _ => True

theorem validateBSONString_stringBytes {text : List UInt8} (h : text.length + 1 < 2 ^ 31)
    (valid : validUTF8 text = true) : validateBSONString (stringBytes text) = .ok [] := by
  have hlast : (text ++ [0])[text.length]? = some 0 := by simp
  have hlength : (text ++ [(0 : UInt8)]).length = text.length + 1 := by simp
  rw [validateBSONString, stringBytes, readLength_toLittleEndian h]
  dsimp only
  rw [Nat.add_sub_cancel, take_left, hlast, valid, hlength, ← hlength, drop_length]
  simp

theorem idElement_accepted {container}
    (textual : id.Textual) (h : (rawValue id).value.length < 2 ^ 31) :
    Accepted container (idElement id) := by
  refine ⟨show validUTF8 (lit "_id") = true by decide, ?_⟩
  cases id with
  | string text =>
    have hlength : (stringBytes text).length < 2 ^ 31 := h
    rw [length_stringBytes] at hlength
    simp [idElement, rawValue, validateBSONValue, typeString, typeEmbeddedDocument, typeArray,
      validateBSONString_stringBytes (by omega) textual]
  | int64 value => rfl
  | binary data =>
    have hlength : (binaryBytes 0 data).length < 2 ^ 31 := h
    rw [length_binaryBytes] at hlength
    have hread : readBinary (binaryBytes 0 data) = some (0, data, []) :=
      readBinary_binaryBytes (by omega) (by decide)
    simp [idElement, rawValue, validateBSONValue, typeBinary, typeEmbeddedDocument, typeArray,
      typeString, typeJavaScript, typeSymbol, typeCodeWithScope, typeBoolean, hread]
  | objectID data => rfl

theorem metadataElement_framed
    (h : (metadataElement metadataField revision).raw.value.length < 2 ^ 31) :
    Framed (metadataElement metadataField revision).raw := by
  have hsize : (documentBytes (metadata revision)).length < 2 ^ 31 := h
  rw [length_documentBytes] at hsize
  exact framed_document hsize

theorem storedRevision_metadata (hrevision : revision ≠ [])
    (h : (metadataElement metadataField revision).raw.value.length < 2 ^ 31) :
    storedRevision driver metadataField (metadataElement metadataField revision).raw =
      .ok revision := by
  have hsize : (documentBytes (metadata revision)).length < 2 ^ 31 := h
  rw [length_documentBytes] at hsize
  have hmem : { key := lit "revision", raw := ⟨typeBinary, binaryBytes 0 revision⟩ } ∈
      metadata revision := mem_singleton.mpr rfl
  have hbinary := length_lt_size hmem
  rw [length_binaryBytes] at hbinary
  have hname : 0 ∉ lit "revision" := by decide
  have hlookup : lookup (documentBytes (metadata revision)) (lit "revision") =
      some ⟨typeBinary, binaryBytes 0 revision⟩ :=
    lookup_documentBytes hsize hname (framed_binary 0 (by omega))
  rw [storedRevision, metadataElement]
  rw [if_neg (not_not.mpr rfl), readDocument_documentBytes hsize]
  dsimp only
  rw [hlookup]
  dsimp only
  rw [if_neg (not_not.mpr rfl), readBinary_binaryBytes (by omega) (by decide)]
  dsimp only
  rw [if_neg (by simp [hrevision])]

theorem userFields_append {rest others found revision'}
    (free : ∀ field ∈ fields, field.key ≠ metadataField)
    (h : userFields driver metadataField found revision rest = .ok (others, revision')) :
    userFields driver metadataField found revision (fields ++ rest) =
      .ok (fields ++ others, revision') := by
  induction fields with
  | nil => exact h
  | cons field fields ih =>
    rw [cons_append, userFields, if_pos (free field mem_cons_self),
      ih fun other hmem => free other (mem_cons_of_mem _ hmem)]
    rfl

theorem userDocument_stored
    (h : marshal (fields ++ [metadataElement metadataField revision]) = some stored)
    (free : ∀ field ∈ fields, field.key ≠ metadataField)
    (framed : ∀ field ∈ fields, Framed field.raw) (hrevision : revision ≠ []) :
    elements stored = some (fields ++ [metadataElement metadataField revision]) ∧
      marshal fields = some (documentBytes fields) ∧
      userDocument driver metadataField stored =
        .ok ({ encoding := .bson, payload := documentBytes fields }, revision) := by
  obtain ⟨_, hsize, hnames⟩ := marshal_eq h
  have hmetadata : (metadataElement metadataField revision).raw.value.length < 2 ^ 31 :=
    Nat.lt_trans (length_lt_size (mem_append_right _ (mem_singleton.mpr rfl))) hsize
  have hstored : elements stored = some (fields ++ [metadataElement metadataField revision]) := by
    refine elements_marshal h ?_
    intro field hmem
    rcases mem_append.mp hmem with hmem | hmem
    · exact framed field hmem
    · rw [mem_singleton.mp hmem]
      exact metadataElement_framed hmetadata
  have hmarshal : marshal fields = some (documentBytes fields) :=
    marshal_of_names (Nat.lt_of_le_of_lt (size_append _ _) hsize) (forall_mem_append.mp hnames).1
  have hlast : userFields driver metadataField false []
      [metadataElement metadataField revision] = .ok ([], revision) := by
    have hkey : (metadataElement metadataField revision).key = metadataField := rfl
    rw [userFields, if_neg (not_not.mpr hkey), if_neg Bool.false_ne_true,
      storedRevision_metadata hrevision hmetadata]
    rfl
  have hfields := userFields_append free hlast
  rw [append_nil] at hfields
  refine ⟨hstored, hmarshal, ?_⟩
  simp only [userDocument, hstored, hfields, ok_bind, hmarshal]

/-! ## Storing a document -/

variable {document : Document}

theorem replacement_eq (h : replacement driver metadataField document id revision = .ok stored) :
    ∃ fields, elements document.payload = some fields ∧
      validateBSONDocument document.payload = .ok () ∧
      Storable metadataField (rawValue id) fields ∧
      marshal (withID id fields ++ [metadataElement metadataField revision]) = some stored := by
  unfold replacement at h
  split at h
  · cases h
  rename_i hencoding
  obtain ⟨⟨⟩, hvalid, h⟩ := bind_ok h
  split at h
  · cases h
  rename_i fields hfields
  obtain ⟨found, hfound, h⟩ := bind_ok h
  dsimp only at h
  split at h
  · cases h
  rename_i encoded hencoded
  cases h
  obtain ⟨hstorable, rfl⟩ := storable_of_checkFields hfound
  refine ⟨fields, hfields, ?_, hstorable, hencoded⟩
  rw [validateDocument, not_not.mp hencoding] at hvalid
  dsimp only at hvalid
  split at hvalid
  · cases hvalid
  · assumption

variable {payload : List UInt8}

theorem replacement_of_valid (helements : elements payload = some fields)
    (valid : validateBSONDocument payload = .ok ())
    (storable : Storable metadataField (rawValue id) fields) :
    replacement driver metadataField { encoding := .bson, payload } id revision =
      match marshal (withID id fields ++ [metadataElement metadataField revision]) with
      | none => .error (.wrapped (lit "encode MongoDB replacement document: " ++
          (driver.marshalError (withID id fields ++
            [metadataElement metadataField revision])).message)
          (driver.marshalError (withID id fields ++ [metadataElement metadataField revision])))
      | some encoded => .ok encoded := by
  have hvalid : validateDocument driver.validJSON { encoding := .bson, payload } = .ok () := by
    rw [validateDocument]
    rw [valid]
  rw [replacement, if_neg (not_not.mpr rfl), hvalid, ok_bind, helements]
  dsimp only
  rw [checkFields_of_storable storable]
  rfl

/-- The fields of an accepted document, with its `_id`, can be read again, and be
accepted if the `_id` is UTF-8. -/
theorem withID_fields {others : List Element} (made : id.Made key)
    (helements : elements payload = some fields) (valid : validateBSONDocument payload = .ok ())
    (hsize : size (withID id fields ++ others) < 2 ^ 31) :
    ∀ field ∈ withID id fields, 0 ∉ field.key ∧ Framed field.raw ∧
      (id.Textual → Accepted (validateBSONContainer maxBSONDepth) field) := by
  obtain ⟨_, helements', haccepted⟩ := validateBSONDocument_elements valid
  cases helements.symm.trans helements'
  have hfields : ∀ field ∈ fields, 0 ∉ field.key ∧ Framed field.raw ∧
      (id.Textual → Accepted (validateBSONContainer maxBSONDepth) field) := by
    intro field hmem
    obtain ⟨hok, hframed, hname⟩ := haccepted field hmem
    exact ⟨hname, hframed, fun _ => hok⟩
  intro field hmem
  have hlength := Nat.lt_trans (length_lt_size (mem_append_left others hmem)) hsize
  rw [withID] at hmem
  split at hmem
  · exact hfields field hmem
  rcases mem_cons.mp hmem with rfl | hmem
  · exact ⟨show 0 ∉ lit "_id" by decide, rawValue_framed made hlength,
      fun htextual => idElement_accepted htextual hlength⟩
  · exact hfields field hmem

theorem MongoID.Made.textual (made : id.Made key)
    (h : key.type = lit "string" → validUTF8 key.data = true) : id.Textual := by
  cases id with
  | string text =>
    have hkey : key = { type := lit "string", data := text } := made
    rw [hkey] at h
    exact h rfl
  | int64 _ | binary _ | objectID _ => trivial

/-- Documents survive storage. The fields that were stored come back, with the
`_id` of the record before them if they had none, and so does the revision. What
came back can be stored with another revision, and only the revision changes, if
the `_id` is UTF-8 and the driver can write a document so large. A document with
the reserved field, or with an `_id` that is not the record's or not the only
one, is refused. -/
theorem documents_survive_storage (lib : KeyLibrary) (driver : MongoDriver)
    (metadataField : GoString) (hfield : metadataField ≠ lit "_id") (key : Key) (id : MongoID)
    (hid : mongoID lib key = .ok id) (document : Document) (revision : Revision)
    (hrevision : revision ≠ []) :
    (∀ stored, replacement driver metadataField document id revision = .ok stored →
      ∃ fields user, elements document.payload = some fields ∧
        userDocument driver metadataField stored = .ok (user, revision) ∧
        user.encoding = .bson ∧ elements user.payload = some (withID id fields) ∧
        ((key.type = lit "string" → validUTF8 key.data = true) →
          ∀ revision', revision' ≠ [] →
            size (withID id fields ++ [metadataElement metadataField revision']) < 2 ^ 31 →
          ∃ stored', replacement driver metadataField user id revision' = .ok stored' ∧
            userDocument driver metadataField stored' = .ok (user, revision') ∧
            elements stored = some (withID id fields ++ [metadataElement metadataField revision]) ∧
            elements stored' =
              some (withID id fields ++ [metadataElement metadataField revision']))) ∧
    (∀ fields, elements document.payload = some fields →
      (∃ field ∈ fields, field.key = metadataField) ∨
        1 < fields.countP (fun field => field.key = lit "_id") ∨
        (∃ field ∈ fields, field.key = lit "_id" ∧ recordIDsEqual field.raw (rawValue id) = false) →
      ∃ err, replacement driver metadataField document id revision = .error err) := by
  have hmade := mongoID_made hid
  constructor
  · intro stored h
    obtain ⟨fields, helements, hvalid, hstorable, hmarshal⟩ := replacement_eq h
    obtain ⟨_, hsize, hnames⟩ := marshal_eq hmarshal
    have hfields := withID_fields hmade helements hvalid hsize
    have hframed : ∀ field ∈ withID id fields, Framed field.raw :=
      fun field hmem => (hfields field hmem).2.1
    have hfree := (hstorable.withID hfield).free
    obtain ⟨hstored, huser, hdocument⟩ :=
      userDocument_stored hmarshal hfree hframed hrevision
    refine ⟨fields, { encoding := .bson, payload := documentBytes (withID id fields) }, helements,
      hdocument, rfl, elements_marshal huser hframed, ?_⟩
    intro hutf8 revision' hrevision' hsize'
    have htextual := hmade.textual hutf8
    have hagain : validateBSONDocument (documentBytes (withID id fields)) = .ok () :=
      validateBSONDocument_marshal huser (fun field hmem => (hfields field hmem).2.2 htextual)
        hframed
    have hnames' : ∀ field ∈ withID id fields ++ [metadataElement metadataField revision'],
        0 ∉ field.key := by
      intro field hmem
      rcases mem_append.mp hmem with hmem | hmem
      · exact (hfields field hmem).1
      rw [mem_singleton.mp hmem]
      exact hnames (metadataElement metadataField revision)
        (mem_append_right _ (mem_singleton.mpr rfl))
    have hmarshal' := marshal_of_names hsize' hnames'
    obtain ⟨hstored', _, hdocument'⟩ :=
      userDocument_stored hmarshal' hfree hframed hrevision'
    refine ⟨_, ?_, hdocument', hstored, hstored'⟩
    rw [replacement_of_valid (elements_marshal huser hframed) hagain (hstorable.withID hfield),
      withID_withID, hmarshal']
  · intro fields helements hbad
    cases h : replacement driver metadataField document id revision with
    | error err => exact ⟨err, rfl⟩
    | ok stored =>
      obtain ⟨_, helements', _, hstorable, _⟩ := replacement_eq h
      cases helements.symm.trans helements'
      rcases hbad with ⟨field, hmem, hkey⟩ | hcount | ⟨field, hmem, hkey, hequal⟩
      · exact absurd hkey (hstorable.free field hmem)
      · have hsingle := hstorable.single
        omega
      · rw [hstorable.matching field hmem hkey] at hequal
        cases hequal

def plainDriver : MongoDriver where
  quote := fun s => 0x22 :: (s ++ [0x22])
  validJSON := fun _ => false
  elementsError := fun _ => .text (lit "insufficient bytes")
  marshalError := fun _ => .text (lit "cannot encode")

/-- A document with one field that is no id. -/
def smallDocument : Document :=
  { encoding := .bson, payload := [12, 0, 0, 0, 0x10, 0x61, 0, 7, 0, 0, 0, 0] }

/-- What is stored of it under a key of one byte, and what comes back. -/
def smallStored (b : UInt8) : List UInt8 :=
  [51, 0, 0, 0, 2, 95, 105, 100, 0, 2, 0, 0, 0, b, 0, 16, 97, 0, 7, 0, 0, 0, 3, 95, 115, 105, 110,
    107, 0, 21, 0, 0, 0, 5, 114, 101, 118, 105, 115, 105, 111, 110, 0, 1, 0, 0, 0, 0, 1, 0, 0]

def smallRestored (b : UInt8) : Document :=
  { encoding := .bson,
    payload := [23, 0, 0, 0, 2, 95, 105, 100, 0, 2, 0, 0, 0, b, 0, 16, 97, 0, 7, 0, 0, 0, 0] }

theorem documents_survive_storage_small :
    replacement plainDriver (lit "_sink") smallDocument (.string [0x6B]) [1] =
      .ok (smallStored 0x6B) ∧
    ∃ stored', replacement plainDriver (lit "_sink") (smallRestored 0x6B) (.string [0x6B]) [2] =
      .ok stored' := by
  have hstored : replacement plainDriver (lit "_sink") smallDocument (.string [0x6B]) [1] =
      .ok (smallStored 0x6B) := by decide +kernel
  have huser : userDocument plainDriver (lit "_sink") (smallStored 0x6B) =
      .ok (smallRestored 0x6B, [1]) := by decide +kernel
  have hkey : mongoID plainKeys { type := lit "string", data := [0x6B] } =
      .ok (.string [0x6B]) := by decide
  have hall := documents_survive_storage plainKeys plainDriver (lit "_sink") (by decide) _ _ hkey
    smallDocument [1] (by decide)
  obtain ⟨fields, user, hfields, hrestored, _, _, hagain⟩ := hall.1 _ hstored
  obtain rfl : smallRestored 0x6B = user := by
    exact (Prod.mk.inj (Except.ok.inj hrestored)).1
  have hread : elements smallDocument.payload =
      some [{ key := lit "a", raw := ⟨typeInt32, [7, 0, 0, 0]⟩ }] := by decide +kernel
  cases hread.symm.trans hfields
  obtain ⟨stored', hstored', _⟩ := hagain (fun _ => by decide) [2] (by decide) (by decide +kernel)
  exact ⟨hstored, stored', hstored'⟩

/-- A revision is shorter than the document that holds it. -/
theorem length_lt_of_replacement
    (h : replacement driver metadataField document id revision = .ok stored) :
    revision.length < 2 ^ 31 := by
  obtain ⟨fields, _, _, _, hmarshal⟩ := replacement_eq h
  obtain ⟨_, hsize, _⟩ := marshal_eq hmarshal
  have hmem : metadataElement metadataField revision ∈
      withID id fields ++ [metadataElement metadataField revision] :=
    mem_append_right _ (mem_singleton.mpr rfl)
  have hdocument : (documentBytes (metadata revision)).length < _ := length_lt_size hmem
  have hbinary : { key := lit "revision", raw := ⟨typeBinary, binaryBytes 0 revision⟩ } ∈
      metadata revision := mem_singleton.mpr rfl
  have hrevision := length_lt_size hbinary
  rw [length_documentBytes] at hdocument
  rw [length_binaryBytes] at hrevision
  omega

/-- What came back is not always accepted again: not if the `_id` that was put
into it is no UTF-8, and not with a revision of `2 ^ 31` bytes. -/
theorem restored_document_refused :
    (mongoID plainKeys { type := lit "string", data := [0xFF] } = .ok (.string [0xFF]) ∧
      replacement plainDriver (lit "_sink") smallDocument (.string [0xFF]) [1] =
        .ok (smallStored 0xFF) ∧
      userDocument plainDriver (lit "_sink") (smallStored 0xFF) = .ok (smallRestored 0xFF, [1]) ∧
      ∃ err, replacement plainDriver (lit "_sink") (smallRestored 0xFF) (.string [0xFF]) [2] =
        .error err) ∧
    (replacement plainDriver (lit "_sink") smallDocument (.string [0x6B]) [1] =
        .ok (smallStored 0x6B) ∧
      userDocument plainDriver (lit "_sink") (smallStored 0x6B) = .ok (smallRestored 0x6B, [1]) ∧
      ∃ revision err, revision ≠ [] ∧
        replacement plainDriver (lit "_sink") (smallRestored 0x6B) (.string [0x6B]) revision =
          .error err) := by
  refine ⟨⟨by decide, by decide +kernel, by decide +kernel, ?_⟩, by decide +kernel,
    by decide +kernel, replicate (2 ^ 31) 0, ?_⟩
  · refine ⟨.wrapped ?_ (.text (lit "invalid BSON string")), ?_⟩
    · exact lit "document payload must contain a valid BSON document: invalid BSON string"
    · decide +kernel
  · cases h : replacement plainDriver (lit "_sink") (smallRestored 0x6B) (.string [0x6B])
        (replicate (2 ^ 31) 0) with
    | error err =>
      refine ⟨err, ?_, rfl⟩
      intro hempty
      have hlength := congrArg length hempty
      rw [length_replicate, length_nil] at hlength
      omega
    | ok stored =>
      have hlength := length_lt_of_replacement h
      rw [length_replicate] at hlength
      omega

end Sink.Records
