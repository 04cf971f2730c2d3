import Sink.Records.Values

/-!
# Records and addresses

Different record addresses stand for different records. A search store keeps a
record under its index and the text that the backend reads of its document id;
all ids are UTF-8, so that text is the id. A MongoDB store keeps it under its
`_id`, and MongoDB takes two ids for one if `recordIDsEqual` holds of them.
-/

namespace Sink.Records

open Sink.Scan (validUTF8 validUTF8_ascii)

variable {lib : KeyLibrary}
variable {logicalStore : GoString} {address : RecordAddress} {record : ResolvedDocument}

/-! ## Document ids are UTF-8 -/

theorem encodeKeyPart_ascii (value : List UInt8) : ∀ b ∈ encodeKeyPart value, b < 0x80 := by
  intro b hmem
  have hletters : ∀ b ∈ (List.range 64).map Base64.symbol, b < 0x80 := by decide +kernel
  exact hletters b (Base64.encode_letters value b hmem)

variable {key : Key}

theorem Escape.Holds.ascii {escape : Escape} {body : GoString} (h : escape.Holds key body) :
    ∀ b ∈ body, b < 0x80 := by
  cases escape with
  | string => rw [h.2]; exact encodeKeyPart_ascii _
  | int64 => rw [h.2.2]; exact decimal_ascii _
  | bytes => rw [h.2]; exact encodeKeyPart_ascii _
  | typed =>
    obtain ⟨name, _, rfl⟩ := h
    intro b hmem
    rw [List.mem_append, List.mem_cons] at hmem
    rcases hmem with hname | rfl | hdata
    · exact encodeKeyPart_ascii _ b hname
    · decide
    · exact encodeKeyPart_ascii _ b hdata

theorem Identified.valid {id : GoString} (h : Identified key id)
    (valid : key.type = lit "string" → validUTF8 key.data = true) : validUTF8 id = true := by
  rcases h with ⟨htype, _, rfl⟩ | ⟨escape, body, hholds, rfl⟩
  · exact valid htype
  refine validUTF8_ascii ?_
  intro b hmem
  rw [List.mem_append, List.mem_append] at hmem
  rcases hmem with hprefix | htag | hbody
  · exact (by decide +kernel : ∀ b ∈ escapedKeyPrefix, b < 0x80) b hprefix
  · have htags : ∀ escape : Escape, ∀ b ∈ escape.tag, b < 0x80 := by
      intro escape
      cases escape <;> decide +kernel
    exact htags escape b htag
  · exact hholds.ascii b hbody

/-! ## Different keys, different ids of MongoDB -/

def MongoID.Made (key : Key) : MongoID → Prop
  | .string text => key = { type := lit "string", data := text }
  | .int64 value => key.type = lit "int64" ∧ key.data.length = 8 ∧ value = int64Value key.data
  | .binary data => key = { type := lit "bytes", data }
  | .objectID data => key = { type := objectIDKeyType, data } ∧ data.length = 12

theorem mongoID_made {id : MongoID} (h : mongoID lib key = .ok id) : id.Made key := by
  obtain ⟨type, data⟩ := key
  unfold mongoID at h
  split at h
  · rename_i htype
    cases h
    rw [show type = lit "string" from htype]
    rfl
  · split at h
    · rename_i htype
      split at h
      · cases h
      rename_i hlength
      cases h
      exact ⟨htype, not_not.mp hlength, rfl⟩
    · split at h
      · rename_i htype
        cases h
        rw [show type = lit "bytes" from htype]
        rfl
      · split at h
        · rename_i htype
          split at h
          · cases h
          rename_i hlength
          cases h
          rw [show type = objectIDKeyType from htype]
          exact ⟨rfl, not_not.mp hlength⟩
        · cases h

theorem MongoID.Made.key_eq {key other : Key} {id : MongoID} (h : id.Made key)
    (h' : id.Made other) : key = other := by
  cases id with
  | string text => exact Eq.trans h (Eq.symm h')
  | int64 value =>
    obtain ⟨htype, hlength, hvalue⟩ := h
    obtain ⟨htype', hlength', hvalue'⟩ := h'
    obtain ⟨type, data⟩ := key
    rw [Key.mk.injEq]
    exact ⟨htype.trans htype'.symm,
      int64Value_injective hlength hlength' (hvalue.symm.trans hvalue')⟩
  | binary data => exact Eq.trans h (Eq.symm h')
  | objectID data => exact Eq.trans h.1 (Eq.symm h'.1)

/-! ## Different addresses, different records -/

section

variable (h : resolveDocument lib logicalStore address = .ok record)

include h

theorem resolveDocument_eq :
    ∃ segment key, address = { store := logicalStore, segments := [record.index, segment] } ∧
      lib.parseKey segment = .ok key ∧ documentID lib key = .ok record.id := by
  unfold resolveDocument at h
  split at h
  · cases h
  rename_i hstore
  split at h
  · rename_i index segment hsegments
    obtain ⟨key, hkey, h⟩ := coded_ok h
    obtain ⟨id, hid, h⟩ := coded_ok h
    cases h
    refine ⟨segment, key, ?_, hkey, hid⟩
    rw [RecordAddress.mk.injEq]
    exact ⟨not_not.mp hstore, hsegments⟩
  · cases h

variable {store : GoString}

omit h in
theorem resolveCollection_eq {record : ResolvedCollection}
    (h : resolveCollection lib store address = .ok record) :
    ∃ segment, address = { store, segments := [record.database, record.collection, segment] } ∧
      lib.parseKey segment = .ok record.recordKey := by
  unfold resolveCollection at h
  split at h
  · cases h
  rename_i hstore
  split at h
  · rename_i database collection segment hsegments
    split at h
    · cases h
    obtain ⟨key, hkey, h⟩ := coded_ok h
    obtain ⟨-, -, h⟩ := coded_ok h
    cases h
    refine ⟨segment, ?_, hkey⟩
    rw [RecordAddress.mk.injEq]
    exact ⟨not_not.mp hstore, hsegments⟩
  · cases h

theorem resolveDocument_valid : validUTF8 record.id = true := by
  obtain ⟨segment, key, _, hkey, hid⟩ := resolveDocument_eq h
  exact (documentID_identified hid).valid (lib.parseKey_valid segment key hkey)

variable {other : RecordAddress}

theorem resolveDocument_separates {record' : ResolvedDocument}
    (h' : resolveDocument lib logicalStore other = .ok record')
    (hindex : record.index = record'.index)
    (hid : lib.received record.id = lib.received record'.id) : address = other := by
  have hsame : record.id = record'.id := by
    rw [lib.received_valid _ (resolveDocument_valid h),
      lib.received_valid _ (resolveDocument_valid h')] at hid
    exact hid
  obtain ⟨segment, key, haddress, hkey, hdocument⟩ := resolveDocument_eq h
  obtain ⟨segment', key', haddress', hkey', hdocument'⟩ := resolveDocument_eq h'
  rw [hsame] at hdocument
  have hkeys := (documentID_identified hdocument).key_eq (documentID_identified hdocument')
  rw [hkeys] at hkey
  rw [haddress, haddress', hindex, lib.parseKey_injective segment segment' key' hkey hkey']

end

theorem resolveCollection_separates {record record' : ResolvedCollection} {id id' : MongoID}
    (h : resolveCollection lib store address = .ok record)
    (h' : resolveCollection lib store other = .ok record')
    (hdatabase : record.database = record'.database)
    (hcollection : record.collection = record'.collection)
    (hid : mongoID lib record.recordKey = .ok id) (hid' : mongoID lib record'.recordKey = .ok id')
    (hequal : recordIDsEqual (rawValue id) (rawValue id') = true) : address = other := by
  obtain ⟨segment, haddress, hkey⟩ := resolveCollection_eq h
  obtain ⟨segment', haddress', hkey'⟩ := resolveCollection_eq h'
  rw [recordIDsEqual_rawValue hequal] at hid
  have hkeys := (mongoID_made hid).key_eq (mongoID_made hid')
  rw [hkeys] at hkey
  rw [haddress, haddress', hdatabase, hcollection,
    lib.parseKey_injective segment segment' record'.recordKey hkey hkey']

/-- Keys become ids injectively, and no two addresses of one index or one
collection stand for the same record. -/
theorem keys_separate_records (lib : KeyLibrary) :
    (∀ key other id, documentID lib key = .ok id → documentID lib other = .ok id → key = other) ∧
    (∀ key other id, mongoID lib key = .ok id → mongoID lib other = .ok id → key = other) ∧
    (∀ logicalStore address other record record',
      resolveDocument lib logicalStore address = .ok record →
      resolveDocument lib logicalStore other = .ok record' →
      record.index = record'.index → lib.received record.id = lib.received record'.id →
      address = other) ∧
    (∀ store address other record record' id id', resolveCollection lib store address = .ok record →
      resolveCollection lib store other = .ok record' →
      record.database = record'.database → record.collection = record'.collection →
      mongoID lib record.recordKey = .ok id → mongoID lib record'.recordKey = .ok id' →
      recordIDsEqual (rawValue id) (rawValue id') = true → address = other) := by
  refine ⟨?_, ?_, ?_, ?_⟩
  · intro key other id h h'
    exact (documentID_identified h).key_eq (documentID_identified h')
  · intro key other id h h'
    exact (mongoID_made h).key_eq (mongoID_made h')
  · intro logicalStore address other record record' h h' hindex hid
    exact resolveDocument_separates h h' hindex hid
  · intro store address other record record' id id' h h' hdatabase hcollection hid hid' hequal
    exact resolveCollection_separates h h' hdatabase hcollection hid hid' hequal

/-- The segment of a string, `s:order-42`, or of bytes in base64. -/
def formatKey (key : Key) : GoString :=
  if key.type = lit "string" then lit "s:" ++ key.data else lit "b:" ++ encodeKeyPart key.data

def plainKey (segment : GoString) : Fallible Key :=
  let text := segment.drop 2
  let keys : List Key := [⟨lit "string", text⟩, ⟨lit "bytes", Base64.decode text⟩]
  match keys.find? fun key => decide (formatKey key = segment ∧
      (key.type = lit "string" → validUTF8 key.data = true)) with
  | some key => .ok key
  | none => refuse "invalid key"

theorem plainKey_ok {segment : GoString} (h : plainKey segment = .ok key) :
    formatKey key = segment ∧ (key.type = lit "string" → validUTF8 key.data = true) := by
  unfold plainKey at h
  dsimp only at h
  split at h
  · rename_i hfind
    cases h
    exact of_decide_eq_true (List.find?_some hfind :)
  · cases h

def plainKeys : KeyLibrary where
  quote := fun s => 0x22 :: (s ++ [0x22])
  parseKey := plainKey
  received := id
  parseKey_injective := fun _ _ _ h h' => (plainKey_ok h).1.symm.trans (plainKey_ok h').1
  parseKey_valid := fun _ _ h => (plainKey_ok h).2
  received_valid := fun _ _ => rfl

/-- A string that looks like the escaped id of other bytes is no other record. -/
theorem keys_separate_records_imitation :
    let bytes : RecordAddress := { store := lit "s", segments := [lit "i", lit "b:AQ"] }
    resolveDocument plainKeys (lit "s") bytes =
      .ok { index := lit "i", id := lit "~sink~bytes~AQ" } ∧
    resolveDocument plainKeys (lit "s")
        { store := lit "s", segments := [lit "i", lit "s:~sink~bytes~AQ"] } =
      .ok { index := lit "i", id := lit "~sink~string~fnNpbmt-Ynl0ZXN-QVE" } ∧
    (∀ other record, resolveDocument plainKeys (lit "s") other = .ok record →
      record.index = lit "i" → record.id = lit "~sink~bytes~AQ" → bytes = other) := by
  intro bytes
  have hbytes : resolveDocument plainKeys (lit "s") bytes =
      .ok { index := lit "i", id := lit "~sink~bytes~AQ" } := by decide
  refine ⟨hbytes, by decide, fun other record h hindex hid => ?_⟩
  exact (keys_separate_records plainKeys).2.2.1 _ _ _ _ _ hbytes h hindex.symm hid.symm

end Sink.Records
