import Sink.FailureText
import Sink.Lib.JsonText
import Sink.Search.Write
import Sink.Texts

/-!
# The bytes of a bulk request

A bulk payload has two lines for each write: an action, made by `json.Marshal`,
and the document, made by `json.Compact`. The backend splits the payload at line
ends and parses every line for itself, so a line end within an action or a
document would shift all that comes after it.

`encoding/json` is `encodeString` for texts, objects of encoded fields
(`encodeObject`), and `JsonText.strip` for `Compact`. A text is written rune by
rune, and a byte that belongs to no rune is written as the replacement
character: of such a text the backend reads another one (`received`), of a text
that is UTF-8 it reads the text.
-/

namespace Sink.SearchStore

open JsonText List
open Sink.Scan (validUTF8 validUTF8From)

/-! ## Texts -/

/-- Go through a text rune by rune. A rune becomes what `replace` makes of it or
stays as it is, and a byte that belongs to no rune becomes `invalid`. Of the
current rune `pending` more bytes are to be read, and copied if `keep`. -/
def overRunes (invalid : GoString) (replace : GoString → Option GoString) :
    Bool → Nat → GoString → GoString
  | _, _, [] => []
  | keep, pending + 1, b :: rest =>
    (if keep then [b] else []) ++ overRunes invalid replace keep pending rest
  | _, 0, b :: rest =>
    match runeWidth (b :: rest) with
    | 0 => invalid ++ overRunes invalid replace true 0 rest
    | width + 1 =>
      match replace ((b :: rest).take (width + 1)) with
      | some text => text ++ overRunes invalid replace false width rest
      | none => b :: overRunes invalid replace true width rest

/-- `hex[n]` of `encoding/json`. -/
def hexByte (n : Nat) : UInt8 := (lit "0123456789abcdef").getD n 0

/-- Characters that have an escape of their own. -/
def shortEscapes : List (UInt8 × UInt8) :=
  [(0x22, 0x22), (0x5C, 0x5C), (0x08, 0x62), (0x0C, 0x66), (0x0A, 0x6E), (0x0D, 0x72),
    (0x09, 0x74)]

/-- What `appendString` writes for a rune, if not the rune itself: the cases of
`htmlSafeSet`, and the two line separators of JavaScript. -/
def escapeRune : GoString → Option GoString
  | [b] =>
    match shortEscapes.find? fun p => p.1 == b with
    | some p => some [0x5C, p.2]
    | none =>
      if b < 0x20 ∨ b = 0x26 ∨ b = 0x3C ∨ b = 0x3E then
        some [0x5C, 0x75, 0x30, 0x30, hexByte (b.toNat / 16), hexByte (b.toNat % 16)]
      else none
  | rune =>
    if rune = [0xE2, 0x80, 0xA8] then some [0x5C, 0x75, 0x32, 0x30, 0x32, 0x38]
    else if rune = [0xE2, 0x80, 0xA9] then some [0x5C, 0x75, 0x32, 0x30, 0x32, 0x39]
    else none

/-- `appendString` between the quotes. -/
def escapeText (text : GoString) : GoString :=
  overRunes [0xEF, 0xBF, 0xBD] escapeRune true 0 text

def encodeString (text : GoString) : GoString := 0x22 :: (escapeText text ++ [0x22])

/-- The text that is read of a text that `encodeString` wrote. -/
def received (text : GoString) : GoString :=
  overRunes [0xEF, 0xBF, 0xBD] (fun _ => none) true 0 text

/-! ## Payloads -/

/-- The fields of an object, with its closing bracket. -/
def encodeFields : List (GoString × GoString) → GoString
  | [] => [0x7D]
  | [(name, value)] => encodeString name ++ 0x3A :: (value ++ [0x7D])
  | (name, value) :: field :: rest =>
    encodeString name ++ 0x3A :: (value ++ 0x2C :: encodeFields (field :: rest))

def encodeObject (fields : List (GoString × GoString)) : GoString := 0x7B :: encodeFields fields

/-- A field with `omitempty`. -/
def optionalNumber (name : GoString) : Option Int64 → List (GoString × GoString)
  | none => []
  | some value => [(name, decimal value.toInt)]

/-- `json.Marshal` of the metadata. -/
def BulkActionMetadata.encode (metadata : BulkActionMetadata) : GoString :=
  encodeObject ([(lit "_index", encodeString metadata.document.index),
    (lit "_id", encodeString metadata.document.id)] ++
      optionalNumber (lit "if_seq_no") metadata.sequence ++
      optionalNumber (lit "if_primary_term") metadata.primaryTerm)

namespace BulkLine

/-- `json.Marshal` of the action. -/
def encodedAction (line : BulkLine) : GoString := encodeObject [(line.name, line.metadata.encode)]

/-- What one turn of the loop of `buildWriteBulk` appends. -/
def bytes (line : BulkLine) : GoString :=
  line.encodedAction ++ 0x0A :: (line.source ++ [0x0A])

end BulkLine

/-- `request.payload`. -/
def payloadBytes (lines : List BulkLine) : GoString := lines.flatMap BulkLine.bytes

/-- The action of a write, as the backend reads it. -/
def actionValue (name : GoString) (document : ResolvedDocument)
    (numbers : Option (Int64 × Int64)) : Value :=
  let metadata := [(lit "_index", Node.string (received document.index)),
    (lit "_id", .string (received document.id))]
  let demands := match numbers with
    | none => []
    | some (sequence, primaryTerm) => [(lit "if_seq_no", .number (decimal sequence.toInt)),
        (lit "if_primary_term", .number (decimal primaryTerm.toInt))]
  .object [(name, .object (metadata ++ demands))]

/-! ## Runes -/

variable {b : UInt8} {rune : GoString}

section

variable {invalid : GoString} {replace : GoString → Option GoString}

theorem overRunes_pending (keep : Bool) (front rest : GoString) :
    overRunes invalid replace keep front.length (front ++ rest) =
      (if keep then front else []) ++ overRunes invalid replace true 0 rest := by
  induction front with
  | nil => cases rest <;> cases keep <;> simp [overRunes]
  | cons b front ih =>
    rw [length_cons, cons_append, overRunes, ih]
    cases keep <;> simp

theorem overRunes_invalid {rest : GoString} (h : runeWidth (b :: rest) = 0) (keep : Bool) :
    overRunes invalid replace keep 0 (b :: rest) =
      invalid ++ overRunes invalid replace true 0 rest := by
  rw [overRunes, h]

/-- Whole runes are replaced or copied one by one. -/
theorem overRunes_rune (hne : rune ≠ []) (hwidth : runeWidth rune = rune.length) (keep : Bool)
    (rest : GoString) : overRunes invalid replace keep 0 (rune ++ rest) =
      (replace rune).getD rune ++ overRunes invalid replace true 0 rest := by
  obtain ⟨b, others, rfl⟩ := exists_cons_of_ne_nil hne
  have hall : runeWidth (b :: (others ++ rest)) = others.length + 1 := by
    have happend := runeWidth_append (by rw [hwidth]; simp) rest
    rwa [hwidth] at happend
  have htake : (b :: (others ++ rest)).take (others.length + 1) = b :: others := by simp
  rw [cons_append, overRunes, hall]
  dsimp only
  rw [htake]
  cases replace (b :: others) with
  | none =>
    rw [overRunes_pending true]
    rfl
  | some text =>
    rw [overRunes_pending false]
    rfl

end

/-- A rune is one ASCII byte, or it has no ASCII byte at all. -/
theorem rune_bytes (hwidth : runeWidth rune = rune.length) :
    (∃ b, rune = [b] ∧ b < 0x80) ∨ (rune.length ≠ 1 ∧ ∀ b ∈ rune, 0x80 ≤ b) := by
  rcases rune with _ | ⟨b, _ | ⟨c, _ | ⟨d, _ | ⟨e, _ | ⟨f, rest⟩⟩⟩⟩⟩
  · exact .inr ⟨by simp, fun b hmem => by cases hmem⟩
  · refine .inl ⟨b, rfl, ?_⟩
    simp only [runeWidth, length_cons, length_nil] at hwidth
    grind
  all_goals
    refine .inr ⟨by simp, ?_⟩
    simp only [forall_mem_cons, not_mem_nil, false_implies, implies_true, and_true]
    simp only [runeWidth, continues, length_cons, length_nil] at hwidth
    grind

theorem validUTF8From_pending (front rest : GoString) :
    validUTF8From front.length (front ++ rest) = validUTF8 rest := by
  induction front with
  | nil => rfl
  | cons b front ih => exact ih

/-- Valid UTF-8 is received as it was sent. -/
theorem received_of_valid {text : GoString} (h : validUTF8 text = true) : received text = text := by
  induction text using rune_induction with
  | hnil => rfl
  | hinvalid b rest hwidth _ =>
    rw [validUTF8, validUTF8From, hwidth] at h
    cases h
  | hrune rune rest hne hwidth ih =>
    obtain ⟨b, others, rfl⟩ := exists_cons_of_ne_nil hne
    have hrest : validUTF8 (b :: others ++ rest) = validUTF8 rest := by
      rw [cons_append, validUTF8, validUTF8From, ← cons_append,
        runeWidth_append (by rw [hwidth]; simp), hwidth]
      exact validUTF8From_pending others rest
    rw [received, overRunes_rune hne hwidth, ← received, ih (hrest ▸ h)]
    rfl

/-! ## A text reads as the text received -/

theorem hexDigit_hexByte : ∀ n < 16, hexDigit (hexByte n) = some n := by decide +kernel

theorem hexCode_byte (b : UInt8) :
    hexCode 0x30 0x30 (hexByte (b.toNat / 16)) (hexByte (b.toNat % 16)) = some b.toNat := by
  have hbyte := b.toNat_lt
  have hzero : hexDigit 0x30 = some 0 := rfl
  rw [hexCode, hzero, hexDigit_hexByte _ (by omega), hexDigit_hexByte _ (by omega)]
  dsimp only
  rw [show ((0 * 16 + 0) * 16 + b.toNat / 16) * 16 + b.toNat % 16 = b.toNat by omega]

theorem text_code_byte (hb : b < 0x80) (ps : List Piece) :
    text (.code b.toNat :: ps) = b :: text ps := by
  have hsmall : b.toNat < 0x80 := UInt8.lt_iff_toNat_lt.mp hb
  have hhigh : isHigh b.toNat = false := by simp [isHigh]; omega
  have hlow : isLow b.toNat = false := by simp [isLow]; omega
  rw [text_code hhigh hlow, utf8, if_pos hsmall, UInt8.ofNat_toNat]
  rfl

theorem shortEscapes_inverse : ∀ p ∈ shortEscapes, p.2 ≠ 0x75 ∧ escapes.lookup p.2 = some p.1 := by
  intro p hmem
  simp only [shortEscapes, mem_cons, not_mem_nil, or_false] at hmem
  rcases hmem with rfl | rfl | rfl | rfl | rfl | rfl | rfl <;> exact ⟨by decide, rfl⟩

/-- What is not escaped may stand in a JSON string. -/
theorem escapeRune_plain (hwidth : runeWidth rune = rune.length) (h : escapeRune rune = none) :
    ∀ b ∈ rune, b ≠ 0x22 ∧ b ≠ 0x5C ∧ ¬b < 0x20 := by
  rcases rune_bytes hwidth with ⟨b, rfl, -⟩ | ⟨-, hhigh⟩
  · rw [escapeRune] at h
    cases hshort : shortEscapes.find? fun p => p.1 == b with
    | some p =>
      rw [hshort] at h
      cases h
    | none =>
      have hne := find?_eq_none.mp hshort
      rw [hshort] at h
      dsimp only at h
      split at h
      · cases h
      rename_i hother
      rintro c hmem
      obtain rfl := mem_singleton.mp hmem
      refine ⟨?_, ?_, fun hlow => hother (.inl hlow)⟩
      · rintro rfl
        exact hne (0x22, 0x22) (by decide) rfl
      · rintro rfl
        exact hne (0x5C, 0x5C) (by decide) rfl
  · intro b hmem
    have hb := hhigh b hmem
    refine ⟨?_, ?_, ?_⟩
    · rintro rfl
      exact absurd hb (by decide)
    · rintro rfl
      exact absurd hb (by decide)
    · exact fun hlow => absurd (UInt8.lt_of_le_of_lt hb hlow) (by decide)

/-- An escape spells the rune it replaces. -/
theorem escapeRune_spelled {raw : GoString} (hwidth : runeWidth rune = rune.length)
    (h : escapeRune rune = some raw) :
    ∃ piece, (∀ rest ps, Spelled rest ps → Spelled (raw ++ rest) (piece :: ps)) ∧
      ∀ ps, text (piece :: ps) = rune ++ text ps := by
  rcases rune_bytes hwidth with ⟨b, rfl, hb⟩ | ⟨hlength, -⟩
  · rw [escapeRune] at h
    cases hshort : shortEscapes.find? fun p => p.1 == b with
    | some p =>
      rw [hshort] at h
      cases h
      obtain ⟨hunit, hlookup⟩ := shortEscapes_inverse p (mem_of_find?_eq_some hshort)
      have hp : (p.1 == b) = true :=
        find?_some (p := fun p : UInt8 × UInt8 => p.1 == b) hshort
      rw [beq_iff_eq.mp hp] at hlookup
      exact ⟨.byte b, fun rest ps hrest => .escape hunit hlookup hrest, fun ps => rfl⟩
    | none =>
      rw [hshort] at h
      dsimp only at h
      split at h
      · cases h
        exact ⟨.code b.toNat, fun rest ps hrest => .code (hexCode_byte b) hrest, text_code_byte hb⟩
      · cases h
  · have hrune : escapeRune rune =
        if rune = [0xE2, 0x80, 0xA8] then some [0x5C, 0x75, 0x32, 0x30, 0x32, 0x38]
        else if rune = [0xE2, 0x80, 0xA9] then some [0x5C, 0x75, 0x32, 0x30, 0x32, 0x39]
        else none := by
      rcases rune with _ | ⟨b, _ | ⟨c, rest⟩⟩
      · rfl
      · exact absurd rfl hlength
      · rfl
    rw [hrune] at h
    split at h
    · rename_i heq
      cases h
      rw [heq]
      exact ⟨.code 0x2028, fun rest ps hrest => .code rfl hrest, fun ps => text_code rfl rfl ps⟩
    · split at h
      · rename_i heq
        cases h
        rw [heq]
        exact ⟨.code 0x2029, fun rest ps hrest => .code rfl hrest, fun ps => text_code rfl rfl ps⟩
      · cases h

/-- An escaped text spells the text received, by induction on its runes. -/
theorem escapeText_spelled (txt : GoString) :
    ∃ ps, Spelled (escapeText txt) ps ∧ text ps = received txt := by
  induction txt using rune_induction with
  | hnil => exact ⟨[], .nil, rfl⟩
  | hinvalid b rest hwidth ih =>
    obtain ⟨ps, hspelled, htext⟩ := ih
    refine ⟨[0xEF, 0xBF, 0xBD].map Piece.byte ++ ps, ?_, ?_⟩
    · rw [escapeText, overRunes_invalid hwidth]
      exact .bytes (by simp) hspelled
    · rw [received, overRunes_invalid hwidth, text_bytes, htext]
      rfl
  | hrune rune rest hne hwidth ih =>
    obtain ⟨ps, hspelled, htext⟩ := ih
    rw [escapeText, received, overRunes_rune hne hwidth, overRunes_rune hne hwidth]
    cases hescape : escapeRune rune with
    | none =>
      refine ⟨rune.map Piece.byte ++ ps, .bytes (escapeRune_plain hwidth hescape) hspelled, ?_⟩
      rw [text_bytes, htext]
      rfl
    | some raw =>
      obtain ⟨piece, hpiece, hreads⟩ := escapeRune_spelled hwidth hescape
      refine ⟨piece :: ps, hpiece _ _ hspelled, ?_⟩
      rw [hreads, htext]
      rfl

theorem encodeString_written (txt : GoString) :
    Written (encodeString txt) (.string (received txt)) := by
  obtain ⟨ps, hspelled, htext⟩ := escapeText_spelled txt
  rw [encodeString, ← htext]
  exact .string hspelled

example : encodeString (lit "<\"é\n") = lit "\"\\u003c\\\"é\\n\"" := by decide +kernel

/-! ## Numbers and objects -/

theorem digits_unsigned (n : Nat) : isUnsigned (digitBytes n) = true := by
  by_cases hn : n = 0
  · rw [hn]
    rfl
  obtain ⟨first, rest, hdigits, hfirst⟩ := digitBytes_head hn
  have hall : ∀ b ∈ first :: rest, isDigit b = true := by
    intro b hmem
    rw [← hdigits] at hmem
    simpa [isDigit] using digitBytes_range n b hmem
  have hrest : rest.dropWhile isDigit = [] :=
    dropWhile_eq_nil_iff.mpr (forall_mem_cons.mp hall).2
  rw [hdigits, isUnsigned, if_neg hfirst, hall first mem_cons_self, hrest]
  rfl

theorem decimal_number (n : Int) : isNumber (decimal n) = true := by
  cases n with
  | ofNat n =>
    have hunsigned := digits_unsigned n
    rw [decimal_ofNat]
    cases hdigits : digitBytes n with
    | nil =>
      rw [hdigits] at hunsigned
      cases hunsigned
    | cons first rest =>
      have hrange := digitBytes_range n first (by rw [hdigits]; exact mem_cons_self)
      have hminus : first ≠ 0x2D := by
        rintro rfl
        exact absurd hrange.1 (by decide)
      rw [isNumber, if_neg hminus, ← hdigits, hunsigned]
  | negSucc n => rw [decimal_negSucc, isNumber, if_pos rfl, digits_unsigned]

theorem decimal_bytes (n : Int) : ∀ b ∈ decimal n, isNumberByte b = true := by
  have hdigits : ∀ m, ∀ b ∈ digitBytes m, isNumberByte b = true := by
    intro m b hmem
    simp [isNumberByte, isDigit, digitBytes_range m b hmem]
  cases n with
  | ofNat n => rw [decimal_ofNat]; exact hdigits n
  | negSucc n =>
    rw [decimal_negSucc]
    exact forall_mem_cons.mpr ⟨rfl, hdigits (n + 1)⟩

theorem decimal_written (n : Int) : Written (decimal n) (.number (decimal n)) :=
  .number (decimal_number n) (decimal_bytes n)

def FieldWritten (field : GoString × GoString) (named : Bytes × Value) : Prop :=
  named.1 = received field.1 ∧ Written field.2 named.2

variable {fields : List (GoString × GoString)} {named : List (Bytes × Value)}

theorem encodeFields_written (h : Forall₂ FieldWritten fields named) (hne : fields ≠ []) :
    WrittenFields (encodeFields fields) named := by
  induction h with
  | nil => exact absurd rfl hne
  | @cons field entry fields named hfield hrest ih =>
    obtain ⟨name, value⟩ := field
    obtain ⟨name', item⟩ := entry
    obtain ⟨rfl, hitem⟩ := hfield
    obtain ⟨ps, hspelled, htext⟩ := escapeText_spelled name
    rw [← htext]
    cases hrest with
    | nil =>
      have hlast := WrittenFields.last hspelled hitem
      simpa [encodeFields, encodeString] using hlast
    | cons hnext hothers =>
      have hmore := WrittenFields.cons hspelled hitem (ih (cons_ne_nil _ _))
      simpa [encodeFields, encodeString] using hmore

theorem encodeObject_written (h : Forall₂ FieldWritten fields named) (hne : fields ≠ []) :
    Written (encodeObject fields) (.object named) :=
  .object (encodeFields_written h hne)

/-! ## Lines -/

/-- An encoded action is the JSON text of the action. -/
theorem encodedAction_written {name : GoString} (hname : received name = name)
    (document : ResolvedDocument) (numbers : Option (Int64 × Int64)) (source : List UInt8) :
    Written (BulkLine.encodedAction
        ⟨name, ⟨document, numbers.map Prod.fst, numbers.map Prod.snd⟩, source⟩)
      (actionValue name document numbers) := by
  have hlit : ∀ field ∈ ["_index", "_id", "if_seq_no", "if_primary_term"],
      lit field = received (lit field) := by decide +kernel
  have hindex : FieldWritten (lit "_index", encodeString document.index)
      (lit "_index", .string (received document.index)) :=
    ⟨hlit _ (by simp), encodeString_written _⟩
  have hid : FieldWritten (lit "_id", encodeString document.id)
      (lit "_id", .string (received document.id)) :=
    ⟨hlit _ (by simp), encodeString_written _⟩
  have hnumber : ∀ field ∈ ["if_seq_no", "if_primary_term"], ∀ n : Int,
      FieldWritten (lit field, decimal n) (lit field, .number (decimal n)) :=
    fun field hmem n => ⟨hlit _ (by simp at hmem ⊢; tauto), decimal_written n⟩
  refine encodeObject_written (.cons ⟨hname.symm, ?_⟩ .nil) (cons_ne_nil _ _)
  cases numbers with
  | none => exact encodeObject_written (.cons hindex (.cons hid .nil)) (cons_ne_nil _ _)
  | some numbers =>
    exact encodeObject_written (.cons hindex (.cons hid (.cons (hnumber _ (by simp) _)
      (.cons (hnumber _ (by simp) _) .nil)))) (cons_ne_nil _ _)

/-! ## Actions -/

/-- The action that a precondition asks for: its name, and the sequence number and
the primary term of the revision that it demands. -/
inductive Asks : Storage.Precondition → GoString → Option (Int64 × Int64) → Prop where
  | none : Asks .none (lit "index") none
  | recordNotExists : Asks .recordNotExists (lit "create") none
  | revisionMatches {revision : Revision} {sequence primaryTerm : Int64}
      (numbers : encodeRevision sequence primaryTerm = .ok revision) :
      Asks (.revisionMatches revision) (lit "index") (some (sequence, primaryTerm))

theorem bigEndian64_uint64 {bytes : List UInt8} (h : bytes.length = 8) :
    Memory.bigEndian64 (uint64 bytes).toNat = bytes := by
  match bytes, h with
  | [b₀, b₁, b₂, b₃, b₄, b₅, b₆, b₇], _ =>
    have hvalue : (uint64 [b₀, b₁, b₂, b₃, b₄, b₅, b₆, b₇]).toNat =
        [b₀, b₁, b₂, b₃, b₄, b₅, b₆, b₇].foldl (fun n b => n * 256 + b.toNat) 0 := by
      refine UInt64.toNat_ofNat_of_lt' ?_
      have := b₀.toNat_lt
      simp only [foldl_cons, foldl_nil]
      grind [UInt8.toNat_lt]
    rw [hvalue]
    simp only [Memory.bigEndian64, foldl_cons, foldl_nil, map_cons, map_nil, cons.injEq,
      and_true, ← UInt8.toNat_inj, UInt8.toNat_ofNat']
    have := b₀.toNat_lt
    have := b₁.toNat_lt
    have := b₂.toNat_lt
    have := b₃.toNat_lt
    have := b₄.toNat_lt
    have := b₅.toNat_lt
    have := b₆.toNat_lt
    have := b₇.toNat_lt
    omega

/-- A revision that decodes is the encoding of its two numbers. -/
theorem encodeRevision_decode {revision : Revision} {values : Int64 × Int64}
    (h : decodeRevision revision = .ok values) :
    encodeRevision values.1 values.2 = .ok revision := by
  unfold decodeRevision at h
  split at h
  · cases h
  rename_i hlength
  dsimp only at h
  split at h
  · cases h
  rename_i hvalid
  cases h
  rw [encodeRevision, if_neg hvalid, UInt64.toUInt64_toInt64, UInt64.toUInt64_toInt64,
    bigEndian64_uint64 (by rw [length_take]; omega),
    bigEndian64_uint64 (by rw [length_drop]; omega), take_append_drop]

variable {precondition : Storage.Precondition}

variable {numbers : Option (Int64 × Int64)}

/-- `bulkAction` gives the action that the precondition asks for. -/
theorem bulkAction_asks {name : GoString} (h : bulkAction precondition = .ok (name, numbers)) :
    Asks precondition name numbers := by
  cases precondition with
  | none => cases h; exact .none
  | recordNotExists => cases h; exact .recordNotExists
  | revisionMatches revision =>
    rw [bulkAction] at h
    cases hvalues : decodeRevision revision with
    | error err => rw [hvalues] at h; cases h
    | ok values =>
      rw [hvalues] at h
      cases h
      exact .revisionMatches (encodeRevision_decode hvalues)
  | recordExists => cases h
  | revisionAbsent => cases h

theorem Asks.name {name : GoString} (h : Asks precondition name numbers) :
    received name = name := by
  have hlit : received (lit "index") = lit "index" ∧ received (lit "create") = lit "create" := by
    decide +kernel
  cases h with
  | none => exact hlit.1
  | recordNotExists => exact hlit.2
  | revisionMatches numbers => exact hlit.1

theorem splitOn_bytes {first second : GoString} (hfirst : 0x0A ∉ first) (hsecond : 0x0A ∉ second)
    (rest : GoString) : splitOn 0x0A (first ++ 0x0A :: (second ++ 0x0A :: rest)) =
      first :: second :: splitOn 0x0A rest := by
  have hplain : ∀ line : GoString, 0x0A ∉ line → ∀ b ∈ line, (b == 0x0A) = false := by
    intro line hline b hmem
    refine beq_false_of_ne ?_
    rintro rfl
    exact hline hmem
  rw [splitOn, splitOnP_append_cons_of_forall_mem (hplain first hfirst) 0x0A rfl,
    splitOnP_append_cons_of_forall_mem (hplain second hsecond) 0x0A rfl, splitOn]

/-! ## Payloads are framed -/

variable {s : Store}

/-- The two lines of a write, as the backend reads them. -/
def Framed (work : WriteWork) (pair : GoString × GoString) : Prop :=
  (∃ name numbers, Asks work.precondition name numbers ∧
    parse pair.1 = some (actionValue name work.document numbers)) ∧
  parse pair.2 = parse work.source

/-- `json.Compact` removes exactly the insignificant white space. -/
def Compacts (s : Store) : Prop := ∀ source out, s.compact source = .ok out → out = strip source

theorem bulkLine_framed (hcompact : Compacts s) {work : WriteWork} {line : BulkLine}
    (hjson : (parse work.source).isSome) (h : bulkLine s work = .ok line) :
    Framed work (line.encodedAction, line.source) ∧
      0x0A ∉ line.encodedAction ∧ 0x0A ∉ line.source := by
  obtain ⟨v, hv⟩ := Option.isSome_iff_exists.mp hjson
  obtain ⟨name, numbers, source, haction, hsource, rfl⟩ := bulkLine_ok h
  obtain rfl := hcompact _ _ hsource
  have hasks := bulkAction_asks haction
  have hwritten := encodedAction_written hasks.name work.document numbers (strip work.source)
  refine ⟨⟨⟨name, numbers, hasks, hwritten.parse_eq⟩, ?_⟩, hwritten.oneLine, strip_oneLine hv⟩
  rw [hv]
  exact parse_strip hv

theorem lines_framed (hcompact : Compacts s) {works lines}
    (h : Forall₂ (fun work line => bulkLine s work = .ok line) works lines)
    (hjson : ∀ work ∈ works, (parse work.source).isSome) :
    ∃ pairs : List (GoString × GoString),
      splitOn 0x0A (payloadBytes lines) = pairs.flatMap (fun pair => [pair.1, pair.2]) ++ [[]] ∧
      Forall₂ Framed works pairs := by
  induction h with
  | nil => exact ⟨[], rfl, .nil⟩
  | @cons work line works lines hline _ ih =>
    obtain ⟨hwork, hrest⟩ := forall_mem_cons.mp hjson
    obtain ⟨hframed, hfirst, hsecond⟩ := bulkLine_framed hcompact hwork hline
    obtain ⟨pairs, hsplit, hall⟩ := ih hrest
    refine ⟨(line.encodedAction, line.source) :: pairs, ?_, .cons hframed hall⟩
    have hbytes : payloadBytes (line :: lines) =
        line.encodedAction ++ 0x0A :: (line.source ++ 0x0A :: payloadBytes lines) := by
      simp [payloadBytes, BulkLine.bytes]
    rw [hbytes, splitOn_bytes hfirst hsecond, hsplit]
    rfl

/-- A bulk payload is, line by line, the actions and the documents of its
writes: a document can neither add a line nor remove one. -/
theorem payload_framed (hcompact : Compacts s) {works : List WriteWork}
    (hjson : ∀ work ∈ works, (parse work.source).isSome) {lines : List BulkLine}
    (h : buildWriteBulk s works = .ok lines) :
    (∃ pairs : List (GoString × GoString),
      splitOn 0x0A (payloadBytes lines) = pairs.flatMap (fun pair => [pair.1, pair.2]) ++ [[]] ∧
      Forall₂ Framed works pairs) ∧
    ∀ text, validUTF8 text = true → received text = text :=
  ⟨lines_framed hcompact (buildWriteBulk_lines h) hjson, fun _ => received_of_valid⟩

def compacting : Store where
  driver := lit "elasticsearch"
  endpoints := 1
  someEndpoint := Nat.one_pos
  resolve address := .ok ⟨lit "i", address.uri⟩
  validateDocument _ := .ok ()
  compact source := .ok (strip source)

/-- A Replace of a record with a quote, a backslash and a line end in its id, and
a Create whose document has line ends. -/
def awkwardWrites : List WriteWork :=
  [⟨0, [], ⟨lit "\"index\"", lit "ü\\\n"⟩,
      lit "\x7b\"a\\n\": \"\\\"\", \"b\": [ -1.5e3, null ]\x7d",
      .revisionMatches [0, 0, 0, 0, 0, 0, 1, 4, 0, 0, 0, 0, 0, 0, 0, 2], true⟩,
    ⟨1, [], ⟨lit "i", lit "create"⟩, lit "\x7b\n\x7d\n", .recordNotExists, false⟩]

theorem payload_framed_awkward :
    ∃ lines, buildWriteBulk compacting awkwardWrites = .ok lines ∧
      ∃ pairs : List (GoString × GoString), splitOn 0x0A (payloadBytes lines) =
          pairs.flatMap (fun pair => [pair.1, pair.2]) ++ [[]] ∧
        Forall₂ Framed awkwardWrites pairs := by
  have hcompact : Compacts compacting := fun source out h => (Except.ok.inj h).symm
  have hjson : ∀ work ∈ awkwardWrites, (parse work.source).isSome = true := by decide +kernel
  exact ⟨_, rfl, (payload_framed hcompact hjson rfl).1⟩

end Sink.SearchStore
