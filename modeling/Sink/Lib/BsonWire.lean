import Sink.Lib.Bytes

/-!
# BSON on the wire

One level of the format. A document is its length in four bytes, the bytes of
its elements and a zero. An element is the byte of its type, its name and a
zero, and the bytes of its value, whose extent depends on the type (`Layout`);
what a value holds is not read here. In the MongoDB driver, `readElement`,
`readDocument` and `readBinary` are the readers of `bsoncore`, `elements` and
`lookup` the methods `Elements` and `Lookup` of `bson.Raw`, and `marshal` is
`bson.Marshal` of a `bson.D` of raw values.

A value is `Framed` if a reader can tell where it ends, whatever follows.
`elements` reads back what `marshal` wrote of framed values, and the values it
reads are framed.
-/

namespace BsonWire

open List

variable {src text rest : List UInt8} {element : Element} {payload : List UInt8}

/-- The type byte of a value and its bytes. -/
structure RawValue where
  type : UInt8
  value : List UInt8
deriving Repr, DecidableEq

structure Element where
  key : List UInt8
  raw : RawValue
deriving Repr, DecidableEq

def typeDouble : UInt8 := 0x01
def typeString : UInt8 := 0x02
def typeEmbeddedDocument : UInt8 := 0x03
def typeArray : UInt8 := 0x04
def typeBinary : UInt8 := 0x05
def typeObjectID : UInt8 := 0x07
def typeBoolean : UInt8 := 0x08
def typeRegex : UInt8 := 0x0B
def typeDBPointer : UInt8 := 0x0C
def typeJavaScript : UInt8 := 0x0D
def typeSymbol : UInt8 := 0x0E
def typeCodeWithScope : UInt8 := 0x0F
def typeInt32 : UInt8 := 0x10
def typeInt64 : UInt8 := 0x12
def typeDecimal128 : UInt8 := 0x13

/-! ## Reading -/

/-- A length is a nonnegative 32 bit integer. -/
def readLength : List UInt8 → Option (Nat × List UInt8)
  | a :: b :: c :: d :: rest =>
    let length := Bytes.littleEndian [a, b, c, d]
    if length < 2 ^ 31 then some (length, rest) else none
  | _ => none

/-- The bytes before the first zero, and those after it. -/
def readCString : List UInt8 → Option (List UInt8 × List UInt8)
  | [] => none
  | b :: rest =>
    if b = 0 then some ([], rest)
    else (readCString rest).map fun (text, rest) => (b :: text, rest)

inductive Layout where
  | fixed (width : Nat)
  /-- A length, and a value that has so many bytes more than the length says. -/
  | counted (extra : Nat)
  /-- Two texts that end with a zero each. -/
  | texts
deriving Repr, DecidableEq

def layout (type : UInt8) : Option Layout :=
  match type.toNat with
  | 0x01 | 0x09 | 0x11 | 0x12 => some (.fixed 8)
  | 0x02 | 0x0D | 0x0E => some (.counted 4)
  | 0x03 | 0x04 | 0x0F => some (.counted 0)
  | 0x05 => some (.counted 5)
  | 0x06 | 0x0A | 0x7F | 0xFF => some (.fixed 0)
  | 0x07 => some (.fixed 12)
  | 0x08 => some (.fixed 1)
  | 0x0B => some .texts
  | 0x0C => some (.counted 16)
  | 0x10 => some (.fixed 4)
  | 0x13 => some (.fixed 16)
  | _ => none

/-- How many of the bytes are the value. -/
def Layout.length : Layout → List UInt8 → Option Nat
  | .fixed width, _ => some width
  | .counted extra, src => (readLength src).map fun (length, _) => length + extra
  | .texts, src =>
    match readCString src with
    | none => none
    | some (pattern, rest) =>
      (readCString rest).map fun (options, _) => pattern.length + 1 + options.length + 1

def valueLength (type : UInt8) (src : List UInt8) : Option Nat :=
  (layout type).bind fun layout => layout.length src

def readElement : List UInt8 → Option (Element × List UInt8)
  | [] => none
  | type :: rest =>
    match readCString rest with
    | none => none
    | some (key, src) =>
      match valueLength type src with
      | none => none
      | some length =>
        if length ≤ src.length then
          some ({ key, raw := { type, value := src.take length } }, src.drop length)
        else none

def readDocument (src : List UInt8) : Option (List UInt8 × List UInt8) :=
  match readLength src with
  | none => none
  | some (length, _) =>
    if length < 4 || src.length < length then none
    else some (src.take length, src.drop length)

def readBinary (src : List UInt8) : Option (UInt8 × List UInt8 × List UInt8) :=
  match readLength src with
  | some (length, subtype :: rest) =>
    if rest.length < length then none
    else if subtype = 0x02 then
      match readLength rest with
      | none => none
      | some (length, rest) =>
        if rest.length < length then none
        else some (subtype, rest.take length, rest.drop length)
    else some (subtype, rest.take length, rest.drop length)
  | _ => none

/-- What lies between the length and the last zero of exactly one document. -/
def contents (payload : List UInt8) : Option (List UInt8) :=
  match readDocument payload with
  | some (document, []) =>
    if 5 ≤ document.length && document.getLast? == some 0 then some (document.drop 4).dropLast
    else none
  | _ => none

def elementsFrom : Nat → List UInt8 → Option (List Element)
  | _, [] => some []
  | 0, _ :: _ => none
  | fuel + 1, b :: src =>
    match readElement (b :: src) with
    | none => none
    | some (element, rest) => (elementsFrom fuel rest).map (element :: ·)

def elements (payload : List UInt8) : Option (List Element) :=
  (contents payload).bind fun src => elementsFrom src.length src

/-- The value of the first element of the name. -/
def lookupFrom (key : List UInt8) : Nat → List UInt8 → Option RawValue
  | 0, _ => none
  | fuel + 1, src =>
    match readElement src with
    | none => none
    | some (element, rest) =>
      if element.key = key then some element.raw else lookupFrom key fuel rest

def lookup (payload key : List UInt8) : Option RawValue :=
  (contents payload).bind fun src => lookupFrom key src.length src

/-! ## Writing -/

def Element.bytes (element : Element) : List UInt8 :=
  element.raw.type :: (element.key ++ 0 :: element.raw.value)

def stringBytes (text : List UInt8) : List UInt8 :=
  Bytes.toLittleEndian 4 (text.length + 1) ++ (text ++ [0])

def binaryBytes (subtype : UInt8) (data : List UInt8) : List UInt8 :=
  Bytes.toLittleEndian 4 data.length ++ subtype :: data

variable (elements : List Element)

def size : Nat := (elements.flatMap Element.bytes).length + 5

def documentBytes : List UInt8 :=
  Bytes.toLittleEndian 4 (size elements) ++ (elements.flatMap Element.bytes ++ [0])

/-- A document is at most `2 ^ 31 - 1` bytes, and no name has a zero in it. -/
def marshal : Option (List UInt8) :=
  if elements.all (fun element => !element.key.contains 0) && size elements < 2 ^ 31 then
    some (documentBytes elements)
  else none

/-! ## Lengths and texts -/

theorem readLength_toLittleEndian {n : Nat} (h : n < 2 ^ 31) (rest : List UInt8) :
    readLength (Bytes.toLittleEndian 4 n ++ rest) = some (n, rest) := by
  have hn : Bytes.littleEndian (Bytes.toLittleEndian 4 n) = n :=
    Bytes.littleEndian_toLittleEndian (by omega)
  show (if Bytes.littleEndian (Bytes.toLittleEndian 4 n) < 2 ^ 31 then
    some (Bytes.littleEndian (Bytes.toLittleEndian 4 n), rest) else none) = _
  rw [hn, if_pos h]

theorem readLength_append (h : 4 ≤ src.length) (rest : List UInt8) :
    readLength (src ++ rest) =
      (readLength src).map fun (length, after) => (length, after ++ rest) := by
  match src, h with
  | a :: b :: c :: d :: src, _ =>
    simp only [cons_append, readLength]
    split <;> rfl

theorem readCString_append (h : 0 ∉ text) (rest : List UInt8) :
    readCString (text ++ 0 :: rest) = some (text, rest) := by
  induction text with
  | nil => rfl
  | cons b text ih =>
    rw [mem_cons, not_or] at h
    rw [cons_append, readCString, if_neg (Ne.symm h.1), ih h.2]
    rfl

theorem readCString_eq (h : readCString src = some (text, rest)) :
    src = text ++ 0 :: rest ∧ 0 ∉ text := by
  induction src generalizing text with
  | nil => cases h
  | cons b src ih =>
    rw [readCString] at h
    split at h
    · rename_i hb
      cases h
      exact ⟨by rw [hb]; rfl, not_mem_nil⟩
    · rename_i hb
      cases hread : readCString src with
      | none => rw [hread] at h; cases h
      | some read =>
        rw [hread] at h
        cases h
        obtain ⟨hsrc, hfree⟩ := ih hread
        refine ⟨by rw [cons_append, ← hsrc], ?_⟩
        rw [mem_cons, not_or]
        exact ⟨fun hzero => hb hzero.symm, hfree⟩

/-! ## Framed values -/

/-- Where the value ends does not depend on what follows. -/
def Framed (raw : RawValue) : Prop :=
  ∀ rest, valueLength raw.type (raw.value ++ rest) = some raw.value.length

variable {type : UInt8}

theorem framed_fixed {value : List UInt8} (h : layout type = some (.fixed value.length)) :
    Framed ⟨type, value⟩ := by
  intro rest
  rw [valueLength, h]
  rfl

theorem framed_counted {extra n : Nat} {tail : List UInt8}
    (h : layout type = some (.counted extra)) (hn : n < 2 ^ 31)
    (length : 4 + tail.length = n + extra) : Framed ⟨type, Bytes.toLittleEndian 4 n ++ tail⟩ := by
  intro rest
  rw [valueLength, h, Option.bind_some, Layout.length, append_assoc, readLength_toLittleEndian hn,
    Option.map_some, length_append, Bytes.length_toLittleEndian, length]

@[simp] theorem length_stringBytes (text : List UInt8) :
    (stringBytes text).length = text.length + 5 := by
  simp only [stringBytes, length_append, Bytes.length_toLittleEndian, length_singleton]
  omega

@[simp] theorem length_binaryBytes (subtype : UInt8) (data : List UInt8) :
    (binaryBytes subtype data).length = data.length + 5 := by
  simp only [binaryBytes, length_append, Bytes.length_toLittleEndian, length_cons]
  omega

theorem framed_string (h : text.length + 1 < 2 ^ 31) : Framed ⟨typeString, stringBytes text⟩ := by
  have hlayout : layout typeString = some (.counted 4) := rfl
  refine framed_counted hlayout h ?_
  rw [length_append, length_singleton]
  omega

theorem framed_binary (subtype : UInt8) {data : List UInt8} (h : data.length < 2 ^ 31) :
    Framed ⟨typeBinary, binaryBytes subtype data⟩ := by
  have hlayout : layout typeBinary = some (.counted 5) := rfl
  refine framed_counted hlayout h ?_
  rw [length_cons]
  omega

variable {elements : List Element}

theorem framed_document (h : size elements < 2 ^ 31) :
    Framed ⟨typeEmbeddedDocument, documentBytes elements⟩ := by
  have hlayout : layout typeEmbeddedDocument = some (.counted 0) := rfl
  refine framed_counted hlayout h ?_
  rw [length_append, length_singleton, size]
  omega

theorem Framed.of_valueLength {raw : RawValue}
    (h : valueLength raw.type (raw.value ++ rest) = some raw.value.length)
    (long : ∀ extra, layout raw.type = some (.counted extra) → 4 ≤ raw.value.length) :
    Framed raw := by
  intro other
  cases hlayout : layout raw.type with
  | none => rw [valueLength, hlayout] at h; cases h
  | some layout =>
    rw [valueLength, hlayout, Option.bind_some] at h ⊢
    cases layout with
    | fixed width => exact h
    | counted extra =>
      have hlong := long extra hlayout
      rw [Layout.length, readLength_append hlong] at h ⊢
      rwa [Option.map_map] at h ⊢
    | texts =>
      rw [Layout.length] at h
      split at h
      · cases h
      rename_i pattern rest' hpattern
      cases hoptions : readCString rest' with
      | none => rw [hoptions] at h; cases h
      | some read =>
        obtain ⟨options, after⟩ := read
        rw [hoptions, Option.map_some, Option.some.injEq] at h
        dsimp only at h
        obtain ⟨hsrc, hfree⟩ := readCString_eq hpattern
        obtain ⟨hsrc', hfree'⟩ := readCString_eq hoptions
        have hvalue : raw.value = pattern ++ 0 :: (options ++ [0]) := by
          have hsplit : raw.value ++ rest = (pattern ++ 0 :: (options ++ [0])) ++ after := by
            rw [hsrc, hsrc']
            simp
          refine (append_inj hsplit ?_).1
          simp only [length_append, length_cons, length_nil]
          omega
        have hread : raw.value ++ other = pattern ++ 0 :: (options ++ 0 :: other) := by
          rw [hvalue]
          simp
        rw [Layout.length, hread, readCString_append hfree]
        dsimp only
        rw [readCString_append hfree', Option.map_some]
        rw [h]

/-- Only containers can be too short for their length. -/
theorem layout_counted {extra : Nat} (h : layout type = some (.counted extra)) :
    4 ≤ extra ∨ type = typeEmbeddedDocument ∨ type = typeArray ∨ type = typeCodeWithScope := by
  have hall : ∀ n : Fin 256, ∀ extra ∈ [0, 4, 5, 16],
      layout (UInt8.ofNat n) = some (.counted extra) →
        4 ≤ extra ∨ UInt8.ofNat n = typeEmbeddedDocument ∨ UInt8.ofNat n = typeArray ∨
          UInt8.ofNat n = typeCodeWithScope := by
    decide +kernel
  have hextra : extra ∈ [0, 4, 5, 16] := by
    unfold layout at h
    split at h <;> simp_all
  have htype := hall ⟨type.toNat, type.toNat_lt⟩ extra hextra
  rw [UInt8.ofNat_toNat] at htype
  exact htype h

/-! ## Elements -/

theorem readElement_bytes (name : 0 ∉ element.key) (framed : Framed element.raw)
    (rest : List UInt8) : readElement (element.bytes ++ rest) = some (element, rest) := by
  obtain ⟨key, type, value⟩ := element
  show readElement (type :: ((key ++ 0 :: value) ++ rest)) = _
  rw [append_assoc, cons_append, readElement, readCString_append name]
  dsimp only
  rw [framed rest]
  dsimp only
  rw [if_pos (by rw [length_append]; omega), take_left, drop_left]

theorem readElement_eq (h : readElement src = some (element, rest)) :
    src = element.bytes ++ rest ∧ 0 ∉ element.key ∧
      valueLength element.raw.type (element.raw.value ++ rest) = some element.raw.value.length := by
  cases src with
  | nil => cases h
  | cons type src =>
    rw [readElement] at h
    split at h
    · cases h
    rename_i key src' hkey
    split at h
    · cases h
    rename_i length hlength
    split at h
    · rename_i hle
      cases h
      obtain ⟨hsrc, hname⟩ := readCString_eq hkey
      refine ⟨?_, hname, ?_⟩
      · rw [hsrc, Element.bytes, cons_append, append_assoc, cons_append, take_append_drop]
      · rw [take_append_drop, hlength, length_take, Nat.min_eq_left hle]
    · cases h

theorem readElement_framed (h : readElement src = some (element, rest))
    (long : element.raw.type = typeEmbeddedDocument ∨ element.raw.type = typeArray ∨
      element.raw.type = typeCodeWithScope → 4 ≤ element.raw.value.length) :
    Framed element.raw := by
  obtain ⟨_, _, hlength⟩ := readElement_eq h
  refine Framed.of_valueLength hlength ?_
  intro extra hlayout
  rcases layout_counted hlayout with hextra | htype
  · rw [valueLength, hlayout, Option.bind_some, Layout.length] at hlength
    cases hread : readLength (element.raw.value ++ rest) with
    | none => rw [hread] at hlength; cases hlength
    | some read =>
      rw [hread, Option.map_some, Option.some.injEq] at hlength
      dsimp only at hlength
      omega
  · exact long htype

theorem bytes_length_pos (element : Element) : 0 < element.bytes.length := Nat.succ_pos _

theorem elementsFrom_bytes (h : ∀ element ∈ elements, 0 ∉ element.key ∧ Framed element.raw)
    {fuel : Nat} (hfuel : (elements.flatMap Element.bytes).length ≤ fuel) :
    elementsFrom fuel (elements.flatMap Element.bytes) = some elements := by
  induction elements generalizing fuel with
  | nil => exact elementsFrom.eq_1 fuel
  | cons element elements ih =>
    have hpos := bytes_length_pos element
    rw [flatMap_cons, length_append] at hfuel
    obtain ⟨fuel, rfl⟩ : ∃ n, fuel = n + 1 := ⟨fuel - 1, by omega⟩
    obtain ⟨hname, hframed⟩ := h element mem_cons_self
    have hread := readElement_bytes hname hframed (elements.flatMap Element.bytes)
    rw [flatMap_cons]
    rw [Element.bytes, cons_append] at hread ⊢
    rw [elementsFrom, hread]
    dsimp only
    rw [ih (forall_mem_cons.mp h).2 (by omega), Option.map_some]

theorem elementsFrom_mem {fuel : Nat} (h : elementsFrom fuel src = some elements)
    (hmem : element ∈ elements) : ∃ place rest, readElement place = some (element, rest) := by
  induction fuel generalizing src elements with
  | zero =>
    cases src with
    | nil =>
      cases h
      cases hmem
    | cons b src => rw [elementsFrom] at h; cases h
  | succ fuel ih =>
    cases src with
    | nil =>
      cases h
      cases hmem
    | cons b src =>
      rw [elementsFrom] at h
      split at h
      · cases h
      rename_i first rest hread
      cases hrest : elementsFrom fuel rest with
      | none => rw [hrest] at h; cases h
      | some others =>
        rw [hrest] at h
        cases h
        rcases mem_cons.mp hmem with rfl | hmem
        · exact ⟨_, _, hread⟩
        · exact ih hrest hmem

/-! ## Documents -/

theorem contents_length (h : contents payload = some src) : 4 ≤ payload.length := by
  rw [contents] at h
  split at h
  · rename_i document hread
    split at h
    · rename_i hok
      rw [Bool.and_eq_true, decide_eq_true_eq] at hok
      have hle : document.length ≤ payload.length := by
        rw [readDocument] at hread
        split at hread
        · cases hread
        split at hread
        · cases hread
        · obtain ⟨rfl, _⟩ := Prod.mk.inj (Option.some.inj hread)
          exact length_take_le' _ _
      omega
    · cases h
  · cases h

theorem length_documentBytes (elements : List Element) :
    (documentBytes elements).length = size elements := by
  rw [documentBytes, size, length_append, length_append, Bytes.length_toLittleEndian,
    length_singleton]
  omega

theorem readDocument_documentBytes (h : size elements < 2 ^ 31) :
    readDocument (documentBytes elements) = some (documentBytes elements, []) := by
  have hlength := length_documentBytes elements
  have hread : readLength (documentBytes elements) =
      some (size elements, elements.flatMap Element.bytes ++ [0]) :=
    readLength_toLittleEndian h _
  rw [readDocument, hread]
  dsimp only
  rw [if_neg, ← hlength, take_length, drop_length]
  rw [hlength, size]
  simp

theorem contents_documentBytes (h : size elements < 2 ^ 31) :
    contents (documentBytes elements) = some (elements.flatMap Element.bytes) := by
  have hlast : (documentBytes elements).getLast? = some 0 := by
    rw [documentBytes, ← append_assoc, getLast?_concat]
  rw [contents, readDocument_documentBytes h]
  dsimp only
  rw [hlast, length_documentBytes, if_pos (by rw [size]; simp), documentBytes,
    drop_left' (Bytes.length_toLittleEndian _ _), dropLast_concat]

theorem marshal_eq (h : marshal elements = some payload) :
    payload = documentBytes elements ∧ size elements < 2 ^ 31 ∧
      ∀ element ∈ elements, 0 ∉ element.key := by
  rw [marshal] at h
  split at h
  · rename_i hok
    rw [Bool.and_eq_true, all_eq_true, decide_eq_true_eq] at hok
    cases h
    refine ⟨rfl, hok.2, ?_⟩
    intro element hmem hzero
    have hname := hok.1 element hmem
    rw [contains_iff_mem.mpr hzero] at hname
    cases hname
  · cases h

theorem marshal_of_names (hsize : size elements < 2 ^ 31)
    (names : ∀ element ∈ elements, 0 ∉ element.key) :
    marshal elements = some (documentBytes elements) := by
  rw [marshal, if_pos]
  rw [Bool.and_eq_true, all_eq_true, decide_eq_true_eq]
  refine ⟨?_, hsize⟩
  intro element hmem
  rw [Bool.not_eq_true', ← Bool.not_eq_true, contains_iff_mem]
  exact names element hmem

theorem elements_marshal (h : marshal elements = some payload)
    (framed : ∀ element ∈ elements, Framed element.raw) :
    BsonWire.elements payload = some elements := by
  obtain ⟨rfl, hsize, hnames⟩ := marshal_eq h
  rw [BsonWire.elements, contents_documentBytes hsize, Option.bind_some]
  exact elementsFrom_bytes (fun element hmem => ⟨hnames element hmem, framed element hmem⟩)
    (Nat.le_refl _)

theorem elements_mem (h : BsonWire.elements payload = some elements) (hmem : element ∈ elements) :
    ∃ place rest, readElement place = some (element, rest) := by
  rw [BsonWire.elements] at h
  cases hcontents : contents payload with
  | none => rw [hcontents] at h; cases h
  | some src =>
    rw [hcontents, Option.bind_some] at h
    exact elementsFrom_mem h hmem

/-- The value of the first element is found under its name. -/
theorem lookup_documentBytes {others : List Element} (hsize : size (element :: others) < 2 ^ 31)
    (name : 0 ∉ element.key) (framed : Framed element.raw) :
    lookup (documentBytes (element :: others)) element.key = some element.raw := by
  have hread := readElement_bytes name framed (others.flatMap Element.bytes)
  have hpos := bytes_length_pos element
  obtain ⟨fuel, hfuel⟩ :
      ∃ fuel, (element.bytes ++ others.flatMap Element.bytes).length = fuel + 1 :=
    ⟨(element.bytes ++ others.flatMap Element.bytes).length - 1, by
      rw [length_append]; omega⟩
  rw [lookup, contents_documentBytes hsize, Option.bind_some, flatMap_cons, hfuel, lookupFrom,
    hread]
  dsimp only
  rw [if_pos rfl]

theorem readBinary_binaryBytes {subtype : UInt8} {data : List UInt8} (h : data.length < 2 ^ 31)
    (hsubtype : subtype ≠ 0x02) :
    readBinary (binaryBytes subtype data) = some (subtype, data, []) := by
  rw [readBinary, binaryBytes, readLength_toLittleEndian h]
  dsimp only
  rw [if_neg (Nat.lt_irrefl _), if_neg hsubtype, take_length, drop_length]

/-- A value is shorter than the document it is in. -/
theorem length_lt_size (h : element ∈ elements) : element.raw.value.length < size elements := by
  have hbytes : element.bytes.length = element.key.length + element.raw.value.length + 2 := by
    simp only [Element.bytes, length_cons, length_append]
    omega
  have hle : element.bytes.length ≤ (elements.flatMap Element.bytes).length := by
    obtain ⟨before, after, rfl⟩ := append_of_mem h
    rw [flatMap_append, flatMap_cons, length_append, length_append]
    omega
  rw [size]
  omega

theorem size_append (elements others : List Element) :
    size elements ≤ size (elements ++ others) := by
  rw [size, size, flatMap_append, length_append]
  omega

end BsonWire
