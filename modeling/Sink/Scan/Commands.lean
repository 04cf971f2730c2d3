import Sink.Lib.Base64
import Sink.Lib.Sha256
import Sink.Search.Payload

/-!
# Cursors belong to commands

`Resume` hashes `json.Marshal` of the command and its projection, with the byte
limit masked out. `encodeCommand` is that text: Go writes the fields of a
structure in their order, a map in the order of its keys (the order `headers`
has), bytes in padded base64, and `null` for a nil slice or pointer (a list that
is empty). The service makes the map of the headers, which is never nil.

Every part of the text can be told from what follows it (`Separates`), so the
text determines the command, and the hash does if it has no collision. A cursor
carries the hash, so it resumes the command it was made for and no other.
-/

namespace Sink.Scan

open Base64 JsonText List SearchStore

/-! ## Texts of commands -/

/-- Items with commas between them, and a closing bracket. -/
def joined (close : UInt8) : List GoString → GoString
  | [] => [close]
  | [item] => item ++ [close]
  | item :: next :: rest => item ++ 0x2C :: joined close (next :: rest)

def encodeStrings (texts : List GoString) : GoString :=
  if texts = [] then [0x6E, 0x75, 0x6C, 0x6C] else 0x5B :: joined 0x5D (texts.map encodeString)

def encodeHeader (header : GoString × List GoString) : GoString :=
  encodeString header.1 ++ 0x3A :: encodeStrings header.2

def encodeHeaders (headers : List (GoString × List GoString)) : GoString :=
  0x7B :: joined 0x7D (headers.map encodeHeader)

/-- The alphabet of `base64.StdEncoding`. -/
def standard (b : UInt8) : UInt8 := if b = 0x2D then 0x2B else if b = 0x5F then 0x2F else b

/-- `base64.StdEncoding`. -/
def encodePadded (bytes : List UInt8) : GoString :=
  (encode bytes).map standard ++ replicate ((4 - (encode bytes).length % 4) % 4) 0x3D

def encodeBytes (bytes : List UInt8) : GoString :=
  if bytes = [] then [0x6E, 0x75, 0x6C, 0x6C] else 0x22 :: (encodePadded bytes ++ [0x22])

def encodeBool : Bool → GoString
  | true => [0x74, 0x72, 0x75, 0x65]
  | false => [0x66, 0x61, 0x6C, 0x73, 0x65]

def encodeProjection : Option Projection → GoString
  | none => [0x6E, 0x75, 0x6C, 0x6C]
  | some p => encodeObject [(lit "Fields", encodeStrings p.fields),
      (lit "Exclude", encodeBool p.exclude)]

/-- `json.Marshal` of a command and its projection. -/
def encodeCommand (r : NativeRequest) (projection : Option Projection) : GoString :=
  encodeObject [(lit "URI", encodeString r.uri), (lit "Method", encodeString r.method),
    (lit "Path", encodeString r.path), (lit "Query", encodeString r.query),
    (lit "Headers", encodeHeaders r.headers), (lit "ContentType", encodeString r.contentType),
    (lit "Payload", encodeBytes r.payload), (lit "MaxBytes", decimal r.maxBytes),
    (lit "Projection", encodeProjection projection)]

/-- The texts of the command are UTF-8. -/
def NativeRequest.Valid (r : NativeRequest) : Prop :=
  ∀ text ∈ [r.uri, r.method, r.path, r.query, r.contentType] ++
    r.headers.flatMap fun header => header.1 :: header.2, validUTF8 text = true

instance (r : NativeRequest) : Decidable r.Valid := inferInstanceAs (Decidable (∀ _ ∈ _, _))

/-! ## Texts can be told apart -/

theorem joined_ne {close : UInt8} {item : GoString}
    (h : ∀ rest others, item ++ rest ≠ close :: others) (items : List GoString)
    (rest others : GoString) : joined close (item :: items) ++ rest ≠ close :: others := by
  cases items <;> simpa [joined] using h _ _

section

variable {α : Type} {S : α → Prop} {code : α → GoString}

/-- A text begins with the code of at most one value of `S`. -/
def Separates (S : α → Prop) (code : α → GoString) : Prop :=
  ∀ ⦃a b⦄, S a → S b → ∀ ⦃rest others⦄, code a ++ rest = code b ++ others → a = b

variable (h : Separates S code)

include h

variable {rest others : GoString}

theorem Separates.next {a b : α} (ha : S a) (hb : S b) (heq : code a ++ rest = code b ++ others) :
    a = b ∧ rest = others := by
  obtain rfl := h ha hb heq
  exact ⟨rfl, append_cancel_left heq⟩

/-- A field, and what follows it. -/
theorem Separates.field {a b : α} (ha : S a) (hb : S b) {name rest others : GoString}
    {c : UInt8} (heq : encodeString name ++ 0x3A :: (code a ++ c :: rest) =
      encodeString name ++ 0x3A :: (code b ++ c :: others)) : a = b ∧ rest = others := by
  obtain ⟨-, hfield⟩ := cons.inj (append_cancel_left heq)
  obtain ⟨rfl, htail⟩ := h.next ha hb hfield
  exact ⟨rfl, (cons.inj htail).2⟩

theorem Separates.joined {close : UInt8} (hclose : close ≠ 0x2C)
    (hopen : ∀ x rest others, code x ++ rest ≠ close :: others) :
    Separates (fun xs : List α => ∀ x ∈ xs, S x) fun xs => joined close (xs.map code) := by
  intro xs
  induction xs with
  | nil =>
    rintro (_ | ⟨y, ys⟩) - - rest others heq
    · rfl
    · exact absurd heq.symm (joined_ne (hopen y) _ _ _)
  | cons x xs ih =>
    rintro (_ | ⟨y, ys⟩) hxs hys rest others heq
    · exact absurd heq (joined_ne (hopen x) _ _ _)
    obtain ⟨hxS, hxtail⟩ := forall_mem_cons.mp hxs
    obtain ⟨hyS, hytail⟩ := forall_mem_cons.mp hys
    rcases xs with _ | ⟨x', xs⟩ <;> rcases ys with _ | ⟨y', ys⟩ <;>
      simp only [map_cons, map_nil, Scan.joined, append_assoc, cons_append] at heq <;>
      obtain ⟨rfl, htail⟩ := h.next hxS hyS heq <;>
      obtain ⟨hbyte, hmore⟩ := cons.inj htail
    · rfl
    · exact absurd hbyte hclose
    · exact absurd hbyte.symm hclose
    · rw [ih hxtail hytail (by simpa using hmore)]

end

theorem separates_string : Separates (fun text => validUTF8 text = true) encodeString := by
  intro a b ha hb rest others heq
  obtain ⟨ps, hps, htext⟩ := escapeText_spelled a
  obtain ⟨qs, hqs, htext'⟩ := escapeText_spelled b
  simp only [encodeString, cons_append, append_assoc, nil_append] at heq
  have hpieces := congrArg pieces (cons.inj heq).2
  rw [hps.pieces_eq, hqs.pieces_eq] at hpieces
  cases hpieces
  rw [← received_of_valid ha, ← received_of_valid hb, ← htext, ← htext']

theorem separates_strings :
    Separates (fun texts => ∀ text ∈ texts, validUTF8 text = true) encodeStrings := by
  intro xs ys hxs hys rest others heq
  dsimp only [encodeStrings] at heq
  split at heq <;> split at heq
  · rename_i hx hy
    rw [hx, hy]
  · cases heq
  · cases heq
  · exact separates_string.joined (by decide) (by simp [encodeString]) hxs hys (cons.inj heq).2

theorem separates_headers : Separates (fun headers : List (GoString × List GoString) =>
    ∀ header ∈ headers, ∀ text ∈ header.1 :: header.2, validUTF8 text = true) encodeHeaders := by
  have hheader : Separates (fun header : GoString × List GoString =>
      ∀ text ∈ header.1 :: header.2, validUTF8 text = true) encodeHeader := by
    rintro ⟨name, values⟩ ⟨name', values'⟩ h h' rest others heq
    obtain ⟨hname, hvalues⟩ := forall_mem_cons.mp h
    obtain ⟨hname', hvalues'⟩ := forall_mem_cons.mp h'
    simp only [encodeHeader, append_assoc] at heq
    obtain ⟨rfl, htail⟩ := separates_string.next hname hname' heq
    exact congrArg (Prod.mk name) (separates_strings hvalues hvalues' (cons.inj htail).2)
  intro headers others hall hall' rest rest' heq
  exact hheader.joined (by decide) (by simp [encodeHeader, encodeString]) hall hall'
    (cons.inj heq).2

theorem standard_letter : ∀ b, Letter b → standard b ≠ 0x22 ∧ standard b ≠ 0x3D ∧
    (if standard b = 0x2B then 0x2D else if standard b = 0x2F then 0x5F else standard b) = b := by
  have hall : ∀ n < 64, standard (symbol n) ≠ 0x22 ∧ standard (symbol n) ≠ 0x3D ∧
      (if standard (symbol n) = 0x2B then 0x2D else if standard (symbol n) = 0x2F then 0x5F
        else standard (symbol n)) = symbol n := by decide +kernel
  intro b hb
  obtain ⟨n, hn, rfl⟩ := mem_map.mp hb
  exact hall n (mem_range.mp hn)

theorem encodePadded_injective {a b : List UInt8} (h : encodePadded a = encodePadded b) :
    a = b := by
  have hback : ∀ bytes, ((encodePadded bytes).filter (· ≠ 0x3D)).map
      (fun b => if b = 0x2B then 0x2D else if b = 0x2F then 0x5F else b) = encode bytes := by
    intro bytes
    have hletters := encode_letters bytes
    rw [encodePadded, filter_append, filter_eq_self.mpr, filter_eq_nil_iff.mpr, append_nil, map_map]
    · refine (map_congr_left fun b hb => (standard_letter b (hletters b hb)).2.2).trans (map_id _)
    · simp
    · rintro c hc
      obtain ⟨b, hb, rfl⟩ := mem_map.mp hc
      simpa using (standard_letter b (hletters b hb)).2.1
  refine encode_injective ?_
  rw [← hback a, ← hback b, h]

theorem separates_bytes : Separates (fun _ => True) encodeBytes := by
  have hquote : ∀ bytes, (0x22 : UInt8) ∉ encodePadded bytes := by
    intro bytes hmem
    rcases mem_append.mp hmem with hmem | hmem
    · obtain ⟨b, hb, heq⟩ := mem_map.mp hmem
      exact (standard_letter b (encode_letters bytes b hb)).1 heq
    · cases eq_of_mem_replicate hmem
  intro a b _ _ rest others heq
  dsimp only [encodeBytes] at heq
  split at heq <;> split at heq
  · rename_i ha hb
    rw [ha, hb]
  · cases heq
  · cases heq
  · simp only [cons_append, append_assoc, nil_append] at heq
    exact encodePadded_injective (append_separator (hquote a) (hquote b) (cons.inj heq).2).1

theorem separates_projection :
    Separates (fun p => Projection.validate p = .ok ()) encodeProjection := by
  have hbool : Separates (fun _ => True) encodeBool := by
    rintro (_ | _) (_ | _) - - rest others heq <;> first | rfl | cases heq
  have hfields : ∀ fields seen, validateFields seen fields = .ok () →
      ∀ text ∈ fields, validUTF8 text = true := by
    intro fields
    induction fields with
    | nil => exact fun _ _ _ hmem => nomatch hmem
    | cons field fields ih =>
      intro seen h
      rw [validateFields] at h
      split at h
      · cases h
      rename_i hfield
      simp only [Bool.or_eq_true, not_or, Bool.not_eq_true', Bool.not_eq_false] at hfield
      exact forall_mem_cons.mpr ⟨hfield.1.2, ih _ h⟩
  rintro (_ | ⟨fields, exclude⟩) (_ | ⟨fields', exclude'⟩) hp hq rest others heq
  · rfl
  · cases heq
  · cases heq
  · simp only [encodeProjection, encodeObject, encodeFields, cons_append, append_assoc] at heq
    obtain ⟨rfl, htail⟩ := separates_strings.field (hfields _ _ hp) (hfields _ _ hq)
      (cons.inj heq).2
    obtain ⟨rfl, -⟩ := hbool.field trivial trivial htail
    rfl

/-- The text determines the command. -/
theorem encodeCommand_injective {r r' p p'}
    (hr : r.Valid) (hr' : r'.Valid) (hp : Projection.validate p = .ok ())
    (hp' : Projection.validate p' = .ok ()) (hbytes : r.maxBytes = r'.maxBytes)
    (h : encodeCommand r p = encodeCommand r' p') : r = r' ∧ p = p' := by
  obtain ⟨uri, method, path, query, headers, contentType, payload, maxBytes⟩ := r
  simp only [NativeRequest.Valid, cons_append, nil_append, forall_mem_cons, mem_flatMap,
    forall_exists_index, and_imp] at hr hr'
  obtain ⟨huri, hmethod, hpath, hquery, htype, hheaders⟩ := hr
  obtain ⟨huri', hmethod', hpath', hquery', htype', hheaders'⟩ := hr'
  subst hbytes
  obtain ⟨rfl, h₁⟩ := separates_string.field huri huri' (cons.inj h).2
  obtain ⟨rfl, h₂⟩ := separates_string.field hmethod hmethod' h₁
  obtain ⟨rfl, h₃⟩ := separates_string.field hpath hpath' h₂
  obtain ⟨rfl, h₄⟩ := separates_string.field hquery hquery' h₃
  obtain ⟨rfl, h₅⟩ := separates_headers.field (fun header hmem text => hheaders text header hmem)
    (fun header hmem text => hheaders' text header hmem) h₄
  obtain ⟨rfl, h₆⟩ := separates_string.field htype htype' h₅
  obtain ⟨rfl, h₇⟩ := separates_bytes.field trivial trivial h₆
  have hlimit := append_cancel_left (cons.inj (append_cancel_left h₇)).2
  obtain ⟨rfl, -⟩ := separates_projection.field hp hp' (cons.inj hlimit).2
  exact ⟨rfl, rfl⟩

/-! ## Cursors -/

variable {lib : GoLib}

/-- The library writes commands as `encoding/json` does. -/
def WritesJSON (lib : GoLib) : Prop := ∀ r p, lib.marshalCommand r p = .ok (encodeCommand r p)

namespace ScanRequest

/-- What a cursor of the request is for. -/
def command (r : ScanRequest) : NativeRequest × Option Projection :=
  ({ r.request with maxBytes := 0 }, r.projection)

def commandText (r : ScanRequest) : GoString := encodeCommand r.command.1 r.command.2

theorem commandText_injective {r r' : ScanRequest} (hr : r.request.Valid)
    (hr' : r'.request.Valid) (hp : Projection.validate r.projection = .ok ())
    (hp' : Projection.validate r'.projection = .ok ()) (h : r.commandText = r'.commandText) :
    r.command = r'.command := by
  have hcommand : r.command.1 = r'.command.1 ∧ r.command.2 = r'.command.2 :=
    encodeCommand_injective hr hr' hp hp' rfl h
  exact Prod.ext hcommand.1 hcommand.2

variable {r : ScanRequest}

theorem resume_eq (hjson : WritesJSON lib) (hmin : 1 ≤ r.batchSize) (hmax : r.batchSize ≤ 1000)
    (hp : Projection.validate r.projection = .ok ()) (hcursor : r.cursor ≠ []) :
    r.resume lib = readCursor lib (lib.sha256 r.commandText) r.cursor := by
  rw [resume, if_neg (by omega), hp, hjson]
  exact if_neg (by simpa using hcursor)

/-- An accepted request has a valid projection, and a cursor for its command. -/
theorem resume_accepts (hjson : WritesJSON lib) {c : ScanCursor} (h : r.resume lib = .ok c) :
    Projection.validate r.projection = .ok () ∧ c.query = lib.sha256 r.commandText ∧
      (r.cursor ≠ [] → readCursor lib (lib.sha256 r.commandText) r.cursor = .ok c) := by
  obtain ⟨-, encoded, hencoded, hquery, -, hread⟩ := resume_ok h
  obtain rfl : r.commandText = encoded := Except.ok.inj ((hjson _ _).symm.trans hencoded)
  refine ⟨?_, hquery, hread⟩
  unfold resume at h
  split at h
  · cases h
  obtain ⟨⟨⟩, hvalid, -⟩ := bind_ok h
  exact hvalid

end ScanRequest

/-- A cursor is for the position it was made with and for the command of the
request it was made for. -/
theorem cursors_bound (hjson : WritesJSON lib) {r : ScanRequest} {c : ScanCursor}
    (hresume : r.resume lib = .ok c) (hvalid : r.request.Valid) :
    (r.cursor ≠ [] → c.position ≠ [] ∧ ∃ payload, r.cursor = lib.sha256 payload ++ payload ∧
      lib.decodeToken payload = some ⟨1, lib.sha256 r.commandText, c.position⟩) ∧
    ∀ documents position response, position ≠ [] → c.page lib documents position = .ok response →
      ∀ r' : ScanRequest, r'.cursor = response.nextCursor →
        (r'.command = r.command → 1 ≤ r'.batchSize → r'.batchSize ≤ 1000 →
          r'.resume lib = .ok ⟨position, c.query⟩) ∧
        (r'.command ≠ r.command → r'.request.Valid →
          (lib.sha256 r'.commandText = lib.sha256 r.commandText → r'.commandText = r.commandText) →
          ∃ err, r'.resume lib = .error err) := by
  obtain ⟨hprojection, hquery, hread⟩ := ScanRequest.resume_accepts hjson hresume
  refine ⟨fun hcursor => (readCursor_ok (hread hcursor)).2, ?_⟩
  intro documents position response hposition hpage r' hcursor
  obtain ⟨-, hnone, hback⟩ := page_ok (by rw [hquery, lib.sha256_length]) hpage
  have hnext : r'.cursor ≠ [] := by
    rw [hcursor]
    exact mt hnone.mp hposition
  refine ⟨fun hsame hmin hmax => ?_, fun hother hvalid' hfree => ?_⟩
  · have htext : r'.commandText = r.commandText := by
      rw [ScanRequest.commandText, hsame]
      rfl
    have hprojection' : Projection.validate r'.projection = .ok () := by
      rwa [show r'.projection = r.projection from congrArg Prod.snd hsame]
    rw [ScanRequest.resume_eq hjson hmin hmax hprojection' hnext, htext, hcursor, ← hquery]
    exact hback hposition
  · cases hother' : r'.resume lib with
    | error err => exact ⟨err, rfl⟩
    | ok c' =>
      obtain ⟨hprojection', -, hread'⟩ := ScanRequest.resume_accepts hjson hother'
      obtain ⟨-, -, payload, hpayload, htoken⟩ := readCursor_ok (hback hposition)
      obtain ⟨-, -, payload', hpayload', htoken'⟩ := readCursor_ok (hread' hnext)
      -- one cursor has one token, and the token has one hash
      have hsame : payload = payload' := by
        rw [hcursor, hpayload] at hpayload'
        exact (append_inj' hpayload' (by
          have hlength := congrArg length hpayload'
          simp only [length_append, lib.sha256_length] at hlength
          omega)).2
      rw [← hsame, htoken, hquery] at htoken'
      have hhash : lib.sha256 r.commandText = lib.sha256 r'.commandText := by
        injection htoken' with htoken'
        exact (ScanToken.mk.inj htoken').2.1
      exact absurd (ScanRequest.commandText_injective hvalid' hvalid hprojection' hprojection
        (hfree hhash.symm)) hother

/-- `json.Marshal` of a token. -/
def encodeToken (token : ScanToken) : GoString :=
  encodeObject [(lit "v", decimal token.version),
    (lit "q", 0x5B :: joined 0x5D (token.query.map fun b => decimal b.toNat)),
    (lit "p", encodeBytes token.position)]

/-- The library itself, except that it knows one token only. -/
def goLib (known : ScanToken) : GoLib where
  sha256 := Sha256.digest
  sha256_length := Sha256.length_digest
  marshalCommand r p := .ok (encodeCommand r p)
  marshalToken token :=
    if token = known then .ok (encodeToken token) else refuse "unknown token"
  decodeToken payload := if payload = encodeToken known then some known else none
  decodeToken_nil := if_neg (by simp [encodeToken, encodeObject])
  decode_marshal token payload _ h := by
    split at h
    · rename_i hknown
      cases h
      rw [hknown, if_pos rfl]
    · cases h

def scanOf (uri : GoString) (batchSize : Int) (cursor : List UInt8) : ScanRequest :=
  ⟨⟨uri, lit "POST", lit "/_search", [], [(lit "Accept", [lit "*/*"])], [], lit "\x7b\x7d", 9⟩,
    batchSize, cursor, none⟩

/-- The token of a page of `scanOf` that ends with the sort value 7. -/
def sevenToken : ScanToken :=
  ⟨1, Sha256.digest (scanOf (lit "s/a") 1 []).commandText, lit "[7]"⟩

def sevenLib : GoLib := goLib sevenToken

def sevenStart : ScanCursor := ⟨[], sevenToken.query⟩

def sevenCursor : List UInt8 := Sha256.digest (encodeToken sevenToken) ++ encodeToken sevenToken

theorem page_seven : sevenStart.page sevenLib [] (lit "[7]") = .ok ⟨[], sevenCursor⟩ := by
  decide +kernel

theorem cursors_bound_uri :
    (scanOf (lit "s/a") 1 []).resume sevenLib = .ok sevenStart ∧
    sevenStart.page sevenLib [] (lit "[7]") = .ok ⟨[], sevenCursor⟩ ∧
    (scanOf (lit "s/a") 1000 sevenCursor).resume sevenLib = .ok ⟨lit "[7]", sevenToken.query⟩ ∧
    ∃ err, (scanOf (lit "s/b") 1 sevenCursor).resume sevenLib = .error err := by
  have hvalid : ∀ uri ∈ [lit "s/a", lit "s/b"], (scanOf uri 1 []).request.Valid := by decide +kernel
  have hhash : sevenLib.sha256 (scanOf (lit "s/b") 1 sevenCursor).commandText ≠
      sevenLib.sha256 (scanOf (lit "s/a") 1 []).commandText := by decide +kernel
  have hresume : (scanOf (lit "s/a") 1 []).resume sevenLib = .ok sevenStart := rfl
  have hbound := (cursors_bound (fun _ _ => rfl) hresume (hvalid _ (by simp))).2 [] (lit "[7]") _
    (by decide) page_seven
  refine ⟨hresume, page_seven, ?_, ?_⟩
  · exact (hbound (scanOf (lit "s/a") 1000 _) rfl).1 rfl (by decide) (by decide)
  · refine (hbound (scanOf (lit "s/b") 1 _) rfl).2 ?_ (hvalid (lit "s/b") (by simp))
      fun heq => absurd heq hhash
    decide +kernel

/-- The batch size is not part of the command, but it has to be from 1 to 1000. -/
theorem cursor_refused_for_batchSize :
    (scanOf (lit "s/a") 1 []).resume sevenLib = .ok sevenStart ∧
    sevenStart.page sevenLib [] (lit "[7]") = .ok ⟨[], sevenCursor⟩ ∧
    (scanOf (lit "s/a") 0 sevenCursor).command = (scanOf (lit "s/a") 1 []).command ∧
    ∃ err, (scanOf (lit "s/a") 0 sevenCursor).resume sevenLib = .error err :=
  ⟨rfl, page_seven, rfl, _, rfl⟩

end Sink.Scan
