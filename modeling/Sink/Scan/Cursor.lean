import Sink.Convert
import Sink.ReadBudget

/-!
# Scan cursors

`storage/scan.go` and the request types of `storage/native.go`. A cursor is a
checksum followed by the JSON text of a token: the position behind which the
next page starts, and a hash of the command it belongs to. The hash does not
cover the byte limit, the batch size and the cursor, so that these may change
from page to page.

`crypto/sha256` and `encoding/json` are given by `GoLib`, which carries what is
used of them: the length of a hash, and that a token survives its text.
`page_resume` is the round trip of a cursor.
-/

namespace Sink

open List

def invalidArgumentError (cause : GoError) : GoError := .operation .invalidArgument false cause

namespace Scan

def maxScanCursorBytes : Nat := 65536

/-- `ScanBackendBytes`: a page plus one full-sized lookahead hit and metadata. -/
def scanBackendBytes (maximum : Int) : Int :=
  let maximum := if maximum ≤ 0 then defaultMaxReadBytes else maximum
  2 * maximum + maxScanCursorBytes

/-! ## Requests -/

structure NativeRequest where
  uri : GoString
  method : GoString
  path : GoString
  query : GoString
  headers : List (GoString × List GoString)
  contentType : GoString
  payload : List UInt8
  maxBytes : Int
deriving Repr, DecidableEq

structure Projection where
  fields : List GoString
  exclude : Bool
deriving Repr, DecidableEq

structure ScanRequest where
  request : NativeRequest
  batchSize : Int
  cursor : List UInt8
  projection : Option Projection
deriving Repr, DecidableEq

structure ScanResponse where
  documents : List Document
  nextCursor : List UInt8
deriving Repr, DecidableEq

/-- `strings.TrimSpace(s) == ""`: nothing but white space, which beyond ASCII
is U+0085, U+00A0, U+1680, U+2000 to U+200A, U+2028, U+2029, U+202F, U+205F
and U+3000. -/
def blank : GoString → Bool
  | [] => true
  | 0xC2 :: c :: rest => (c == 0x85 || c == 0xA0) && blank rest
  | 0xE1 :: 0x9A :: 0x80 :: rest => blank rest
  | 0xE2 :: 0x80 :: c :: rest =>
    ((0x80 ≤ c && c ≤ 0x8A) || c == 0xA8 || c == 0xA9 || c == 0xAF) && blank rest
  | 0xE2 :: 0x81 :: 0x9F :: rest => blank rest
  | 0xE3 :: 0x80 :: 0x80 :: rest => blank rest
  | b :: rest => ((0x09 ≤ b && b ≤ 0x0D) || b == 0x20) && blank rest

/-- `utf8.ValidString`, reading `pending` more bytes of the current rune. -/
def validUTF8From : Nat → GoString → Bool
  | _, [] => true
  | pending + 1, _ :: rest => validUTF8From pending rest
  | 0, b :: rest =>
    match runeWidth (b :: rest) with
    | 0 => false
    | width + 1 => validUTF8From width rest

def validUTF8 (s : GoString) : Bool := validUTF8From 0 s

theorem validUTF8_ascii {text : GoString} (h : ∀ c ∈ text, c < 0x80) : validUTF8 text = true := by
  induction text with
  | nil => rfl
  | cons c rest ih =>
    have hwidth : runeWidth (c :: rest) = 1 := by
      simp [runeWidth, h c mem_cons_self]
    rw [validUTF8, validUTF8From, hwidth]
    exact ih (forall_mem_cons.mp h).2

/-- The loop of `Projection.Validate`. -/
def validateFields : List GoString → List GoString → Fallible Unit
  | _, [] => .ok ()
  | seen, field :: rest =>
    if blank field || !validUTF8 field || seen.contains field then
      .error (invalidArgumentError
        (.text (lit "projection fields must be nonempty, valid UTF-8 and unique")))
    else validateFields (field :: seen) rest

def Projection.validate : Option Projection → Fallible Unit
  | none => .ok ()
  | some p => validateFields [] p.fields

/-! ## Tokens -/

structure ScanToken where
  version : Int
  query : List UInt8
  position : List UInt8
deriving Repr, DecidableEq

/-- The parts of the Go library a cursor is made with. -/
structure GoLib where
  sha256 : List UInt8 → List UInt8
  sha256_length : ∀ bytes, (sha256 bytes).length = 32
  /-- `json.Marshal` of a command and its projection. -/
  marshalCommand : NativeRequest → Option Projection → Fallible (List UInt8)
  /-- `json.Marshal` of a token. -/
  marshalToken : ScanToken → Fallible (List UInt8)
  /-- A decoder with `DisallowUnknownFields` reads one token and nothing more. -/
  decodeToken : List UInt8 → Option ScanToken
  decodeToken_nil : decodeToken [] = none
  decode_marshal : ∀ token payload, token.query.length = 32 →
    marshalToken token = .ok payload → decodeToken payload = some token

structure ScanCursor where
  position : List UInt8
  query : List UInt8
deriving Repr, DecidableEq

def invalidCursor : GoError :=
  invalidArgumentError (.text (lit "invalid scan cursor or command changed"))

variable (lib : GoLib)

/-- The position a cursor carries for the command with hash `query`. -/
def readCursor (query cursor : List UInt8) : Fallible ScanCursor :=
  if cursor.length ≤ 32 ∨ cursor.length > maxScanCursorBytes then .error invalidCursor
  else
    let payload := cursor.drop 32
    if cursor.take 32 ≠ lib.sha256 payload then .error invalidCursor
    else
      match lib.decodeToken payload with
      | none => .error invalidCursor
      | some token =>
        if token.version ≠ 1 ∨ token.query ≠ query ∨ token.position.length = 0 then
          .error invalidCursor
        else .ok ⟨token.position, query⟩

def ScanRequest.resume (r : ScanRequest) : Fallible ScanCursor :=
  if r.batchSize < 1 ∨ r.batchSize > 1000 then
    .error (invalidArgumentError (.text (lit "scan batch size must be between 1 and 1000")))
  else do
    Projection.validate r.projection
    -- the projection is part of the scan identity, the byte limit is not
    let encoded ← (lib.marshalCommand { r.request with maxBytes := 0 } r.projection).mapError
      invalidArgumentError
    let query := lib.sha256 encoded
    if r.cursor.length = 0 then .ok ⟨[], query⟩ else readCursor lib query r.cursor

def ScanCursor.page (c : ScanCursor) (documents : List Document) (position : List UInt8) :
    Fallible ScanResponse :=
  if position.length = 0 then .ok ⟨documents, []⟩
  else do
    let payload ← lib.marshalToken ⟨1, c.query, position⟩
    let nextCursor := lib.sha256 payload ++ payload
    if nextCursor.length > maxScanCursorBytes then
      .error (resourceExhaustedError (.text (lit "scan position exceeds cursor byte limit")))
    else .ok ⟨documents, nextCursor⟩

/-! ## The budget of a response -/

/-- `NewResponseBudget`: an ordinary budget below the output of the RPC's
scope. Without a scope nothing is asked of memory. -/
def responseBudget : ReadBudget := .memory (.cell 0)

/-- The state behind a new response budget; `memory` holds what the scope
will answer. -/
def responseState (maxBytes : Int) (memory : List (Option GoError)) : ReserveState :=
  ⟨fun _ => .new maxBytes, memory⟩

def byteLimit (maxBytes : Int) : Int := if maxBytes ≤ 0 then defaultMaxReadBytes else maxBytes

def cost (documents : List Document) : Int :=
  (documents.map fun document => document.size + readOverhead).sum

theorem byteLimit_nonneg (maxBytes : Int) : 0 ≤ byteLimit maxBytes := by
  unfold byteLimit defaultMaxReadBytes
  split <;> omega

theorem responseState_remaining (maxBytes : Int) (memory : List (Option GoError)) :
    ((responseState maxBytes memory).cells 0).remaining = byteLimit maxBytes := rfl

theorem reserve_response {size : Int} {st st' : ReserveState}
    (h : responseBudget.reserve size st = (none, st')) :
    size + readOverhead ≤ (st.cells 0).remaining ∧
      (st'.cells 0).remaining = (st.cells 0).remaining - (size + readOverhead) := by
  simp only [responseBudget, ReadBudget.reserve, ReserveState.reserveCell] at h
  cases hcell : (st.cells 0).reserve size with
  | error e =>
    rw [hcell] at h
    cases h
  | ok cell =>
    rw [hcell] at h
    obtain ⟨hfits, rfl⟩ := BudgetCell.reserve_ok hcell
    have hroom : size + readOverhead ≤ (st.cells 0).remaining := by
      unfold BudgetCell.refuses at hfits
      omega
    refine ⟨hroom, ?_⟩
    cases hlease : st.lease with
    | nil =>
      rw [hlease] at h
      cases h
      simp [BudgetCell.charge]
    | cons answer rest =>
      rw [hlease] at h
      obtain ⟨-, rfl⟩ := Prod.mk.inj h
      simp [BudgetCell.charge]

/-! ## The round trip -/

variable {lib} {c : ScanCursor}

/-- What a response says: its documents, and a cursor exactly when there is a
position, which reads back as that position. -/
theorem page_ok {documents position response}
    (hquery : c.query.length = 32) (hpage : c.page lib documents position = .ok response) :
    response.documents = documents ∧ (response.nextCursor = [] ↔ position = []) ∧
      (position ≠ [] → readCursor lib c.query response.nextCursor = .ok ⟨position, c.query⟩) := by
  unfold ScanCursor.page at hpage
  by_cases hnone : position = []
  · subst hnone
    cases hpage
    simp
  · rw [if_neg (by simpa using hnone)] at hpage
    obtain ⟨payload, hmarshal, hpage⟩ := bind_ok hpage
    dsimp only at hpage
    split at hpage
    · cases hpage
    rename_i hlimit
    cases hpage
    have hdecode := lib.decode_marshal _ payload hquery hmarshal
    have hlength := lib.sha256_length payload
    have hpayload : payload ≠ [] := by
      rintro rfl
      rw [lib.decodeToken_nil] at hdecode
      cases hdecode
    have hpos := length_pos_iff.mpr hpayload
    rw [length_append, hlength] at hlimit
    refine ⟨rfl, ?_, fun _ => ?_⟩
    · simp [hpayload, hnone]
    · unfold readCursor
      rw [if_neg (by rw [length_append, hlength]; omega),
        drop_left' hlength, take_left' hlength, if_neg (by simp), hdecode]
      simp [hnone]

/-- What an accepted cursor carries: a checksum, the hash of the command and a
position. -/
theorem readCursor_ok {query cursor : List UInt8} (h : readCursor lib query cursor = .ok c) :
    c.query = query ∧ c.position ≠ [] ∧ ∃ payload, cursor = lib.sha256 payload ++ payload ∧
      lib.decodeToken payload = some ⟨1, query, c.position⟩ := by
  unfold readCursor at h
  split at h
  · cases h
  dsimp only at h
  split at h
  · cases h
  rename_i hchecksum
  split at h
  · cases h
  rename_i token htoken
  split at h
  · cases h
  rename_i hbad
  cases h
  rw [not_or, not_or, length_eq_zero_iff, not_not, not_not] at hbad
  obtain ⟨hversion, hquery, hposition⟩ := hbad
  refine ⟨rfl, hposition, cursor.drop 32, ?_, ?_⟩
  · rw [← not_not.mp hchecksum, take_append_drop]
  · rw [htoken, ← hversion, ← hquery]

/-- What `Resume` accepts. -/
theorem resume_ok {r : ScanRequest} (h : r.resume lib = .ok c) :
    1 ≤ r.batchSize ∧ ∃ encoded,
      lib.marshalCommand { r.request with maxBytes := 0 } r.projection = .ok encoded ∧
      c.query = lib.sha256 encoded ∧
      (r.cursor = [] → c.position = []) ∧
      (r.cursor ≠ [] → readCursor lib (lib.sha256 encoded) r.cursor = .ok c) := by
  unfold ScanRequest.resume at h
  split at h
  · cases h
  obtain ⟨-, -, h⟩ := bind_ok h
  obtain ⟨encoded, hencoded, h⟩ := coded_ok h
  refine ⟨by omega, encoded, hencoded, ?_⟩
  split at h
  · rename_i hempty
    cases h
    exact ⟨rfl, fun _ => rfl, fun hne => absurd (length_eq_zero_iff.mp hempty) hne⟩
  · rename_i hne
    exact ⟨(readCursor_ok h).1, fun hempty => absurd (by rw [hempty]; rfl) hne, fun _ => h⟩

end Scan

end Sink
