import Mathlib.Data.List.TakeWhile

/-!
# JSON as bytes

A reader for JSON texts and the removal of insignificant white space, both on
bytes. `strip` leaves out the white space between the tokens of a text; it knows
nothing of JSON but where strings begin and end. A text and what `strip` leaves
of it read as the same value (`parse_strip`), and no line ends are left
(`strip_oneLine`): a string has none, since it may not hold a control
character.

Readers are composed, and so is what is shown about them: `Keeps` is closed
under sequencing. The exception is a number, which ends where the next byte
cannot belong to one. White space after it must not be what ends it, and is not
if a bracket, a comma or nothing comes next.
-/

namespace JsonText

open List Option

abbrev Bytes := List UInt8

/-- A value; `σ` stands for strings. -/
inductive Node (σ : Type) where
  | null
  | bool (value : Bool)
  /-- A number is the text that it is written as. -/
  | number (text : Bytes)
  | string (text : σ)
  | array (items : List (Node σ))
  | object (fields : List (σ × Node σ))

abbrev Value := Node Bytes

/-! ## Strings -/

/-- A piece of a string: a byte, or a code unit in hexadecimal. -/
inductive Piece where
  | byte (b : UInt8)
  | code (unit : Nat)
deriving DecidableEq

variable {b : UInt8} {src rest : Bytes} {ps : List Piece} {σ : Type} {v : Node σ}
  {as : List Piece → σ}

def hexDigit (b : UInt8) : Option Nat :=
  if 0x30 ≤ b ∧ b ≤ 0x39 then some (b.toNat - 0x30)
  else if 0x61 ≤ b ∧ b ≤ 0x66 then some (b.toNat - 0x57)
  else if 0x41 ≤ b ∧ b ≤ 0x46 then some (b.toNat - 0x37)
  else none

def hexCode (b₁ b₂ b₃ b₄ : UInt8) : Option Nat :=
  match hexDigit b₁, hexDigit b₂, hexDigit b₃, hexDigit b₄ with
  | some d₁, some d₂, some d₃, some d₄ => some (((d₁ * 16 + d₂) * 16 + d₃) * 16 + d₄)
  | _, _, _, _ => none

/-- What follows a backslash, and what it stands for. -/
def escapes : List (UInt8 × UInt8) :=
  [(0x22, 0x22), (0x5C, 0x5C), (0x2F, 0x2F), (0x62, 0x08), (0x66, 0x0C), (0x6E, 0x0A),
    (0x72, 0x0D), (0x74, 0x09)]

/-- The pieces of a string up to its closing quote, and what comes after it. -/
def pieces : Bytes → Option (List Piece × Bytes)
  | [] => none
  | b :: src =>
    if b = 0x22 then some ([], src)
    else if b = 0x5C then
      match src with
      | [] => none
      | e :: src =>
        if e = 0x75 then
          match src with
          | b₁ :: b₂ :: b₃ :: b₄ :: src =>
            match hexCode b₁ b₂ b₃ b₄, pieces src with
            | some unit, some (rest, src) => some (.code unit :: rest, src)
            | _, _ => none
          | _ => none
        else
          match escapes.lookup e, pieces src with
          | some c, some (rest, src) => some (.byte c :: rest, src)
          | _, _ => none
    else if b < 0x20 then none
    else
      match pieces src with
      | some (rest, src) => some (.byte b :: rest, src)
      | none => none

/-- The UTF-8 encoding of a code point. -/
def utf8 (n : Nat) : Bytes :=
  if n < 0x80 then [UInt8.ofNat n]
  else if n < 0x800 then [UInt8.ofNat (0xC0 + n / 0x40), UInt8.ofNat (0x80 + n % 0x40)]
  else if n < 0x10000 then
    [UInt8.ofNat (0xE0 + n / 0x1000), UInt8.ofNat (0x80 + n / 0x40 % 0x40),
      UInt8.ofNat (0x80 + n % 0x40)]
  else
    [UInt8.ofNat (0xF0 + n / 0x40000), UInt8.ofNat (0x80 + n / 0x1000 % 0x40),
      UInt8.ofNat (0x80 + n / 0x40 % 0x40), UInt8.ofNat (0x80 + n % 0x40)]

/-- The first unit of a surrogate pair, and the second one. -/
def isHigh (unit : Nat) : Bool := 0xD800 ≤ unit && unit < 0xDC00

def isLow (unit : Nat) : Bool := 0xDC00 ≤ unit && unit < 0xE000

/-- The bytes of a string after the first unit of a pair, if there is one. Half
a pair has no bytes and is left as it is. -/
def denotedFrom : Option Nat → List Piece → List Piece
  | none, [] => []
  | some high, [] => [.code high]
  | none, .byte b :: rest => .byte b :: denotedFrom none rest
  | some high, .byte b :: rest => .code high :: .byte b :: denotedFrom none rest
  | none, .code unit :: rest =>
    if isHigh unit then denotedFrom (some unit) rest
    else if isLow unit then .code unit :: denotedFrom none rest
    else (utf8 unit).map .byte ++ denotedFrom none rest
  | some high, .code unit :: rest =>
    if isLow unit then
      (utf8 (0x10000 + (high - 0xD800) * 0x400 + (unit - 0xDC00))).map .byte ++
        denotedFrom none rest
    else if isHigh unit then .code high :: denotedFrom (some unit) rest
    else .code high :: ((utf8 unit).map .byte ++ denotedFrom none rest)

/-- What a string denotes. -/
def denoted (pieces : List Piece) : List Piece := denotedFrom none pieces

/-- Half a pair becomes the replacement character. -/
def Piece.write : Piece → Bytes
  | .byte b => [b]
  | .code _ => utf8 0xFFFD

def Piece.isByte : Piece → Bool
  | .byte _ => true
  | .code _ => false

def text (pieces : List Piece) : Bytes := (denoted pieces).flatMap Piece.write

/-- Whether the text has no half of a pair. -/
def pairedFrom : Option Nat → List Piece → Bool
  | high, [] => high.isNone
  | high, .byte _ :: rest => high.isNone && pairedFrom none rest
  | none, .code unit :: rest =>
    if isHigh unit then pairedFrom (some unit) rest else !isLow unit && pairedFrom none rest
  | some _, .code unit :: rest => isLow unit && pairedFrom none rest

/-! ## Numbers -/

def isDigit (b : UInt8) : Bool := 0x30 ≤ b && b ≤ 0x39

/-- Bytes that a number can have: digits, a point, signs and the letter of an exponent. -/
def isNumberByte (b : UInt8) : Bool :=
  isDigit b || b == 0x2B || b == 0x2D || b == 0x2E || b == 0x45 || b == 0x65

def isExponent : Bytes → Bool
  | [] => true
  | e :: rest =>
    let digits := match rest with
      | sign :: digits => if sign == 0x2B || sign == 0x2D then digits else rest
      | [] => rest
    (e == 0x45 || e == 0x65) && !digits.isEmpty && digits.all isDigit

def isFraction : Bytes → Bool
  | [] => true
  | b :: rest =>
    if b = 0x2E then
      !(rest.takeWhile isDigit).isEmpty && isExponent (rest.dropWhile isDigit)
    else isExponent (b :: rest)

def isUnsigned : Bytes → Bool
  | [] => false
  | b :: rest =>
    if b = 0x30 then isFraction rest
    else isDigit b && isFraction (rest.dropWhile isDigit)

def isNumber : Bytes → Bool
  | [] => false
  | b :: rest => if b = 0x2D then isUnsigned rest else isUnsigned (b :: rest)

/-! ## Readers -/

/-- A reader takes a value off the front of a text. -/
abbrev Reader (α : Type) := Bytes → Option (α × Bytes)

def isSpace (b : UInt8) : Bool := b == 0x20 || b == 0x09 || b == 0x0A || b == 0x0D

def skip (src : Bytes) : Bytes := src.dropWhile isSpace

namespace Reader

variable {α β : Type}

def pure (a : α) : Reader α := fun src => some (a, src)

def fail : Reader α := fun _ => none

def bind (p : Reader α) (q : α → Reader β) : Reader β := fun src =>
  match p src with
  | some (a, rest) => q a rest
  | none => none

end Reader

def token {α : Type} (meaning : UInt8 → Option α) : Reader α := fun src =>
  match skip src with
  | b :: rest => (meaning b).map fun a => (a, rest)
  | [] => none

def expect (b : UInt8) : Reader Unit := token fun c => if c = b then some () else none

/-- Whether the next token begins with the byte. -/
def looksAt (b : UInt8) : Reader Bool := fun src => some ((skip src).head? == some b, src)

variable (as : List Piece → σ) in
/-- A string, after its opening quote; `as` says what its pieces are read as. -/
def string : Reader σ := fun src => (pieces src).map fun r => (as r.1, r.2)

variable (as : List Piece → σ) in
def quoted : Reader σ := (expect 0x22).bind fun _ => string as

/-- The texts of `true`, `false` and `null`. -/
def words : List (Bytes × Node σ) :=
  [([0x74, 0x72, 0x75, 0x65], .bool true), ([0x66, 0x61, 0x6C, 0x73, 0x65], .bool false),
    ([0x6E, 0x75, 0x6C, 0x6C], .null)]

def word (src : Bytes) : Option (Node σ × Bytes) :=
  (words.find? fun w => w.1.isPrefixOf src).map fun w => (w.2, src.drop w.1.length)

def number (src : Bytes) : Option (Node σ × Bytes) :=
  if isNumber (src.takeWhile isNumberByte) then
    some (.number (src.takeWhile isNumberByte), src.dropWhile isNumberByte)
  else none

def atom : Reader (Node σ) := fun src => (word (skip src)).or (number (skip src))

/-- After an item: a comma, or the closing bracket. -/
def more (close : UInt8) : Reader Bool :=
  token fun b => if b = 0x2C then some true else if b = close then some false else none

section

variable (as : List Piece → σ)

mutual

/-- Read a value. The fuel bounds the calls within each other. -/
def value : Nat → Reader (Node σ)
  | 0 => .fail
  | fuel + 1 => (looksAt 0x7B).bind fun
      | true => (expect 0x7B).bind fun _ => (looksAt 0x7D).bind fun
          | true => (expect 0x7D).bind fun _ => .pure (.object [])
          | false => (fields fuel).bind fun fields => .pure (.object fields)
      | false => (looksAt 0x5B).bind fun
          | true => (expect 0x5B).bind fun _ => (looksAt 0x5D).bind fun
              | true => (expect 0x5D).bind fun _ => .pure (.array [])
              | false => (items fuel).bind fun items => .pure (.array items)
          | false => (looksAt 0x22).bind fun
              | true => (quoted as).bind fun text => .pure (.string text)
              | false => atom

/-- The items of an array, with its closing bracket. -/
def items : Nat → Reader (List (Node σ))
  | 0 => .fail
  | fuel + 1 => (value fuel).bind fun item => (more 0x5D).bind fun
      | true => (items fuel).bind fun rest => .pure (item :: rest)
      | false => .pure [item]

/-- The fields of an object, with its closing bracket. -/
def fields : Nat → Reader (List (σ × Node σ))
  | 0 => .fail
  | fuel + 1 => (quoted as).bind fun name => (expect 0x3A).bind fun _ =>
    (value fuel).bind fun item => (more 0x7D).bind fun
      | true => (fields fuel).bind fun rest => .pure ((name, item) :: rest)
      | false => .pure [(name, item)]

end

end

/-! ## White space -/

/-- Where a byte stands. -/
inductive Place where
  | outside
  | inside
  /-- After a backslash. -/
  | escaped
deriving DecidableEq

def Place.next : Place → UInt8 → Place
  | .outside, b => if b = 0x22 then .inside else .outside
  | .inside, b => if b = 0x5C then .escaped else if b = 0x22 then .outside else .inside
  | .escaped, _ => .inside

/-- Remove the white space outside of strings. -/
def stripFrom : Place → Bytes → Bytes
  | _, [] => []
  | place, b :: rest =>
    if place = .outside ∧ isSpace b then stripFrom (place.next b) rest
    else b :: stripFrom (place.next b) rest

def strip (src : Bytes) : Bytes := stripFrom .outside src

/-- Read a text. Every call takes a byte that is not white space, so there is
fuel for all. -/
def parseAs (as : List Piece → σ) (src : Bytes) : Option (Node σ) :=
  match value as ((strip src).length + 1) src with
  | some (v, rest) => if skip rest = [] then some v else none
  | none => none

def parse : Bytes → Option Value := parseAs text

theorem stripFrom_stripFrom (place : Place) (src : Bytes) :
    stripFrom place (stripFrom place src) = stripFrom place src := by
  induction src generalizing place with
  | nil => rfl
  | cons b rest ih =>
    by_cases hspace : place = .outside ∧ isSpace b
    · obtain ⟨rfl, hb⟩ := hspace
      have hnext : Place.next .outside b = .outside := by
        refine if_neg ?_
        rintro rfl
        exact absurd hb (by decide)
      rw [stripFrom, if_pos ⟨rfl, hb⟩, hnext]
      exact ih .outside
    · rw [stripFrom, if_neg hspace, stripFrom, if_neg hspace, ih]

theorem strip_strip (src : Bytes) : strip (strip src) = strip src := stripFrom_stripFrom _ src

theorem strip_cons_space (hb : isSpace b = true) (rest : Bytes) :
    strip (b :: rest) = strip rest := by
  have hquote : b ≠ 0x22 := by
    rintro rfl
    exact absurd hb (by decide)
  rw [strip, stripFrom, if_pos ⟨rfl, hb⟩, Place.next, if_neg hquote, strip]

theorem strip_cons_token (hb : isSpace b = false) (rest : Bytes) :
    strip (b :: rest) = b :: stripFrom (Place.next .outside b) rest := by
  rw [strip, stripFrom, if_neg (by simp [hb])]

theorem strip_of_skip_nil (h : skip src = []) : strip src = [] := by
  induction src with
  | nil => rfl
  | cons b rest ih =>
    cases hb : isSpace b with
    | true =>
      rw [skip, dropWhile_cons_of_pos hb] at h
      rw [strip_cons_space hb, ih h]
    | false =>
      rw [skip, dropWhile_cons_of_neg (by simp [hb])] at h
      cases h

theorem strip_of_skip_cons (h : skip src = b :: rest) :
    isSpace b = false ∧ strip src = b :: stripFrom (Place.next .outside b) rest := by
  induction src with
  | nil => cases h
  | cons c src ih =>
    cases hc : isSpace c with
    | true =>
      rw [skip, dropWhile_cons_of_pos hc] at h
      rw [strip_cons_space hc]
      exact ih h
    | false =>
      rw [skip, dropWhile_cons_of_neg (by simp [hc])] at h
      obtain ⟨rfl, rfl⟩ := cons.inj h
      exact ⟨hc, strip_cons_token hc src⟩

theorem skip_cons_token (hb : isSpace b = false) (rest : Bytes) : skip (b :: rest) = b :: rest :=
  dropWhile_cons_of_neg (by simp [hb])

/-- The next token is the same, and nothing has to be skipped before it. -/
theorem skip_strip (src : Bytes) : skip (strip src) = strip src := by
  cases hskip : skip src with
  | nil =>
    rw [strip_of_skip_nil hskip]
    rfl
  | cons b rest =>
    obtain ⟨hb, hstrip⟩ := strip_of_skip_cons hskip
    rw [hstrip, skip_cons_token hb]

theorem head_strip (src : Bytes) : (strip src).head? = (skip src).head? := by
  cases hskip : skip src with
  | nil => rw [strip_of_skip_nil hskip]
  | cons b rest => rw [(strip_of_skip_cons hskip).2, head?_cons, head?_cons]

/-! ## Strings keep their bytes -/

abbrev Plain (b : UInt8) : Prop := b ≠ 0x22 ∧ b ≠ 0x5C ∧ b ≠ 0x0A

theorem hexDigit_plain {d : Nat} (h : hexDigit b = some d) : Plain b := by
  refine ⟨?_, ?_, ?_⟩ <;> (rintro rfl; cases h)

theorem hexCode_plain {b₁ b₂ b₃ b₄ : UInt8} {unit : Nat} (h : hexCode b₁ b₂ b₃ b₄ = some unit) :
    Plain b₁ ∧ Plain b₂ ∧ Plain b₃ ∧ Plain b₄ := by
  unfold hexCode at h
  split at h
  · rename_i h₁ h₂ h₃ h₄
    exact ⟨hexDigit_plain h₁, hexDigit_plain h₂, hexDigit_plain h₃, hexDigit_plain h₄⟩
  · cases h

theorem stripFrom_inside_byte (hquote : b ≠ 0x22) (hescape : b ≠ 0x5C) (rest : Bytes) :
    stripFrom .inside (b :: rest) = b :: stripFrom .inside rest := by
  rw [stripFrom, if_neg (by simp), Place.next, if_neg hescape, if_neg hquote]

theorem stripFrom_inside_escape (e : UInt8) (rest : Bytes) :
    stripFrom .inside (0x5C :: e :: rest) = 0x5C :: e :: stripFrom .inside rest := rfl

/-- `Spelled raw ps`: the string with the pieces `ps` is written as `raw`. -/
inductive Spelled : Bytes → List Piece → Prop where
  | nil : Spelled [] []
  | byte {b : UInt8} {raw : Bytes} {ps : List Piece} (hquote : b ≠ 0x22) (hescape : b ≠ 0x5C)
      (hcontrol : ¬b < 0x20) (hrest : Spelled raw ps) : Spelled (b :: raw) (.byte b :: ps)
  | escape {e c : UInt8} {raw : Bytes} {ps : List Piece} (hunit : e ≠ 0x75)
      (hlookup : escapes.lookup e = some c) (hrest : Spelled raw ps) :
      Spelled (0x5C :: e :: raw) (.byte c :: ps)
  | code {b₁ b₂ b₃ b₄ : UInt8} {unit : Nat} {raw : Bytes} {ps : List Piece}
      (hcode : hexCode b₁ b₂ b₃ b₄ = some unit) (hrest : Spelled raw ps) :
      Spelled (0x5C :: 0x75 :: b₁ :: b₂ :: b₃ :: b₄ :: raw) (.code unit :: ps)

namespace Spelled

variable {raw : Bytes} {ps : List Piece}

theorem pieces_eq (h : Spelled raw ps) (tail : Bytes) :
    pieces (raw ++ 0x22 :: tail) = some (ps, tail) := by
  induction h with
  | nil => rw [pieces.eq_def]; rfl
  | byte hquote hescape hcontrol _ ih =>
    rw [cons_append, pieces.eq_def]
    dsimp only
    rw [if_neg hquote, if_neg hescape, if_neg hcontrol, ih]
  | escape hunit hlookup _ ih =>
    rw [cons_append, cons_append, pieces.eq_def]
    dsimp only
    rw [if_neg (by decide), if_pos rfl, if_neg hunit, hlookup, ih]
  | code hcode _ ih =>
    simp only [cons_append]
    rw [pieces.eq_def]
    dsimp only
    rw [if_neg (by decide), if_pos rfl, if_pos rfl, hcode, ih]

theorem oneLine (h : Spelled raw ps) : 0x0A ∉ raw := by
  induction h with
  | nil => exact not_mem_nil
  | byte _ _ hcontrol _ ih =>
    refine not_mem_cons_of_ne_of_not_mem ?_ ih
    rintro rfl
    exact hcontrol (by decide)
  | escape _ hlookup _ ih =>
    refine not_mem_cons_of_ne_of_not_mem (by decide) (not_mem_cons_of_ne_of_not_mem ?_ ih)
    rintro rfl
    cases hlookup
  | code hcode _ ih =>
    obtain ⟨h₁, h₂, h₃, h₄⟩ := hexCode_plain hcode
    simp only [mem_cons, not_or]
    exact ⟨by decide, by decide, h₁.2.2.symm, h₂.2.2.symm, h₃.2.2.symm, h₄.2.2.symm, ih⟩

theorem stripFrom_eq (h : Spelled raw ps) (tail : Bytes) :
    stripFrom .inside (raw ++ 0x22 :: tail) = raw ++ 0x22 :: strip tail := by
  induction h with
  | nil => rfl
  | byte hquote hescape _ _ ih =>
    rw [cons_append, stripFrom_inside_byte hquote hescape, ih, cons_append]
  | escape _ _ _ ih =>
    simp only [cons_append]
    rw [stripFrom_inside_escape, ih]
  | code hcode _ ih =>
    obtain ⟨h₁, h₂, h₃, h₄⟩ := hexCode_plain hcode
    simp only [cons_append]
    rw [stripFrom_inside_escape, stripFrom_inside_byte h₁.1 h₁.2.1, stripFrom_inside_byte h₂.1
      h₂.2.1, stripFrom_inside_byte h₃.1 h₃.2.1, stripFrom_inside_byte h₄.1 h₄.2.1, ih]

end Spelled

theorem pieces_spelled (h : pieces src = some (ps, rest)) :
    ∃ raw, src = raw ++ 0x22 :: rest ∧ Spelled raw ps := by
  fun_induction pieces src generalizing ps rest with
  | case2 src =>
    cases h
    exact ⟨[], rfl, .nil⟩
  | case4 b₁ b₂ b₃ b₄ src unit rest' src' hpieces hcode _ ih =>
    cases h
    obtain ⟨raw, rfl, hspelled⟩ := ih hpieces
    exact ⟨_, rfl, .code hcode hspelled⟩
  | case7 e src hunit c rest' src' hpieces hlookup _ ih =>
    cases h
    obtain ⟨raw, rfl, hspelled⟩ := ih hpieces
    exact ⟨_, rfl, .escape hunit hlookup hspelled⟩
  | case10 b src hquote hescape hcontrol rest' src' hpieces ih =>
    cases h
    obtain ⟨raw, rfl, hspelled⟩ := ih hpieces
    exact ⟨_, rfl, .byte hquote hescape hcontrol hspelled⟩
  | case1 | case3 | case5 | case6 | case8 | case9 | case11 => cases h

/-! ## Readers keep what they read -/

/-- The reader reads the same from what `strip` leaves, if `D` holds of the
text after it; and what it reads has no line ends. -/
def KeepsWhen {α : Type} (D : Bytes → Prop) (p : Reader α) : Prop :=
  ∀ src a rest, p src = some (a, rest) → D rest →
    p (strip src) = some (a, strip rest) ∧
      ∃ front, strip src = front ++ strip rest ∧ 0x0A ∉ front

abbrev Keeps {α : Type} (p : Reader α) : Prop := KeepsWhen (fun _ => True) p

section

variable {α β : Type}
variable {D : Bytes → Prop} {p : Reader α}

theorem keeps_pure (a : α) : Keeps (.pure a) := by
  intro src b rest h _
  cases h
  exact ⟨rfl, [], rfl, not_mem_nil⟩

theorem keeps_fail : KeepsWhen D (.fail : Reader α) :=
  fun _ _ _ h => nomatch h

theorem KeepsWhen.weaken (h : Keeps p) : KeepsWhen D p :=
  fun src a rest heq _ => h src a rest heq trivial

variable {q : α → Reader β}

/-- A reader and the next one, which must see to it that the first one keeps. -/
theorem KeepsWhen.bind {D' : Bytes → Prop} (hp : KeepsWhen D p) (hq : ∀ a, KeepsWhen D' (q a))
    (hD : ∀ a src r, q a src = some r → D src) : KeepsWhen D' (p.bind q) := by
  intro src b rest h hrest
  unfold Reader.bind at h
  cases hfirst : p src with
  | none =>
    rw [hfirst] at h
    cases h
  | some r =>
    obtain ⟨a, mid⟩ := r
    rw [hfirst] at h
    obtain ⟨hsame, front, hfront, hline⟩ := hp src a mid hfirst (hD a mid _ h)
    obtain ⟨hsame', front', hfront', hline'⟩ := hq a mid b rest h hrest
    refine ⟨?_, front ++ front', ?_, ?_⟩
    · rw [Reader.bind, hsame]
      exact hsame'
    · rw [hfront, hfront', append_assoc]
    · rw [mem_append, not_or]
      exact ⟨hline, hline'⟩

theorem Keeps.bind (hp : Keeps p) (hq : ∀ a, KeepsWhen D (q a)) : KeepsWhen D (p.bind q) :=
  KeepsWhen.bind hp hq fun _ _ _ _ => trivial

end

theorem keeps_token {α : Type} {meaning : UInt8 → Option α} (hquote : meaning 0x22 = none) :
    Keeps (token meaning) := by
  intro src a rest h _
  unfold token at h
  split at h
  · rename_i b rest' hskip
    obtain ⟨a', hmeaning, ha⟩ := map_eq_some_iff.mp h
    cases ha
    obtain ⟨hb, hstrip⟩ := strip_of_skip_cons hskip
    have hplain : b ≠ 0x22 := by
      rintro rfl
      rw [hquote] at hmeaning
      cases hmeaning
    rw [Place.next, if_neg hplain] at hstrip
    refine ⟨?_, [b], hstrip, ?_⟩
    · rw [token, skip_strip, hstrip]
      dsimp only
      rw [hmeaning]
      rfl
    · rw [mem_singleton]
      rintro rfl
      exact absurd hb (by decide)
  · cases h

theorem keeps_looksAt (b : UInt8) : Keeps (looksAt b) := by
  intro src a rest h _
  cases h
  refine ⟨?_, [], rfl, not_mem_nil⟩
  rw [looksAt, skip_strip, head_strip]

theorem keeps_quoted : Keeps (quoted as) := by
  intro src name rest h _
  unfold quoted Reader.bind expect token at h
  cases hskip : skip src with
  | nil =>
    rw [hskip] at h
    cases h
  | cons b inner =>
    rw [hskip] at h
    by_cases hb : b = 0x22
    · obtain rfl := hb
      obtain ⟨⟨ps, rest'⟩, hpieces, hname⟩ := map_eq_some_iff.mp h
      cases hname
      obtain ⟨raw, rfl, hspelled⟩ := pieces_spelled hpieces
      obtain ⟨-, hstrip⟩ := strip_of_skip_cons hskip
      rw [Place.next, if_pos rfl, hspelled.stripFrom_eq] at hstrip
      refine ⟨?_, 0x22 :: raw ++ [0x22], by rw [hstrip]; simp, ?_⟩
      · rw [quoted, Reader.bind, expect, token, skip_strip, hstrip]
        exact congrArg (Option.map _) (hspelled.pieces_eq (strip rest'))
      · simp [hspelled.oneLine]
    · simp [hb] at h

/-! ## Words and numbers -/

/-- Text without white space and quotes is left as it is. -/
theorem strip_append {front : Bytes} (h : ∀ b ∈ front, isSpace b = false ∧ b ≠ 0x22)
    (rest : Bytes) : strip (front ++ rest) = front ++ strip rest := by
  induction front with
  | nil => rfl
  | cons b front ih =>
    obtain ⟨⟨hspace, hquote⟩, hfront⟩ := forall_mem_cons.mp h
    rw [cons_append, strip_cons_token hspace, Place.next, if_neg hquote, ← strip, ih hfront,
      cons_append]

theorem isNumberByte_plain (h : isNumberByte b = true) : isSpace b = false ∧ b ≠ 0x22 := by
  constructor
  · refine Bool.eq_false_iff.mpr fun hspace => ?_
    simp only [isSpace, Bool.or_eq_true, beq_iff_eq] at hspace
    rcases hspace with ((rfl | rfl) | rfl) | rfl <;> exact absurd h (by decide)
  · rintro rfl
    exact absurd h (by decide)

theorem strip_skip (src : Bytes) : strip (skip src) = strip src := by
  cases hskip : skip src with
  | nil =>
    rw [strip_of_skip_nil hskip]
    rfl
  | cons b rest =>
    obtain ⟨hb, hstrip⟩ := strip_of_skip_cons hskip
    rw [hstrip, strip_cons_token hb]

variable {w : Bytes × Node σ}

theorem words_plain (h : w ∈ words) : ∀ b ∈ w.1, isSpace b = false ∧ b ≠ 0x22 := by
  simp only [words, mem_cons, not_mem_nil, or_false] at h
  rcases h with rfl | rfl | rfl <;> dsimp only <;> decide +kernel

theorem word_append (h : w ∈ words) (tail : Bytes) : word (w.1 ++ tail) = some (w.2, tail) := by
  simp only [words, mem_cons, not_mem_nil, or_false] at h
  rcases h with rfl | rfl | rfl <;> rfl

theorem word_number (h : isNumberByte b = true) (rest : Bytes) :
    word (σ := σ) (b :: rest) = none := by
  have hne : 0x74 ≠ b ∧ 0x66 ≠ b ∧ 0x6E ≠ b := by
    refine ⟨?_, ?_, ?_⟩ <;> (rintro rfl; exact absurd h (by decide))
  simp [word, words, hne.1, hne.2.1, hne.2.2]

theorem keeps_word (h : word src = some (v, rest)) :
    word (strip src) = some (v, strip rest) ∧
      ∃ front, strip src = front ++ strip rest ∧ 0x0A ∉ front := by
  obtain ⟨w, hfind, hw⟩ := map_eq_some_iff.mp h
  cases hw
  have hmem := mem_of_find?_eq_some hfind
  have hprefix : w.1.isPrefixOf src = true :=
    find?_some (p := fun w : Bytes × Node σ => w.1.isPrefixOf src) hfind
  obtain ⟨tail, rfl⟩ := isPrefixOf_iff_prefix.mp hprefix
  rw [drop_left, strip_append (words_plain hmem)]
  refine ⟨word_append hmem _, w.1, rfl, fun hline => ?_⟩
  exact absurd (words_plain hmem _ hline).1 (by decide)

/-- White space does not end a number here. -/
def Delimited (src : Bytes) : Prop := ∀ b, (skip src).head? = some b → isNumberByte b = false

/-- A number ends where the next byte cannot belong to it. -/
theorem number_append {text tail : Bytes} (hnumber : isNumber text = true)
    (hbytes : ∀ b ∈ text, isNumberByte b = true)
    (htail : ∀ b, tail.head? = some b → isNumberByte b = false) :
    number (σ := σ) (text ++ tail) = some (.number text, tail) := by
  have htake : tail.takeWhile isNumberByte = [] := by
    cases tail with
    | nil => rfl
    | cons b tail => exact takeWhile_cons_of_neg (by simp [htail b rfl])
  have hdrop : tail.dropWhile isNumberByte = tail := by
    cases tail with
    | nil => rfl
    | cons b tail => exact dropWhile_cons_of_neg (by simp [htail b rfl])
  rw [number, takeWhile_append_of_pos hbytes, dropWhile_append_of_pos hbytes, htake,
    hdrop, append_nil, if_pos hnumber]

theorem keeps_number (h : number src = some (v, rest)) (hrest : Delimited rest) :
    word (σ := σ) (strip src) = none ∧ number (strip src) = some (v, strip rest) ∧
      ∃ front, strip src = front ++ strip rest ∧ 0x0A ∉ front := by
  unfold number at h
  split at h
  · rename_i hnumber
    cases h
    have hbytes : ∀ b ∈ src.takeWhile isNumberByte, isNumberByte b = true :=
      fun b hb => mem_takeWhile_imp hb
    have hstrip : strip src = src.takeWhile isNumberByte ++ strip (src.dropWhile isNumberByte) := by
      rw [← strip_append fun b hb => isNumberByte_plain (hbytes b hb), takeWhile_append_dropWhile]
    have hnext : ∀ b, (strip (src.dropWhile isNumberByte)).head? = some b →
        isNumberByte b = false := by
      intro b hb
      exact hrest b ((head_strip _).symm.trans hb)
    generalize src.takeWhile isNumberByte = text at hnumber hbytes hstrip ⊢
    generalize strip (src.dropWhile isNumberByte) = tail at hstrip hnext ⊢
    rw [hstrip]
    refine ⟨?_, ?_, text, rfl, fun hline => ?_⟩
    · cases text with
      | nil => cases hnumber
      | cons b text => exact word_number (hbytes b mem_cons_self) _
    · exact number_append hnumber hbytes hnext
    · exact absurd (hbytes _ hline) (by decide)
  · cases h

theorem keeps_atom : KeepsWhen Delimited (atom (σ := σ)) := by
  intro src v rest h hrest
  rw [atom, skip_strip, ← strip_skip src]
  rcases or_eq_some_iff.mp h with hword | ⟨-, hnumber⟩
  · obtain ⟨hsame, hfront⟩ := keeps_word hword
    rw [hsame]
    exact ⟨rfl, hfront⟩
  · obtain ⟨hnone, hsame, hfront⟩ := keeps_number hnumber hrest
    rw [hnone, hsame]
    exact ⟨rfl, hfront⟩

/-! ## Values -/

variable {close : UInt8}

theorem more_delimited (hclose : isNumberByte close = false) {r : Bool × Bytes}
    (h : more close src = some r) : Delimited src := by
  intro b hb
  unfold more token at h
  cases hskip : skip src with
  | nil =>
    rw [hskip] at hb
    cases hb
  | cons c rest =>
    rw [hskip] at h hb
    obtain rfl := some.inj hb
    by_cases hcomma : c = 0x2C
    · rw [hcomma]
      rfl
    by_cases hc : c = close
    · rw [hc]
      exact hclose
    · simp [hcomma, hc] at h

theorem bind_delimited {α : Type} (hclose : isNumberByte close = false) {q : Bool → Reader α}
    {r : α × Bytes} (h : (more close).bind q src = some r) : Delimited src := by
  unfold Reader.bind at h
  cases hmore : more close src with
  | none =>
    rw [hmore] at h
    cases h
  | some r => exact more_delimited hclose hmore

theorem keeps_value (fuel : Nat) :
    KeepsWhen Delimited (value as fuel) ∧ Keeps (items as fuel) ∧ Keeps (fields as fuel) := by
  induction fuel with
  | zero =>
    exact ⟨keeps_fail, keeps_fail, keeps_fail⟩
  | succ fuel ih =>
    obtain ⟨hvalue, hitems, hfields⟩ := ih
    rw [value, items, fields]
    refine ⟨?_, ?_, ?_⟩
    · refine Keeps.bind (keeps_looksAt _) fun brace => ?_
      cases brace with
      | true =>
        refine Keeps.bind (keeps_token rfl) fun _ =>
          Keeps.bind (keeps_looksAt _) fun close => ?_
        cases close with
        | true => exact Keeps.bind (keeps_token rfl) fun _ => .weaken (keeps_pure _)
        | false => exact Keeps.bind hfields fun _ => .weaken (keeps_pure _)
      | false =>
        refine Keeps.bind (keeps_looksAt _) fun bracket => ?_
        cases bracket with
        | true =>
          refine Keeps.bind (keeps_token rfl) fun _ =>
            Keeps.bind (keeps_looksAt _) fun close => ?_
          cases close with
          | true => exact Keeps.bind (keeps_token rfl) fun _ => .weaken (keeps_pure _)
          | false => exact Keeps.bind hitems fun _ => .weaken (keeps_pure _)
        | false =>
          refine Keeps.bind (keeps_looksAt _) fun quote => ?_
          cases quote with
          | true => exact Keeps.bind keeps_quoted fun _ => .weaken (keeps_pure _)
          | false => exact keeps_atom
    · refine KeepsWhen.bind hvalue (fun item => ?_) fun _ _ _ => bind_delimited rfl
      refine Keeps.bind (keeps_token rfl) fun again => ?_
      cases again with
      | true => exact Keeps.bind hitems fun _ => keeps_pure _
      | false => exact keeps_pure _
    · refine Keeps.bind keeps_quoted fun name => Keeps.bind (keeps_token rfl) fun _ => ?_
      refine KeepsWhen.bind hvalue (fun item => ?_) fun _ _ _ => bind_delimited rfl
      refine Keeps.bind (keeps_token rfl) fun again => ?_
      cases again with
      | true => exact Keeps.bind hfields fun _ => keeps_pure _
      | false => exact keeps_pure _

theorem delimited_of_skip_nil (h : skip src = []) : Delimited src := by
  intro b hb
  rw [h] at hb
  cases hb

/-- What `parse` and `strip` have to do with each other. -/
theorem strip_keeps (h : parseAs as src = some v) :
    parseAs as (strip src) = some v ∧ 0x0A ∉ strip src := by
  unfold parseAs at h
  split at h
  · rename_i v' rest hvalue
    split at h
    · rename_i hskip
      obtain rfl := some.inj h
      obtain ⟨hsame, front, hfront, hline⟩ :=
        (keeps_value _).1 src v' rest hvalue (delimited_of_skip_nil hskip)
      have hrest := strip_of_skip_nil hskip
      constructor
      · rw [parseAs, strip_strip, hsame]
        dsimp only
        rw [if_pos (by rw [hrest]; rfl)]
      · rw [hfront, hrest, append_nil]
        exact hline
    · cases h
  · cases h

/-- Without its white space a text reads as the same value. -/
theorem parse_strip {v : Value} (h : parse src = some v) :
    parse (strip src) = some v := (strip_keeps h).1

/-- Without its white space a text is one line. -/
theorem strip_oneLine {v : Value} (h : parse src = some v) : 0x0A ∉ strip src :=
  (strip_keeps h).2

/-! ## Reading what was written -/

variable {raw : Bytes}

theorem Spelled.bytes (h : ∀ b ∈ raw, b ≠ 0x22 ∧ b ≠ 0x5C ∧ ¬b < 0x20) (hrest : Spelled rest ps) :
    Spelled (raw ++ rest) (raw.map .byte ++ ps) := by
  induction raw with
  | nil => exact hrest
  | cons b raw ih =>
    obtain ⟨⟨hquote, hescape, hcontrol⟩, hraw⟩ := forall_mem_cons.mp h
    exact .byte hquote hescape hcontrol (ih hraw)

theorem write_bytes (bytes : Bytes) : (bytes.map Piece.byte).flatMap Piece.write = bytes := by
  induction bytes with
  | nil => rfl
  | cons b bytes ih => exact congrArg (cons b) ih

theorem pairedFrom_eq (high : Option Nat) :
    pairedFrom high ps = (denotedFrom high ps).all Piece.isByte := by
  induction ps generalizing high with
  | nil => cases high <;> rfl
  | cons piece rest ih =>
    cases high <;> cases piece <;> rw [pairedFrom, denotedFrom] <;>
      grind [Piece.isByte]

/-- The bytes that a string denotes are its text, unless it has half a pair. -/
theorem eq_denoted_iff {bytes : Bytes} :
    bytes.map .byte = denoted ps ↔ bytes = text ps ∧ pairedFrom none ps = true := by
  rw [pairedFrom_eq, text]
  change _ ↔ bytes = (denoted ps).flatMap _ ∧ (denoted ps).all _ = true
  generalize denoted ps = l
  constructor
  · rintro rfl
    exact ⟨(write_bytes bytes).symm, by simp [Piece.isByte]⟩
  · rintro ⟨rfl, h⟩
    induction l with
    | nil => rfl
    | cons piece l ih =>
      rw [all_cons, Bool.and_eq_true] at h
      cases piece with
      | byte b => exact congrArg (cons _) (ih h.2)
      | code unit => cases h.1

theorem text_bytes (raw : Bytes) (ps : List Piece) :
    text (raw.map .byte ++ ps) = raw ++ text ps := by
  induction raw with
  | nil => rfl
  | cons b raw ih => exact congrArg (cons b) ih

theorem text_code {unit : Nat} (hhigh : isHigh unit = false) (hlow : isLow unit = false)
    (rest : List Piece) : text (.code unit :: rest) = utf8 unit ++ text rest := by
  rw [text, denoted, denotedFrom, hhigh, hlow]
  exact (flatMap_append ..).trans (congrArg (· ++ _) (write_bytes _))

theorem Reader.bind_of {α β : Type} {p : Reader α} {a : α} (h : p src = some (a, rest))
    (q : α → Reader β) : p.bind q src = q a rest := by
  rw [Reader.bind, h]

theorem looksAt_cons {c : UInt8} (hc : isSpace c = false) (b : UInt8) (rest : Bytes) :
    looksAt b (c :: rest) = some (c == b, c :: rest) := by
  rw [looksAt, skip_cons_token hc]
  rfl

theorem expect_cons (hb : isSpace b = false) (rest : Bytes) :
    expect b (b :: rest) = some ((), rest) := by
  rw [expect, token, skip_cons_token hb]
  dsimp only
  rw [if_pos rfl]
  rfl

theorem more_comma (close : UInt8) (rest : Bytes) :
    more close (0x2C :: rest) = some (true, rest) := rfl

theorem more_close (hclose : isSpace close = false) (hcomma : close ≠ 0x2C) (rest : Bytes) :
    more close (close :: rest) = some (false, rest) := by
  rw [more, token, skip_cons_token hclose]
  dsimp only
  rw [if_neg hcomma, if_pos rfl]
  rfl

theorem value_object {fuel : Nat} {named : List (σ × Node σ)} (hb : isSpace b = false)
    (hclose : b ≠ 0x7D) (h : fields as fuel (b :: src) = some (named, rest)) :
    value as (fuel + 1) (0x7B :: b :: src) = some (.object named, rest) := by
  rw [value, Reader.bind_of (looksAt_cons rfl _ _)]
  show (expect 0x7B).bind _ _ = _
  rw [Reader.bind_of (expect_cons rfl _), Reader.bind_of (looksAt_cons hb _ _),
    beq_false_of_ne hclose]
  show (fields as fuel).bind _ _ = _
  rw [Reader.bind_of h]
  rfl

/-- The first byte of a number begins nothing else. -/
theorem value_number {number : Bytes} (hnumber : isNumber number = true)
    (hbytes : ∀ b ∈ number, isNumberByte b = true)
    (hrest : ∀ b, rest.head? = some b → isNumberByte b = false) (fuel : Nat) :
    value as (fuel + 1) (number ++ rest) = some (.number number, rest) := by
  cases number with
  | nil => cases hnumber
  | cons b digits =>
    have hb := hbytes b mem_cons_self
    have hspace := (isNumberByte_plain hb).1
    have hne : ∀ c, isNumberByte c = false → (b == c) = false := by
      intro c hc
      refine beq_false_of_ne ?_
      rintro rfl
      exact absurd (hb.symm.trans hc) (by decide)
    have hlooks : ∀ c, isNumberByte c = false →
        looksAt c (b :: digits ++ rest) = some (false, b :: digits ++ rest) := by
      intro c hc
      rw [cons_append, looksAt_cons hspace, hne c hc]
    rw [value, Reader.bind_of (hlooks 0x7B rfl)]
    show (looksAt 0x5B).bind _ _ = _
    rw [Reader.bind_of (hlooks 0x5B rfl)]
    show (looksAt 0x22).bind _ _ = _
    rw [Reader.bind_of (hlooks 0x22 rfl)]
    show atom _ = _
    rw [atom, cons_append, skip_cons_token hspace, word_number hb, none_or,
      ← cons_append, number_append hnumber hbytes hrest]

section

variable {raw : Bytes} {ps : List Piece} (h : Spelled raw ps)

include h

theorem quoted_spelled (rest : Bytes) :
    quoted text (0x22 :: (raw ++ 0x22 :: rest)) = some (text ps, rest) := by
  rw [quoted, Reader.bind_of (expect_cons rfl _), string, h.pieces_eq]
  rfl

theorem value_spelled (fuel : Nat) (rest : Bytes) :
    value text (fuel + 1) (0x22 :: (raw ++ 0x22 :: rest)) = some (.string (text ps), rest) := by
  show (quoted text).bind _ _ = _
  rw [Reader.bind_of (quoted_spelled h rest)]
  rfl

theorem fields_more {fuel src rest rest' item others}
    (hvalue : value text fuel src = some (item, 0x2C :: rest))
    (hothers : fields text fuel rest = some (others, rest')) :
    fields text (fuel + 1) (0x22 :: (raw ++ 0x22 :: 0x3A :: src)) =
      some ((text ps, item) :: others, rest') := by
  rw [fields, Reader.bind_of (quoted_spelled h _), Reader.bind_of (expect_cons rfl _),
    Reader.bind_of hvalue, Reader.bind_of (more_comma _ _)]
  show (fields text fuel).bind _ _ = _
  rw [Reader.bind_of hothers]
  rfl

theorem fields_last {fuel : Nat} {src rest : Bytes} {item : Value}
    (hvalue : value text fuel src = some (item, 0x7D :: rest)) :
    fields text (fuel + 1) (0x22 :: (raw ++ 0x22 :: 0x3A :: src)) =
      some ([(text ps, item)], rest) := by
  rw [fields, Reader.bind_of (quoted_spelled h _), Reader.bind_of (expect_cons rfl _),
    Reader.bind_of hvalue, Reader.bind_of (more_close rfl (by decide) _)]
  rfl

end

/-! ## Texts without white space -/

/-- There is no more of a number. -/
def Ends (rest : Bytes) : Prop := ∀ b, rest.head? = some b → isNumberByte b = false

/-- The text is the value and nothing else: it has no white space that could be
left out. As much fuel as there are bytes is enough. -/
structure Written (src : Bytes) (v : Value) : Prop where
  reads : ∀ fuel rest, src.length ≤ fuel → Ends rest →
    value text fuel (src ++ rest) = some (v, rest)
  clean : ∀ rest, strip (src ++ rest) = src ++ strip rest

/-- The same for the fields of an object, with its closing bracket. -/
structure WrittenFields (src : Bytes) (named : List (Bytes × Value)) : Prop where
  reads : ∀ fuel rest, src.length ≤ fuel → fields text fuel (src ++ rest) = some (named, rest)
  clean : ∀ rest, strip (src ++ rest) = src ++ strip rest
  opens : ∃ inner, src = 0x22 :: inner

theorem strip_spelled (h : Spelled raw ps) (rest : Bytes) :
    strip (0x22 :: (raw ++ 0x22 :: rest)) = 0x22 :: (raw ++ 0x22 :: strip rest) := by
  rw [strip_cons_token rfl, Place.next, if_pos rfl, h.stripFrom_eq]

theorem Written.string (h : Spelled raw ps) :
    Written (0x22 :: (raw ++ [0x22])) (.string (text ps)) where
  reads := by
    intro fuel rest hfuel _
    rw [length_cons] at hfuel
    obtain ⟨fuel, rfl⟩ : ∃ k, fuel = k + 1 := ⟨fuel - 1, by omega⟩
    simpa using value_spelled h fuel rest
  clean := by
    intro rest
    simpa using strip_spelled h rest

theorem Written.number {number : Bytes} (hnumber : isNumber number = true)
    (hbytes : ∀ b ∈ number, isNumberByte b = true) : Written number (.number number) where
  reads := by
    intro fuel rest hfuel hrest
    have hpos : 0 < number.length := by
      cases number with
      | nil => cases hnumber
      | cons b digits => exact Nat.succ_pos _
    obtain ⟨fuel, rfl⟩ : ∃ k, fuel = k + 1 := ⟨fuel - 1, by omega⟩
    exact value_number hnumber hbytes hrest fuel
  clean := strip_append fun b hb => isNumberByte_plain (hbytes b hb)

section

variable {raw src : Bytes} {ps : List Piece} {item : Value} (h : Spelled raw ps)
  (hitem : Written src item)

include h hitem

theorem strip_field {c : UInt8} {rest : Bytes} (hc : strip (c :: rest) = c :: strip rest) :
    strip (0x22 :: (raw ++ 0x22 :: 0x3A :: (src ++ c :: rest))) =
      0x22 :: (raw ++ 0x22 :: 0x3A :: (src ++ c :: strip rest)) := by
  have hcolon : strip (0x3A :: (src ++ c :: rest)) = 0x3A :: (src ++ c :: strip rest) := by
    show 0x3A :: strip _ = _
    rw [hitem.clean, hc]
  rw [strip_spelled h, hcolon]

theorem WrittenFields.last :
    WrittenFields (0x22 :: (raw ++ 0x22 :: 0x3A :: (src ++ [0x7D]))) [(text ps, item)] where
  reads := by
    intro fuel rest hfuel
    simp only [length_cons, length_append] at hfuel
    obtain ⟨fuel, rfl⟩ : ∃ k, fuel = k + 1 := ⟨fuel - 1, by omega⟩
    have hvalue := hitem.reads fuel (0x7D :: rest) (by omega) fun b hb => by cases hb; rfl
    simpa using fields_last h hvalue
  clean := by
    intro rest
    simpa using strip_field h hitem (strip_cons_token (b := 0x7D) rfl rest)
  opens := ⟨_, rfl⟩

theorem WrittenFields.cons {others : Bytes} {named : List (Bytes × Value)}
    (hothers : WrittenFields others named) :
    WrittenFields (0x22 :: (raw ++ 0x22 :: 0x3A :: (src ++ 0x2C :: others)))
      ((text ps, item) :: named) where
  reads := by
    intro fuel rest hfuel
    simp only [length_cons, length_append] at hfuel
    obtain ⟨fuel, rfl⟩ : ∃ k, fuel = k + 1 := ⟨fuel - 1, by omega⟩
    have hvalue := hitem.reads fuel (0x2C :: (others ++ rest)) (by omega)
      fun b hb => by cases hb; rfl
    simpa using fields_more h hvalue (hothers.reads fuel rest (by omega))
  clean := by
    intro rest
    have hfield := strip_field h hitem (strip_cons_token (b := 0x2C) rfl (others ++ rest))
    rw [hothers.clean] at hfield
    simpa using hfield
  opens := ⟨_, rfl⟩

end

theorem Written.object {named : List (Bytes × Value)} (h : WrittenFields src named) :
    Written (0x7B :: src) (.object named) where
  reads := by
    intro fuel rest hfuel _
    rw [length_cons] at hfuel
    obtain ⟨fuel, rfl⟩ : ∃ k, fuel = k + 1 := ⟨fuel - 1, by omega⟩
    have hfields := h.reads fuel rest (by omega)
    obtain ⟨inner, rfl⟩ := h.opens
    exact value_object rfl (by decide) hfields
  clean := by
    intro rest
    rw [cons_append, strip_cons_token rfl]
    show 0x7B :: strip _ = _
    rw [h.clean, cons_append]

namespace Written

variable {src : Bytes} {v : Value} (h : Written src v)

include h

theorem strip_eq : strip src = src := by
  have hclean := h.clean []
  rwa [append_nil, show strip [] = [] from rfl, append_nil] at hclean

theorem parse_eq : parse src = some v := by
  have hreads := h.reads (src.length + 1) [] (Nat.le_succ _) (fun b hb => nomatch hb)
  rw [append_nil] at hreads
  rw [parse, parseAs, h.strip_eq, hreads]
  rfl

theorem oneLine : 0x0A ∉ src := by
  have hline := strip_oneLine h.parse_eq
  rwa [h.strip_eq] at hline

end Written

end JsonText
