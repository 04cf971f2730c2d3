import Mathlib.Data.List.Basic

/-!
# Unpadded base64 with the URL alphabet

Three bytes become four symbols, one or two bytes at the end become two or
three. Different bytes have different texts (`encode_injective`), and a text has
letters, digits, `-` and `_` only, so anything else may separate two of them
(`encode_separated`).
-/

namespace Base64

open List

/-- The symbol of six bits. -/
def symbol (n : Nat) : UInt8 :=
  if n < 26 then UInt8.ofNat (0x41 + n)
  else if n < 52 then UInt8.ofNat (0x61 + (n - 26))
  else if n < 62 then UInt8.ofNat (0x30 + (n - 52))
  else if n = 62 then 0x2D
  else 0x5F

def encode : List UInt8 → List UInt8
  | [] => []
  | [a] => [symbol (a.toNat / 4), symbol (a.toNat % 4 * 16)]
  | [a, b] =>
    [symbol (a.toNat / 4), symbol (a.toNat % 4 * 16 + b.toNat / 16),
      symbol (b.toNat % 16 * 4)]
  | a :: b :: c :: rest =>
    symbol (a.toNat / 4) :: symbol (a.toNat % 4 * 16 + b.toNat / 16) ::
      symbol (b.toNat % 16 * 4 + c.toNat / 64) :: symbol (c.toNat % 64) :: encode rest

/-! ## Symbols -/

/-- The six bits of a symbol. -/
def value (b : UInt8) : Nat :=
  if b.toNat = 0x2D then 62
  else if b.toNat = 0x5F then 63
  else if b.toNat < 0x41 then b.toNat - 0x30 + 52
  else if b.toNat < 0x61 then b.toNat - 0x41
  else b.toNat - 0x61 + 26

theorem value_symbol : ∀ n < 64, value (symbol n) = n := by decide

/-- The bytes of a text. -/
def Letter (b : UInt8) : Prop := b ∈ (range 64).map symbol

instance (b : UInt8) : Decidable (Letter b) := inferInstanceAs (Decidable (_ ∈ _))

theorem letter_symbol {n : Nat} (h : n < 64) : Letter (symbol n) :=
  mem_map_of_mem (mem_range.mpr h)

/-! ## Texts -/

theorem encode_letters (bytes : List UInt8) : ∀ b ∈ encode bytes, Letter b := by
  induction bytes using encode.induct with
  | case1 => intro b h; cases h
  | case2 a =>
    have ha := a.toNat_lt
    intro b h
    simp only [encode, mem_cons, not_mem_nil, or_false] at h
    rcases h with rfl | rfl <;> exact letter_symbol (by omega)
  | case3 a b =>
    have ha := a.toNat_lt
    have hb := b.toNat_lt
    intro c h
    simp only [encode, mem_cons, not_mem_nil, or_false] at h
    rcases h with rfl | rfl | rfl <;> exact letter_symbol (by omega)
  | case4 a b c rest ih =>
    have ha := a.toNat_lt
    have hb := b.toNat_lt
    have hc := c.toNat_lt
    intro d h
    simp only [encode, mem_cons] at h
    rcases h with rfl | rfl | rfl | rfl | h
    all_goals first | exact ih d h | exact letter_symbol (by omega)

def decode : List UInt8 → List UInt8
  | x :: y :: z :: w :: rest =>
    UInt8.ofNat (value x * 4 + value y / 16) :: UInt8.ofNat (value y % 16 * 16 + value z / 4) ::
      UInt8.ofNat (value z % 4 * 64 + value w) :: decode rest
  | [x, y, z] =>
    [UInt8.ofNat (value x * 4 + value y / 16), UInt8.ofNat (value y % 16 * 16 + value z / 4)]
  | [x, y] => [UInt8.ofNat (value x * 4 + value y / 16)]
  | _ => []

theorem ofNat_eq {a : UInt8} {n : Nat} (h : n = a.toNat) : UInt8.ofNat n = a := by
  rw [h, UInt8.ofNat_toNat]

theorem decode_encode (bytes : List UInt8) : decode (encode bytes) = bytes := by
  induction bytes using encode.induct with
  | case1 => rfl
  | case2 a =>
    have ha := a.toNat_lt
    rw [encode, decode, value_symbol _ (by omega), value_symbol _ (by omega),
      ofNat_eq (a := a) (by omega)]
  | case3 a b =>
    have ha := a.toNat_lt
    have hb := b.toNat_lt
    rw [encode, decode, value_symbol _ (by omega), value_symbol _ (by omega),
      value_symbol _ (by omega), ofNat_eq (a := a) (by omega), ofNat_eq (a := b) (by omega)]
  | case4 a b c rest ih =>
    have ha := a.toNat_lt
    have hb := b.toNat_lt
    have hc := c.toNat_lt
    rw [encode, decode, value_symbol _ (by omega), value_symbol _ (by omega),
      value_symbol _ (by omega), value_symbol _ (by omega), ofNat_eq (a := a) (by omega),
      ofNat_eq (a := b) (by omega), ofNat_eq (a := c) (by omega), ih]

theorem encode_injective {bytes others : List UInt8} (h : encode bytes = encode others) :
    bytes = others := by
  have hdecode := congrArg decode h
  rwa [decode_encode, decode_encode] at hdecode

/-- What stands before a separator that occurs in neither part. -/
theorem append_separator {α : Type*} {separator : α} {first second others rest : List α}
    (hfirst : separator ∉ first) (hsecond : separator ∉ second)
    (h : first ++ separator :: others = second ++ separator :: rest) :
    first = second ∧ others = rest := by
  rcases append_eq_append_iff.mp h with ⟨between, rfl, hrest⟩ | ⟨between, rfl, hrest⟩
  all_goals cases between <;> simp_all

/-- Two texts with a separator between them are told apart. -/
theorem encode_separated {separator : UInt8} (hseparator : ¬Letter separator)
    {first second others rest : List UInt8}
    (h : encode first ++ separator :: others = encode second ++ separator :: rest) :
    first = second ∧ others = rest := by
  have hnot : ∀ bytes, separator ∉ encode bytes :=
    fun bytes hmem => hseparator (encode_letters bytes separator hmem)
  obtain ⟨htext, hrest⟩ := append_separator (hnot first) (hnot second) h
  exact ⟨encode_injective htext, hrest⟩

end Base64
