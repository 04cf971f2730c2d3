import Mathlib.Data.List.DropRight
import Mathlib.Data.Nat.Digits.Lemmas
import Sink.Lib.JsonText

/-!
# Decimal numerals

Numbers as JSON writes them, and the values they denote. A numeral is its sign,
its digits before and after the point and its exponent; `Numeral.text` is how it
is written and `Numeral.value` the rational number it denotes. Exponents and
digits are unbounded.

Digit strings are read from the left (`natOf`). A string without leading zeros
is determined by its value, and its length by the size of the value.
-/

namespace Decimals

open List

open JsonText (Bytes isDigit)

variable {b : UInt8} {l : Bytes}

/-! ## Digits -/

def digitValue (b : UInt8) : Nat := b.toNat - 0x30

/-- The number that a string of digits denotes. -/
def natOf (digits : Bytes) : Nat := digits.foldl (fun n b => 10 * n + digitValue b) 0

def Digits (digits : Bytes) : Prop := ∀ b ∈ digits, isDigit b = true

theorem isDigit_iff : isDigit b = true ↔ 0x30 ≤ b.toNat ∧ b.toNat ≤ 0x39 := by
  rw [isDigit, Bool.and_eq_true, decide_eq_true_eq, decide_eq_true_eq, UInt8.le_iff_toNat_le,
    UInt8.le_iff_toNat_le]
  rfl

theorem digitValue_lt (h : isDigit b = true) : digitValue b < 10 := by
  have hrange := isDigit_iff.mp h
  rw [digitValue]
  omega

theorem digitValue_inj {c : UInt8} (hb : isDigit b = true) (hc : isDigit c = true)
    (h : digitValue b = digitValue c) : b = c := by
  have hb := isDigit_iff.mp hb
  have hc := isDigit_iff.mp hc
  rw [digitValue, digitValue] at h
  exact UInt8.toNat_inj.mp (by omega)

theorem digitValue_eq_zero (h : isDigit b = true) : digitValue b = 0 ↔ b = 0x30 := by
  constructor
  · exact fun hzero => digitValue_inj h rfl hzero
  · rintro rfl
    rfl

theorem foldl_ofDigits (digits : Bytes) (n : Nat) :
    digits.foldl (fun n b => 10 * n + digitValue b) n =
      Nat.ofDigits 10 (digits.reverse.map digitValue) + n * 10 ^ digits.length := by
  induction digits generalizing n with
  | nil => simp
  | cons b digits ih =>
    rw [foldl_cons, ih, reverse_cons, map_append, Nat.ofDigits_append,
      length_map, length_reverse, length_cons, Nat.pow_succ]
    simp only [map_cons, map_nil, Nat.ofDigits_singleton]
    ring

theorem natOf_eq (digits : Bytes) :
    natOf digits = Nat.ofDigits 10 (digits.reverse.map digitValue) := by
  rw [natOf, foldl_ofDigits]
  simp

theorem natOf_append (a b : Bytes) : natOf (a ++ b) = natOf a * 10 ^ b.length + natOf b := by
  rw [natOf_eq, natOf_eq, natOf_eq, reverse_append, map_append, Nat.ofDigits_append,
    length_map, length_reverse]
  ring

theorem natOf_zeros {digits : Bytes} (h : ∀ b ∈ digits, b = 0x30) : natOf digits = 0 := by
  induction digits with
  | nil => rfl
  | cons b digits ih =>
    obtain ⟨rfl, hrest⟩ := forall_mem_cons.mp h
    rw [← singleton_append, natOf_append, ih hrest]
    simp [natOf, digitValue]

theorem natOf_lt {digits : Bytes} (h : Digits digits) : natOf digits < 10 ^ digits.length := by
  have hlt := Nat.ofDigits_lt_base_pow_length (b := 10) (l := digits.reverse.map digitValue)
    (by decide) ?_
  · rwa [length_map, length_reverse, ← natOf_eq] at hlt
  · intro d hd
    obtain ⟨b, hb, rfl⟩ := mem_map.mp hd
    exact digitValue_lt (h b (mem_reverse.mp hb))

/-- A string that does not begin with a zero. -/
structure Canonical (l : Bytes) : Prop where
  digits : Digits l
  head : l.head? ≠ some 0x30

theorem le_natOf (h : Canonical l) (hne : l ≠ []) : 10 ^ (l.length - 1) ≤ natOf l := by
  obtain ⟨b, rest, rfl⟩ := exists_cons_of_ne_nil hne
  have hb : isDigit b = true := h.digits b mem_cons_self
  have hpos : 0 < digitValue b := by
    refine Nat.pos_of_ne_zero fun hzero => h.head ?_
    rw [(digitValue_eq_zero hb).mp hzero]
    rfl
  have hone : natOf [b] = digitValue b := by simp [natOf]
  rw [← singleton_append, natOf_append, hone]
  exact Nat.le_add_right_of_le (Nat.le_mul_of_pos_left _ hpos)

theorem digits_natOf (h : Canonical l) : Nat.digits 10 (natOf l) = l.reverse.map digitValue := by
  rw [natOf_eq]
  refine Nat.digits_ofDigits 10 (by decide) _ ?_ ?_
  · intro d hd
    obtain ⟨c, hc, rfl⟩ := mem_map.mp hd
    exact digitValue_lt (h.digits c (mem_reverse.mp hc))
  · intro hne hzero
    cases l with
    | nil => exact hne rfl
    | cons b rest =>
      have hb : isDigit b = true := h.digits b mem_cons_self
      simp only [reverse_cons, map_append, map_cons, map_nil, getLast_append_singleton] at hzero
      refine h.head ?_
      rw [(digitValue_eq_zero hb).mp hzero]
      rfl

theorem Canonical.take {digits : Bytes} (h : Canonical digits) (k : Nat) :
    Canonical (digits.take (k + 1)) where
  digits := fun b hb => h.digits b (mem_of_mem_take hb)
  head := by
    cases digits with
    | nil => simp
    | cons b rest => exact h.head

/-- A string without leading zeros is determined by its value. -/
theorem natOf_inj {l' : Bytes} (h : Canonical l) (h' : Canonical l') (heq : natOf l = natOf l') :
    l = l' := by
  -- the digit of a value
  have hinverse : ∀ l : Bytes, Digits l →
      (l.reverse.map digitValue).map (fun d => UInt8.ofNat (0x30 + d)) = l.reverse := by
    intro l hl
    rw [map_map]
    refine (map_congr_left fun b hb => ?_).trans (map_id _)
    have hrange := isDigit_iff.mp (hl b (mem_reverse.mp hb))
    rw [Function.comp, digitValue, Nat.add_sub_cancel' hrange.1, UInt8.ofNat_toNat, id]
  have hdigits : l.reverse.map digitValue = l'.reverse.map digitValue := by
    rw [← digits_natOf h, ← digits_natOf h', heq]
  have hreverse := congrArg (map fun d => UInt8.ofNat (0x30 + d)) hdigits
  rw [hinverse l h.digits, hinverse l' h'.digits] at hreverse
  exact reverse_inj.mp hreverse

/-! ## Zeros at the ends -/

/-- Without the zeros at the front. -/
def trimLeft (l : Bytes) : Bytes := l.dropWhile fun b => b == 0x30

theorem trimLeft_canonical (h : Digits l) : Canonical (trimLeft l) where
  digits := fun b hb => h b ((dropWhile_sublist _).subset hb)
  head := by
    intro hhead
    have hnot := head?_dropWhile_not (fun b : UInt8 => b == 0x30) l
    rw [trimLeft] at hhead
    rw [hhead] at hnot
    simp at hnot

theorem natOf_trimLeft (l : Bytes) : natOf (trimLeft l) = natOf l := by
  have hzeros : ∀ b ∈ l.takeWhile (fun b => b == 0x30), b = 0x30 :=
    fun b hb => by simpa using mem_takeWhile_imp hb
  conv_rhs => rw [← takeWhile_append_dropWhile (p := fun b => b == 0x30) (l := l)]
  rw [natOf_append, natOf_zeros hzeros, trimLeft]
  simp

theorem natOf_pos (h : Digits l) (hne : ∃ b ∈ l, b ≠ 0x30) : 0 < natOf l := by
  have hsome : trimLeft l ≠ [] := by
    intro hnil
    obtain ⟨b, hb, hzero⟩ := hne
    have hall := dropWhile_eq_nil_iff.mp hnil b hb
    exact hzero (beq_iff_eq.mp hall)
  have hle := le_natOf (trimLeft_canonical h) hsome
  rw [natOf_trimLeft] at hle
  exact Nat.lt_of_lt_of_le (Nat.pow_pos (by decide)) hle

theorem natOf_append_zeros (l : Bytes) (k : Nat) :
    natOf (l ++ replicate k 0x30) = natOf l * 10 ^ k := by
  rw [natOf_append, natOf_zeros fun b hb => eq_of_mem_replicate hb, length_replicate, Nat.add_zero]

/-- Without the zeros at the end. -/
def trimRight (l : Bytes) : Bytes := l.rdropWhile fun b => b == 0x30

theorem trimRight_append (l : Bytes) :
    trimRight l ++ replicate (l.length - (trimRight l).length) 0x30 = l := by
  have hsplit : trimRight l ++ l.rtakeWhile (fun b => b == 0x30) = l :=
    rdropWhile_append_rtakeWhile
  have hlength := congrArg length hsplit
  rw [length_append] at hlength
  have hzeros : l.rtakeWhile (fun b => b == 0x30) =
      replicate (l.length - (trimRight l).length) 0x30 := by
    refine eq_replicate_iff.mpr ⟨by omega, fun b hb => ?_⟩
    simpa using mem_rtakeWhile_imp hb
  rwa [← hzeros]

theorem trimRight_ne (h : Canonical l) (hne : l ≠ []) : trimRight l ≠ [] := by
  intro hnil
  obtain ⟨b, rest, rfl⟩ := exists_cons_of_ne_nil hne
  have hall := rdropWhile_eq_nil_iff.mp hnil b mem_cons_self
  refine h.head ?_
  rw [beq_iff_eq.mp hall]
  rfl

theorem Canonical.trimRight (h : Canonical l) : Canonical (trimRight l) where
  digits := fun b hb => h.digits b (( rdropWhile_prefix _ _).subset hb)
  head := by
    intro hhead
    have happend := trimRight_append l
    cases hcut : Decimals.trimRight l with
    | nil => rw [hcut] at hhead; cases hhead
    | cons b rest =>
      rw [hcut] at hhead happend
      cases hhead
      refine h.head ?_
      rw [← happend]
      rfl

theorem trimRight_not_dvd (h : Digits l) (hne : trimRight l ≠ []) : ¬10 ∣ natOf (trimRight l) := by
  have hlast := rdropWhile_last_not (fun b : UInt8 => b == 0x30) l hne
  have hall : Digits (trimRight l) := fun b hb => h b (( rdropWhile_prefix _ _).subset hb)
  have hdigit := hall _ (getLast_mem hne)
  have hvalue : natOf (trimRight l) =
      natOf (trimRight l).dropLast * 10 + digitValue ((trimRight l).getLast hne) := by
    conv_lhs => rw [← dropLast_append_getLast hne]
    rw [natOf_append]
    simp [natOf]
  intro hdvd
  have hzero : digitValue ((trimRight l).getLast hne) = 0 := by
    have hlt := digitValue_lt hdigit
    omega
  exact hlast (beq_iff_eq.mpr ((digitValue_eq_zero hdigit).mp hzero))

theorem scientific_le {c c' : Nat} {e e' : Int} (hc : ¬10 ∣ c) (hle : e ≤ e')
    (h : (c : ℚ) * 10 ^ e = c' * 10 ^ e') : c = c' ∧ e = e' := by
  obtain ⟨k, rfl⟩ := Int.le.dest hle
  have hpow : (10 : ℚ) ^ e ≠ 0 := zpow_ne_zero e (by norm_num)
  have hnat : c = c' * 10 ^ k := by
    have hrat : (c : ℚ) = c' * 10 ^ k := by
      refine mul_right_cancel₀ hpow ?_
      rw [h, zpow_add₀ (by norm_num), zpow_natCast]
      ring
    exact_mod_cast hrat
  cases k with
  | zero => simpa using hnat
  | succ k => exact absurd ⟨c' * 10 ^ k, by rw [hnat]; ring⟩ hc

/-- A number is written in one way as a coefficient that is not a multiple of ten
and a power of ten. -/
theorem scientific_unique {c c' : Nat} {e e' : Int} (hc : ¬10 ∣ c) (hc' : ¬10 ∣ c')
    (h : (c : ℚ) * 10 ^ e = c' * 10 ^ e') : c = c' ∧ e = e' := by
  rcases le_total e e' with hle | hle
  · exact scientific_le hc hle h
  · obtain ⟨hcoefficient, hexponent⟩ := scientific_le hc' hle h.symm
    exact ⟨hcoefficient.symm, hexponent.symm⟩

/-- A number with a remainder is not a multiple. -/
theorem not_integral {m q r k : Nat} (hm : m = q * 10 ^ k + r) (hpos : 0 < r) (hlt : r < 10 ^ k) :
    ¬∃ i : ℤ, (m : ℚ) * 10 ^ (-(k : ℤ)) = i := by
  rintro ⟨i, hi⟩
  have hpow : (10 : ℚ) ^ k ≠ 0 := pow_ne_zero k (by norm_num)
  rw [zpow_neg, zpow_natCast, ← div_eq_mul_inv, div_eq_iff hpow] at hi
  have hint : (m : ℤ) = i * 10 ^ k := by exact_mod_cast hi
  have hdvd : 10 ^ k ∣ m := by
    have hdvd : ((10 ^ k : ℕ) : ℤ) ∣ (m : ℤ) := ⟨i, by rw [hint]; push_cast; ring⟩
    exact_mod_cast hdvd
  have hr : 10 ^ k ∣ r := (Nat.dvd_add_right (Nat.dvd_mul_left _ q)).mp (hm ▸ hdvd)
  exact absurd (Nat.le_of_dvd hpos hr) (Nat.not_le.mpr hlt)

/-! ## Numerals -/

/-- An exponent: its mark, its sign and its digits. -/
structure Exponent where
  mark : UInt8
  sign : Bytes
  digits : Bytes
  mark_eq : mark = 0x65 ∨ mark = 0x45
  sign_eq : sign = [] ∨ sign = [0x2B] ∨ sign = [0x2D]
  all : Digits digits
  ne : digits ≠ []

namespace Exponent

variable (e : Exponent)

def text : Bytes := e.mark :: (e.sign ++ e.digits)

def value : Int := if e.sign = [0x2D] then -(natOf e.digits) else natOf e.digits

end Exponent

/-- A number as JSON writes it. -/
structure Numeral where
  negative : Bool
  whole : Bytes
  /-- The digits after the point; without any there is no point. -/
  fraction : Bytes
  exponent : Option Exponent
  whole_all : Digits whole
  whole_ne : whole ≠ []
  /-- A zero at the front stands alone. -/
  whole_zero : whole.head? = some 0x30 → whole = [0x30]
  fraction_all : Digits fraction

namespace Numeral

variable (n : Numeral)

def sign : Bytes := if n.negative then [0x2D] else []

/-- The digits with the point between them. -/
def mantissa : Bytes := n.whole ++ if n.fraction = [] then [] else 0x2E :: n.fraction

def power : Int := match n.exponent with
  | none => 0
  | some e => e.value

def text : Bytes :=
  n.sign ++ n.mantissa ++ match n.exponent with
    | none => []
    | some e => e.text

/-- All digits, without the point. -/
def digits : Bytes := n.whole ++ n.fraction

/-- The power of ten that the digits are multiplied by. -/
def scale : Int := n.power - n.fraction.length

/-- The number that the text denotes. -/
def value : ℚ := (if n.negative then -1 else 1) * natOf n.digits * 10 ^ n.scale

theorem digits_all : Digits n.digits := by
  exact forall_mem_append.mpr ⟨n.whole_all, n.fraction_all⟩

end Numeral

end Decimals
