import Sink.Merge.Integers
import Sink.Texts

/-!
# Numbers of a merge test

A merge test compares the expected document with the merged one, and numbers by
their exact decimal values. `normalizeLuaTestNumber` writes a number as a
coefficient without zeros at its ends and a power of ten, so that two numbers are
equal exactly when the normalised ones are; the power of ten is not expanded.
-/

namespace Sink.Merge

open Decimals

/-! ## The code -/

structure LuaTestNumber where
  coefficient : GoString
  exponent : GoString
deriving DecidableEq

/-- What `normalizeLuaTestNumber` returns. -/
inductive Normalized where
  | number (n : LuaTestNumber)
  /-- The `json.Number` itself, for an exponent that cannot be read. -/
  | unread (value : GoString)
deriving DecidableEq

/-- `exponent.SetString(text, 10)` of a `big.Int`; without a mark the exponent
stays zero. -/
def setExponent : Option GoString → Option Int
  | none => some 0
  | some text => signedValue text

def normalizeLuaTestNumber (value : GoString) : Normalized :=
  let (mantissa, exponentText) := splitExponent value
  match setExponent exponentText with
  | none => .unread value
  | some exponent =>
    let negative := mantissa.head? == some 0x2D
    let mantissa := if negative then mantissa.drop 1 else mantissa
    let whole := mantissa.takeWhile fun b => b != 0x2E
    let fraction := (mantissa.drop whole.length).drop 1
    let mantissa := trimLeft (whole ++ fraction)
    if mantissa = [] then .number ⟨lit "0", lit "0"⟩
    else
      let coefficient := trimRight mantissa
      let shift : Int := mantissa.length - coefficient.length - fraction.length
      let signed := if negative then 0x2D :: coefficient else coefficient
      .number ⟨signed, decimal (exponent + shift)⟩

/-! ## The normal form of a numeral -/

theorem setExponent_power (n : Numeral) :
    setExponent (n.exponent.map fun e => e.sign ++ e.digits) = some n.power := by
  rcases hexp : n.exponent with _ | e
  · rw [Numeral.power, hexp]
    rfl
  · rw [Numeral.power, hexp]
    exact signedValue_append e.sign_eq e.all e.ne

theorem minus_mantissa (n : Numeral) :
    ((n.sign ++ n.mantissa).head? == some 0x2D) = n.negative ∧
    (if n.negative then (n.sign ++ n.mantissa).drop 1 else n.sign ++ n.mantissa) = n.mantissa := by
  rw [Numeral.sign]
  cases n.negative with
  | true => exact ⟨rfl, rfl⟩
  | false =>
    obtain ⟨b, rest, hwhole⟩ := List.exists_cons_of_ne_nil n.whole_ne
    have hb := digit_plain (n.whole_all b (by rw [hwhole]; exact List.mem_cons_self))
    refine ⟨?_, rfl⟩
    rw [Numeral.mantissa, hwhole]
    simp [hb.2.2.2]

theorem normalize_text (n : Numeral) : normalizeLuaTestNumber n.text =
    if trimLeft n.digits = [] then .number ⟨lit "0", lit "0"⟩
    else .number ⟨n.sign ++ trimRight (trimLeft n.digits),
      decimal (n.power + ((trimLeft n.digits).length - (trimRight (trimLeft n.digits)).length -
        n.fraction.length))⟩ := by
  obtain ⟨hnegative, hmantissa⟩ := minus_mantissa n
  unfold normalizeLuaTestNumber
  rw [splitExponent_text]
  dsimp only
  rw [setExponent_power, hnegative, hmantissa, takeWhile_mantissa, fraction_mantissa]
  have hsign : ∀ l : GoString, (if n.negative then 0x2D :: l else l) = n.sign ++ l := by
    intro l
    rw [Numeral.sign]
    cases n.negative <;> rfl
  rw [hsign]
  rfl

/-- A number is zero, or it is its coefficient times a power of ten. -/
theorem normalize_cases (n : Numeral) :
    (n.value = 0 ∧ normalizeLuaTestNumber n.text = .number ⟨lit "0", lit "0"⟩) ∨
    ∃ (c : GoString) (e : Int), Canonical c ∧ c ≠ [] ∧ ¬10 ∣ natOf c ∧
      n.value = (if n.negative then -1 else 1) * (natOf c * 10 ^ e) ∧
      normalizeLuaTestNumber n.text = .number ⟨n.sign ++ c, decimal e⟩ := by
  have hcanonical := trimLeft_canonical n.digits_all
  have hvalue := numeral_value n
  rw [normalize_text]
  generalize trimLeft n.digits = front at hcanonical hvalue
  by_cases hne : front = []
  · left
    subst hne
    exact ⟨by rw [hvalue]; simp [natOf], rfl⟩
  · right
    have hcut := trimRight_ne hcanonical hne
    refine ⟨_, _, hcanonical.trimRight, hcut, trimRight_not_dvd hcanonical.digits hcut, ?_,
      if_neg hne⟩
    have hlength := congrArg List.length (trimRight_append front)
    rw [List.length_append, List.length_replicate] at hlength
    have hnat : natOf front =
        natOf (trimRight front) * 10 ^ (front.length - (trimRight front).length) := by
      conv_lhs => rw [← trimRight_append front]
      rw [natOf_append_zeros]
    have hscale : n.power + ((front.length : Int) - (trimRight front).length - n.fraction.length) =
        ((front.length - (trimRight front).length : Nat) : Int) + n.scale := by
      rw [Numeral.scale]
      omega
    rw [hvalue, hscale, hnat, zpow_add₀ (by norm_num), zpow_natCast]
    push_cast
    ring

/-- A coefficient is not empty and does not begin with a zero. -/
theorem signed_ne_zero {n : Numeral} {c : GoString} (h : Canonical c) (hne : c ≠ []) :
    lit "0" ≠ n.sign ++ c := by
  have hzero : lit "0" = [0x30] := by decide
  rw [hzero, Numeral.sign]
  obtain ⟨b, rest, rfl⟩ := List.exists_cons_of_ne_nil hne
  cases n.negative with
  | true => simp
  | false =>
    intro heq
    obtain ⟨rfl, -⟩ := List.cons.inj heq
    exact h.head rfl

theorem coefficient_pos {c : GoString} {e : Int} (h : ¬10 ∣ natOf c) :
    (0 : ℚ) < natOf c * 10 ^ e := by
  have hpos : 0 < natOf c := Nat.pos_of_ne_zero fun hzero => h (by rw [hzero]; exact dvd_zero 10)
  exact mul_pos (by exact_mod_cast hpos) (zpow_pos (by norm_num) e)

/-- Equal numbers have equal signs and magnitudes. -/
theorem signed_inj {s t : Bool} {a b : ℚ} (ha : 0 < a) (hb : 0 < b)
    (h : (if s then -1 else 1) * a = (if t then -1 else 1) * b) : s = t ∧ a = b := by
  cases s <;> cases t <;> simp at h ⊢ <;> linarith

theorem sign_append_inj {n m : Numeral} {c c' : GoString} (hc : Canonical c) (hc' : Canonical c')
    (h : n.sign ++ c = m.sign ++ c') : n.negative = m.negative ∧ c = c' := by
  have hdigit : ∀ {l : GoString}, Canonical l → ∀ rest, l ≠ 0x2D :: rest := by
    rintro l hl rest rfl
    exact absurd (hl.digits _ List.mem_cons_self) (by decide)
  rw [Numeral.sign, Numeral.sign] at h
  cases hn : n.negative <;> cases hm : m.negative <;> rw [hn, hm] at h
  · exact ⟨rfl, h⟩
  · exact absurd h (hdigit hc _)
  · exact absurd h.symm (hdigit hc' _)
  · exact ⟨rfl, (List.cons.inj h).2⟩

/-- Two numbers are normalised to the same exactly when they denote the same
value. -/
theorem normalizeLuaTestNumber_exact (n m : Numeral) :
    normalizeLuaTestNumber n.text = normalizeLuaTestNumber m.text ↔ n.value = m.value := by
  have hsign : ∀ k : Numeral, (if k.negative then (-1 : ℚ) else 1) ≠ 0 := by
    intro k
    cases k.negative <;> simp
  rcases normalize_cases n with ⟨hn, hnormal⟩ | ⟨c, e, hc, hne, hdvd, hn, hnormal⟩ <;>
    rcases normalize_cases m with ⟨hm, hnormal'⟩ | ⟨c', e', hc', hne', hdvd', hm, hnormal'⟩ <;>
    rw [hnormal, hnormal', hn, hm]
  · simp
  · refine ⟨fun heq => ?_, fun heq => ?_⟩
    · obtain ⟨hcoefficient, -⟩ := LuaTestNumber.mk.inj (Normalized.number.inj heq)
      exact absurd hcoefficient (signed_ne_zero hc' hne')
    · exact absurd heq.symm (mul_ne_zero (hsign m) (coefficient_pos hdvd').ne')
  · refine ⟨fun heq => ?_, fun heq => ?_⟩
    · obtain ⟨hcoefficient, -⟩ := LuaTestNumber.mk.inj (Normalized.number.inj heq)
      exact absurd hcoefficient.symm (signed_ne_zero hc hne)
    · exact absurd heq (mul_ne_zero (hsign n) (coefficient_pos hdvd).ne')
  · refine ⟨fun heq => ?_, fun heq => ?_⟩
    · obtain ⟨hcoefficient, hexponent⟩ := LuaTestNumber.mk.inj (Normalized.number.inj heq)
      obtain ⟨hnegative, rfl⟩ := sign_append_inj hc hc' hcoefficient
      rw [hnegative, decimal_injective hexponent]
    · obtain ⟨hnegative, hmagnitude⟩ :=
        signed_inj (coefficient_pos hdvd) (coefficient_pos hdvd') heq
      obtain ⟨hnat, rfl⟩ := scientific_unique hdvd hdvd' hmagnitude
      rw [natOf_inj hc hc' hnat, Numeral.sign, Numeral.sign, hnegative]

end Sink.Merge
