import Sink.Lib.Decimals
import Sink.Merge.Bridge

/-!
# JSON integers

`exactJSONInteger` decides from the digits of a JSON number whether it is an
integer, and which. It never computes a power of ten: digits behind the point
of an integer are zeros and are cut off, and an integer of more than 19 digits
is outside of the signed 64-bit range whatever the digits are.
-/

namespace Sink.Merge

open Decimals List
open JsonText (isDigit)

variable {digits sign : GoString}

/-! ## Reading digits -/

theorem digitsValue_foldl (h : Digits digits) (total : Nat) :
    digitsValue total digits = some (digits.foldl (fun n b => 10 * n + digitValue b) total) := by
  induction digits generalizing total with
  | nil => rfl
  | cons b digits ih =>
    obtain ⟨hb, hrest⟩ := forall_mem_cons.mp h
    rw [JsonText.isDigit] at hb
    rw [digitsValue, if_pos hb, ih hrest, foldl_cons, digitValue]

/-- An optional sign, and whether it is a minus. -/
def signOf (text : GoString) : Bool × GoString :=
  match text with
  | 0x2D :: rest => (true, rest)
  | 0x2B :: rest => (false, rest)
  | _ => (false, text)

/-- The number that digits behind an optional sign denote. -/
def signedValue (text : GoString) : Option Int :=
  match (signOf text).2 with
  | [] => none
  | b :: rest =>
    (digitsValue 0 (b :: rest)).map fun n => if (signOf text).1 then -(n : Int) else n

/-- What `parseInt` does behind the sign. -/
def parseDigits (bits : Nat) (parts : Bool × GoString) : Option Int :=
  match parts.2 with
  | [] => none
  | _ =>
    match digitsValue 0 parts.2 with
    | none => none
    | some magnitude =>
      let value : Int := if parts.1 then -magnitude else magnitude
      if -(2 ^ (bits - 1)) ≤ value ∧ value < 2 ^ (bits - 1) then some value else none

theorem parseInt_signedValue (bits : Nat) (text : GoString) :
    parseInt bits text = (signedValue text).bind fun value =>
      if -(2 ^ (bits - 1)) ≤ value ∧ value < 2 ^ (bits - 1) then some value else none := by
  have hdef : parseInt bits text = parseDigits bits (signOf text) := rfl
  rw [hdef]
  unfold parseDigits signedValue
  rcases (signOf text).2 with _ | ⟨b, rest⟩
  · rfl
  · dsimp only
    cases digitsValue 0 (b :: rest) <;> rfl

theorem signedValue_append (hsign : sign = [] ∨ sign = [0x2B] ∨ sign = [0x2D])
    (hall : Digits digits) (hne : digits ≠ []) : signedValue (sign ++ digits) =
      some (if sign = [0x2D] then -(natOf digits : Int) else natOf digits) := by
  obtain ⟨b, rest, rfl⟩ := exists_cons_of_ne_nil hne
  have hb := isDigit_iff.mp (hall b mem_cons_self)
  have hdigits : digitsValue 0 (b :: rest) = some (natOf (b :: rest)) := digitsValue_foldl hall 0
  rcases hsign with rfl | rfl | rfl
  · have hplain : signOf (b :: rest) = (false, b :: rest) := by
      unfold signOf
      split
      · rename_i hcons
        rw [(cons.inj hcons).1] at hb
        exact absurd hb.1 (by decide)
      · rename_i hcons
        rw [(cons.inj hcons).1] at hb
        exact absurd hb.1 (by decide)
      · rfl
    rw [nil_append, signedValue, hplain]
    dsimp only
    rw [hdigits]
    rfl
  · simp [signedValue, signOf, hdigits]
  · simp [signedValue, signOf, hdigits]

theorem parseInt_signed (bits : Nat) (hsign : sign = [] ∨ sign = [0x2B] ∨ sign = [0x2D])
    (hall : Digits digits) (hne : digits ≠ []) {value : Int}
    (hvalue : value = if sign = [0x2D] then -(natOf digits : Int) else natOf digits) :
    parseInt bits (sign ++ digits) =
      if -(2 ^ (bits - 1)) ≤ value ∧ value < 2 ^ (bits - 1) then some value else none := by
  rw [parseInt_signedValue, signedValue_append hsign hall hne, ← hvalue]
  rfl

/-! ## Taking a numeral apart -/

theorem takeWhile_append_stop {p : UInt8 → Bool} {front rest : GoString}
    (hfront : ∀ b ∈ front, p b = true) (hrest : ∀ b, rest.head? = some b → p b = false) :
    (front ++ rest).takeWhile p = front := by
  rw [takeWhile_append_of_pos hfront]
  cases rest with
  | nil => simp
  | cons b rest => rw [takeWhile_cons_of_neg (by simp [hrest b rfl]), append_nil]

theorem digit_plain {b : UInt8} (h : isDigit b = true) :
    b ≠ 0x65 ∧ b ≠ 0x45 ∧ b ≠ 0x2E ∧ b ≠ 0x2D := by
  have hb := isDigit_iff.mp h
  refine ⟨?_, ?_, ?_, ?_⟩ <;> (rintro rfl; exact absurd hb (by decide))

theorem mantissa_bytes (n : Numeral) :
    ∀ b ∈ n.sign ++ n.mantissa, b = 0x2D ∨ b = 0x2E ∨ isDigit b = true := by
  intro b hb
  rw [mem_append, Numeral.mantissa, mem_append] at hb
  rcases hb with hsign | hwhole | hfraction
  · left
    rw [Numeral.sign] at hsign
    split at hsign
    · exact mem_singleton.mp hsign
    · cases hsign
  · exact .inr (.inr (n.whole_all b hwhole))
  · split at hfraction
    · cases hfraction
    rcases mem_cons.mp hfraction with rfl | hmem
    · exact .inr (.inl rfl)
    · exact .inr (.inr (n.fraction_all b hmem))

theorem splitExponent_text (n : Numeral) : splitExponent n.text =
    (n.sign ++ n.mantissa, n.exponent.map fun e => e.sign ++ e.digits) := by
  have hplain : ∀ b ∈ n.sign ++ n.mantissa, (b != 0x65 && b != 0x45) = true := by
    intro b hb
    rcases mantissa_bytes n b hb with rfl | rfl | hdigit
    · rfl
    · rfl
    · have hne := digit_plain hdigit
      simp [hne.1, hne.2.1]
  have htake : n.text.takeWhile (fun b => b != 0x65 && b != 0x45) = n.sign ++ n.mantissa := by
    refine takeWhile_append_stop hplain fun b hb => ?_
    cases hexp : n.exponent with
    | none =>
      rw [hexp] at hb
      cases hb
    | some e =>
      rw [hexp] at hb
      cases hb
      rcases e.mark_eq with hmark | hmark <;> rw [hmark] <;> rfl
  rw [splitExponent, htake, Numeral.text, drop_left]
  cases n.exponent <;> rfl

theorem splitSign_mantissa (n : Numeral) :
    splitSign (n.sign ++ n.mantissa) = (n.sign, n.mantissa) := by
  rw [Numeral.sign]
  cases n.negative with
  | true => rfl
  | false =>
    obtain ⟨b, rest, hwhole⟩ := exists_cons_of_ne_nil n.whole_ne
    have hb := digit_plain (n.whole_all b (by rw [hwhole]; exact mem_cons_self))
    rw [Numeral.mantissa, hwhole]
    unfold splitSign
    split
    · rename_i hcons
      exact absurd (cons.inj hcons).1 hb.2.2.2
    · rfl

theorem parseExponent_power (n : Numeral) (hpower : -(2 ^ 31) ≤ n.power ∧ n.power < 2 ^ 31) :
    parseExponent (n.exponent.map fun e => e.sign ++ e.digits) = some n.power := by
  rcases hexp : n.exponent with _ | e
  · rw [Numeral.power, hexp]
    rfl
  have hvalue : n.power = e.value := by rw [Numeral.power, hexp]
  rw [hvalue] at hpower ⊢
  show parseInt 32 (e.sign ++ e.digits) = _
  rw [parseInt_signed 32 e.sign_eq e.all e.ne rfl, ← Exponent.value, if_pos hpower]

theorem takeWhile_mantissa (n : Numeral) : n.mantissa.takeWhile (fun b => b != 0x2E) = n.whole := by
  refine takeWhile_append_stop (fun b hb => ?_) fun b hb => ?_
  · simp [(digit_plain (n.whole_all b hb)).2.2.1]
  · split at hb
    · cases hb
    · cases hb
      rfl

theorem fraction_mantissa (n : Numeral) : (n.mantissa.drop n.whole.length).drop 1 = n.fraction := by
  rw [Numeral.mantissa, drop_left]
  split
  · rename_i hnone
    rw [hnone]
    rfl
  · rfl

/-! ## Classifying digits -/

variable (lib : Library)

/-- What `exactJSONInteger` finds out before it calls `ParseInt`. -/
inductive Classified where
  | zero
  | fraction
  | outside
  /-- The digits for `ParseInt`. -/
  | parse (digits : GoString)

/-- The digits are not empty and do not begin with a zero; they are multiplied
by a power of ten. -/
def classify (digits : GoString) (exponent : Int) : Classified :=
  if digits = [] then .zero
  else
    let cut := digits.length + exponent
    if exponent < 0 ∧ (cut ≤ 0 ∨ (digits.drop cut.toNat).any fun b => b != 0x30) then .fraction
    else
      let (digits, exponent) :=
        if exponent < 0 then (digits.take cut.toNat, 0) else (digits, exponent)
      if 19 < digits.length + exponent then .outside
      else .parse (digits ++ replicate exponent.toNat 0x30)

/-- What is returned for it. -/
def Classified.result (text sign : GoString) : Classified → Int × Bool × Option GoError
  | .zero => (0, true, none)
  | .fraction => (0, false, none)
  | .outside => (0, true, some (outsideError lib text))
  | .parse digits =>
    match parseInt 64 (sign ++ digits) with
    | none => (0, true, some (outsideError lib text))
    | some integer => (integer, true, none)

theorem exactJSONInteger_def {text mantissa exponentText exponent}
    (hsplit : splitExponent text = (mantissa, exponentText))
    (hexponent : parseExponent exponentText = some exponent)
    (hsign : splitSign mantissa = (sign, digits)) :
    exactJSONInteger lib text =
      let whole := digits.takeWhile fun b => b != 0x2E
      let fraction := (digits.drop whole.length).drop 1
      (classify (trimLeft (whole ++ fraction)) (exponent - fraction.length)).result
        lib text sign := by
  unfold exactJSONInteger
  rw [hsplit]
  dsimp only
  rw [hexponent, hsign]
  dsimp only [trimLeft]
  generalize dropWhile _ _ = front
  generalize exponent - _ = shift
  unfold classify
  split
  · rfl
  dsimp only
  split
  · rfl
  generalize (if shift < 0 then _ else _) = shifted
  split
  · rfl
  · rw [append_assoc]
    rfl

theorem exactJSONInteger_eq (n : Numeral) (hpower : -(2 ^ 31) ≤ n.power ∧ n.power < 2 ^ 31) :
    exactJSONInteger lib n.text =
      (classify (trimLeft n.digits) n.scale).result lib n.text n.sign := by
  have hdef := exactJSONInteger_def lib (splitExponent_text n) (parseExponent_power n hpower)
    (splitSign_mantissa n)
  dsimp only at hdef
  rwa [takeWhile_mantissa, fraction_mantissa] at hdef

/-! ## What the classification means -/

/-- What is found out about a number that is not negative. -/
def Classified.Means (value : ℚ) : Classified → Prop
  | .zero => value = 0
  | .fraction => ¬∃ i : ℤ, value = i
  | .outside => ∃ m : ℕ, value = m ∧ 10 ^ 19 ≤ m
  | .parse digits => Digits digits ∧ digits ≠ [] ∧ digits.length ≤ 19 ∧ value = natOf digits

/-- An integer: digits without a zero in front, and zeros behind them. -/
theorem integral_means {front : GoString} (hfront : Canonical front) (hne : front ≠ [])
    {value : ℚ} {k : Nat} (hvalue : value = natOf front * 10 ^ k) :
    (if (19 : Int) < front.length + k then Classified.outside
      else .parse (front ++ replicate k 0x30)).Means value := by
  split
  · refine ⟨natOf front * 10 ^ k, by rw [hvalue]; push_cast; rfl, ?_⟩
    calc 10 ^ 19 ≤ 10 ^ (front.length - 1 + k) := Nat.pow_le_pow_right (by decide) (by omega)
      _ = 10 ^ (front.length - 1) * 10 ^ k := Nat.pow_add ..
      _ ≤ natOf front * 10 ^ k := Nat.mul_le_mul_right _ (le_natOf hfront hne)
  · refine ⟨?_, by simp [hne], by simp; omega, ?_⟩
    · intro b hb
      rcases mem_append.mp hb with hb | hb
      · exact hfront.digits b hb
      · rw [eq_of_mem_replicate hb]
        rfl
    · rw [hvalue, natOf_append_zeros]
      push_cast
      rfl

theorem classify_means (h : Canonical digits) (exponent : Int) :
    (classify digits exponent).Means (natOf digits * 10 ^ exponent) := by
  unfold classify
  split
  · rename_i hnil
    rw [hnil]
    simp [Classified.Means, natOf]
  · rename_i hne
    dsimp only
    by_cases hneg : exponent < 0
    · obtain ⟨k, rfl⟩ : ∃ k : ℕ, exponent = -(k : ℤ) := ⟨exponent.natAbs, by omega⟩
      by_cases hcut : digits.length ≤ k
      · rw [if_pos ⟨hneg, .inl (by omega)⟩]
        have hpos : 0 < natOf digits :=
          Nat.lt_of_lt_of_le (Nat.pow_pos (by decide)) (le_natOf h hne)
        have hlt : natOf digits < 10 ^ k :=
          Nat.lt_of_lt_of_le (natOf_lt h.digits) (Nat.pow_le_pow_right (by decide) hcut)
        exact not_integral (q := 0) (by omega) hpos hlt
      · -- the digits up to the point, and those behind it
        obtain ⟨cut, hcut⟩ : ∃ cut : ℕ, digits.length = cut + 1 + k :=
          ⟨digits.length - k - 1, by omega⟩
        have htoNat : ((digits.length : Int) + -(k : ℤ)).toNat = cut + 1 := by omega
        have hdrop : (digits.drop (cut + 1)).length = k := by simp; omega
        have hsplit : natOf digits =
            natOf (digits.take (cut + 1)) * 10 ^ k + natOf (digits.drop (cut + 1)) := by
          rw [← hdrop, ← natOf_append, take_append_drop]
        have hall : Digits (digits.drop (cut + 1)) :=
          fun b hb => h.digits b (mem_of_mem_drop hb)
        rw [htoNat]
        by_cases hany : (digits.drop (cut + 1)).any (fun b => b != 0x30) = true
        · rw [if_pos ⟨hneg, .inr hany⟩]
          obtain ⟨b, hb, hzero⟩ := any_eq_true.mp hany
          refine not_integral hsplit (natOf_pos hall ⟨b, hb, by simpa using hzero⟩) ?_
          calc natOf (digits.drop (cut + 1)) < 10 ^ (digits.drop (cut + 1)).length := natOf_lt hall
            _ = 10 ^ k := by rw [hdrop]
        · have hzeros : natOf (digits.drop (cut + 1)) = 0 := by
            refine natOf_zeros fun b hb => ?_
            by_contra hzero
            exact hany (any_eq_true.mpr ⟨b, hb, by simpa using hzero⟩)
          have hvalue : (natOf digits : ℚ) * 10 ^ (-(k : ℤ)) =
              natOf (digits.take (cut + 1)) * 10 ^ 0 := by
            have hpow : (10 : ℚ) ^ k ≠ 0 := pow_ne_zero k (by norm_num)
            rw [hsplit, hzeros, zpow_neg, zpow_natCast, ← div_eq_mul_inv, div_eq_iff hpow]
            push_cast
            ring
          have hmeans := integral_means (h.take cut) (by simp [hne]) hvalue
          rw [if_neg, if_pos hneg]
          · simpa using hmeans
          · rintro ⟨-, hlow | hsome⟩
            · omega
            · exact hany hsome
    · obtain ⟨k, rfl⟩ : ∃ k : ℕ, exponent = k := ⟨exponent.toNat, by omega⟩
      exact integral_means h hne (by rw [zpow_natCast])

/-! ## Exactness -/

theorem numeral_value (n : Numeral) : n.value =
    (if n.negative then -1 else 1) * (natOf (trimLeft n.digits) * 10 ^ n.scale) := by
  rw [Numeral.value, natOf_trimLeft, mul_assoc]

/-- In the signed 64-bit range. -/
def InRange (i : Int) : Prop := -(2 ^ 63) ≤ i ∧ i < 2 ^ 63

/-- One of three things is returned, and each means something else. -/
theorem result_cases (n : Numeral) (text : GoString) :
    let r := (classify (trimLeft n.digits) n.scale).result lib text n.sign
    (∃ i : Int, n.value = i ∧ InRange i ∧ r = (i, true, none)) ∨
    (∃ i : Int, n.value = i ∧ ¬InRange i ∧ r = (0, true, some (outsideError lib text))) ∨
    ((¬∃ i : Int, n.value = i) ∧ r = (0, false, none)) := by
  have hmeans := classify_means (trimLeft_canonical n.digits_all) n.scale
  have hsigned : ∀ m : ℕ, ((if n.negative then -1 else 1) * m : ℚ) =
      ((if n.negative then -(m : Int) else m : Int) : ℚ) := by
    intro m
    cases n.negative <;> simp
  rw [numeral_value]
  generalize (natOf (trimLeft n.digits) : ℚ) * 10 ^ n.scale = value at hmeans
  cases hclass : classify (trimLeft n.digits) n.scale with
  | zero =>
    rw [hclass] at hmeans
    left
    refine ⟨0, ?_, by simp [InRange], rfl⟩
    rw [show value = 0 from hmeans]
    simp
  | fraction =>
    rw [hclass] at hmeans
    right; right
    refine ⟨?_, rfl⟩
    rintro ⟨i, hi⟩
    refine hmeans ⟨if n.negative then -i else i, ?_⟩
    cases hsign : n.negative <;> rw [hsign] at hi <;> simp at hi ⊢ <;> linarith
  | outside =>
    rw [hclass] at hmeans
    obtain ⟨m, rfl, hlarge⟩ := hmeans
    right; left
    refine ⟨_, hsigned m, ?_, rfl⟩
    rintro ⟨hlow, hhigh⟩
    cases n.negative <;> simp at hlow hhigh <;> omega
  | parse digits =>
    rw [hclass] at hmeans
    obtain ⟨hall, hne, hlength, rfl⟩ := hmeans
    have hsign : n.sign = [] ∨ n.sign = [0x2B] ∨ n.sign = [0x2D] := by
      rw [Numeral.sign]
      cases n.negative <;> simp
    have hvalue : (if n.negative then -(natOf digits : Int) else natOf digits) =
        if n.sign = [0x2D] then -(natOf digits : Int) else natOf digits := by
      rw [Numeral.sign]
      cases n.negative <;> simp
    have hparse := parseInt_signed 64 hsign hall hne hvalue
    rw [Classified.result, hparse]
    by_cases hrange : InRange (if n.negative then -(natOf digits : Int) else natOf digits)
    · left
      refine ⟨_, hsigned _, hrange, ?_⟩
      unfold InRange at hrange
      rw [if_pos hrange]
    · right; left
      refine ⟨_, hsigned _, hrange, ?_⟩
      unfold InRange at hrange
      rw [if_neg hrange]

theorem built_length (n : Numeral) : n.digits.length ≤ n.text.length ∧
    ∀ digits, classify (trimLeft n.digits) n.scale = .parse digits →
      (n.sign ++ digits).length ≤ n.text.length + 19 := by
  constructor
  · have hmantissa : n.digits.length ≤ n.mantissa.length := by
      rw [Numeral.digits, Numeral.mantissa]
      split
      · rename_i hnone
        rw [hnone]
      · simp
    calc n.digits.length ≤ n.mantissa.length := hmantissa
      _ ≤ n.text.length := by rw [Numeral.text]; simp; omega
  · intro digits hparse
    have hmeans := classify_means (trimLeft_canonical n.digits_all) n.scale
    rw [hparse] at hmeans
    obtain ⟨-, -, hlength, -⟩ := hmeans
    have hsign : n.sign.length ≤ n.text.length := by simp [Numeral.text]
    rw [length_append]
    omega

/-- `exactJSONInteger` of a JSON number whose exponent fits 32 bits returns the
integer that the text denotes, fails for one outside of the signed 64-bit range,
and says that any other number is not an integer. It joins the digits before and
after the point, and it passes the digits that it found to `ParseInt`; neither is
longer than the text and 19 characters. -/
theorem exactJSONInteger_exact (n : Numeral) (hpower : -(2 ^ 31) ≤ n.power ∧ n.power < 2 ^ 31) :
    (∀ i : Int, exactJSONInteger lib n.text = (i, true, none) ↔ n.value = i ∧ InRange i) ∧
    ((∃ err, exactJSONInteger lib n.text = (0, true, some err)) ↔
      ∃ i : Int, n.value = i ∧ ¬InRange i) ∧
    (exactJSONInteger lib n.text = (0, false, none) ↔ ¬∃ i : Int, n.value = i) ∧
    exactJSONInteger lib n.text = (classify (trimLeft n.digits) n.scale).result lib n.text n.sign ∧
    n.digits.length ≤ n.text.length ∧
    ∀ digits, classify (trimLeft n.digits) n.scale = .parse digits →
      (n.sign ++ digits).length ≤ n.text.length + 19 := by
  have hclassified := exactJSONInteger_eq lib n hpower
  have hcases := result_cases lib n n.text
  rw [← hclassified] at hcases
  have hunique : ∀ {i j : Int}, n.value = i → n.value = j → i = j := by
    intro i j hi hj
    exact_mod_cast hi.symm.trans hj
  refine ⟨?_, ?_, ?_, hclassified, built_length n⟩
  · intro i
    rcases hcases with ⟨j, hj, hrange, hr⟩ | ⟨j, hj, hrange, hr⟩ | ⟨hnone, hr⟩
    · rw [hr]
      constructor
      · intro heq
        obtain rfl : j = i := congrArg Prod.fst heq
        exact ⟨hj, hrange⟩
      · rintro ⟨hi, -⟩
        rw [hunique hj hi]
    · rw [hr]
      refine ⟨fun heq => (by cases heq), fun ⟨hi, hin⟩ => ?_⟩
      exact absurd (hunique hj hi ▸ hin) hrange
    · rw [hr]
      exact ⟨fun heq => (by cases heq), fun ⟨hi, _⟩ => absurd ⟨i, hi⟩ hnone⟩
  · rcases hcases with ⟨j, hj, hrange, hr⟩ | ⟨j, hj, hrange, hr⟩ | ⟨hnone, hr⟩
    · rw [hr]
      refine ⟨fun ⟨_, heq⟩ => (by cases heq), fun ⟨i, hi, hout⟩ => ?_⟩
      exact absurd (hunique hj hi ▸ hrange) hout
    · exact ⟨fun _ => ⟨j, hj, hrange⟩, fun _ => ⟨_, hr⟩⟩
    · rw [hr]
      exact ⟨fun ⟨_, heq⟩ => (by cases heq), fun ⟨i, hi, _⟩ => absurd ⟨i, hi⟩ hnone⟩
  · rcases hcases with ⟨j, hj, hrange, hr⟩ | ⟨j, hj, hrange, hr⟩ | ⟨hnone, hr⟩
    · rw [hr]
      exact ⟨fun heq => (by cases heq), fun hnone => absurd ⟨j, hj⟩ hnone⟩
    · rw [hr]
      exact ⟨fun heq => (by cases heq), fun hnone => absurd ⟨j, hj⟩ hnone⟩
    · exact ⟨fun _ => hnone, fun _ => hr⟩

/-- The number `-12.50e1`. -/
def fractionalExponent : Numeral where
  negative := true
  whole := [0x31, 0x32]
  fraction := [0x35, 0x30]
  exponent := some
    { mark := 0x65, sign := [], digits := [0x31], mark_eq := .inl rfl, sign_eq := .inl rfl,
      all := by simp [Digits, isDigit], ne := by simp }
  whole_all := by simp [Digits, isDigit]
  whole_ne := by simp
  whole_zero := by simp
  fraction_all := by simp [Digits, isDigit]

theorem exactJSONInteger_exact_fraction :
    (-(2 ^ 31) ≤ fractionalExponent.power ∧ fractionalExponent.power < 2 ^ 31) ∧
    ∀ lib, exactJSONInteger lib fractionalExponent.text = (-125, true, none) := by
  have hpower : -(2 ^ 31) ≤ fractionalExponent.power ∧ fractionalExponent.power < 2 ^ 31 := by
    decide
  have hvalue : fractionalExponent.value = ((-125 : Int) : ℚ) := by
    have hnat : natOf fractionalExponent.digits = 1250 := rfl
    have hscale : fractionalExponent.scale = -1 := rfl
    rw [Numeral.value, hnat, hscale]
    norm_num [fractionalExponent]
  have hrange : InRange (-125) := by simp [InRange]
  exact ⟨hpower, fun lib => ((exactJSONInteger_exact lib _ hpower).1 _).mpr ⟨hvalue, hrange⟩⟩

end Sink.Merge
