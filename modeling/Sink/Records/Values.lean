import Mathlib.Tactic.Positivity
import Sink.Lib.BsonWire
import Sink.Records.Keys

/-!
# Values of `_id`

The rest of the first half of `mongodb/bson.go`: the BSON value of a record id,
and when two of them are the same id for MongoDB, which compares numbers of
different types. `exactInteger` finds the integer that a number is exactly;
`rawValueKey` is the name under which an id is looked up.

A decimal is a coefficient and a power of ten; its exact value is a rational
number, and a double is a significand and a power of two.
-/

namespace Sink.Records

open BsonWire Option

variable {n : Int64} {value : List UInt8} {raw : RawValue}

/-! ## The BSON values of ids -/

/-- Eight bytes, least significant first. -/
def int64Bytes (value : Int64) : List UInt8 := Bytes.toLittleEndian 8 value.toUInt64.toNat

/-- `rawValue`; the driver encodes every one of these values. -/
def rawValue : MongoID → RawValue
  | .string text => ⟨typeString, stringBytes text⟩
  | .int64 value => ⟨typeInt64, int64Bytes value⟩
  | .binary data => ⟨typeBinary, binaryBytes 0 data⟩
  | .objectID data => ⟨typeObjectID, data⟩

/-! ## Numbers -/

def int32Of (bytes : List UInt8) : Int32 := (UInt32.ofNat (Bytes.littleEndian bytes)).toInt32

def int64Of (bytes : List UInt8) : Int64 := (UInt64.ofNat (Bytes.littleEndian bytes)).toInt64

def exactly (n : Int) : Option Int64 :=
  if -2 ^ 63 ≤ n ∧ n < 2 ^ 63 then some (Int64.ofInt n) else none

def doubleInteger (bits : Nat) : Option Int64 :=
  let exponent : Nat := bits / 2 ^ 52 % 2 ^ 11
  let fraction : Nat := bits % 2 ^ 52
  let significand : Nat := if exponent = 0 then fraction else 2 ^ 52 + fraction
  let scale : Int := (max exponent 1 : Nat) - 1075
  let signed (n : Int) := if bits / 2 ^ 63 % 2 = 1 then -n else n
  if exponent = 2 ^ 11 - 1 then none
  else if 0 ≤ scale then exactly (signed (significand * 2 ^ scale.toNat))
  else if significand % 2 ^ (-scale).toNat ≠ 0 then none
  else exactly (signed (significand / 2 ^ (-scale).toNat : Nat))

/-- `Decimal128.BigInt`: coefficient and exponent, or nothing for what is no number. -/
def bigInt (high low : Nat) : Option (Int × Int) :=
  let combination := high / 2 ^ 58 % 2 ^ 5
  let signed (n : Int) := if high / 2 ^ 63 % 2 = 1 then -n else n
  if combination = 0x1F ∨ combination = 0x1E then none
  else if high / 2 ^ 61 % 4 = 3 then
    -- these coefficients would be out of range and count as zero
    some (0, (high / 2 ^ 47 % 2 ^ 14 : Nat) - 6176)
  else
    some (signed (high % 2 ^ 49 * 2 ^ 64 + low : Nat), (high / 2 ^ 49 % 2 ^ 14 : Nat) - 6176)

/-- `Decimal128OK` and `BigInt`. -/
def decimalParts (value : List UInt8) : Option (Int × Int) :=
  bigInt (Bytes.littleEndian ((value.drop 8).take 8)) (Bytes.littleEndian (value.take 8))

/-- The decimal branch of `exactInteger`. -/
def decimalInteger (coefficient exponent : Int) : Option Int64 :=
  if coefficient = 0 then some 0
  else if exponent < -34 ∨ 18 < exponent then none
  else if exponent < 0 then
    let power : Int := 10 ^ (-exponent).toNat
    if coefficient.tmod power ≠ 0 then none else exactly (coefficient.tdiv power)
  else exactly (coefficient * 10 ^ exponent.toNat)

def exactInteger (raw : RawValue) : Option Int64 :=
  if raw.type = typeInt32 then
    if raw.value.length < 4 then none else some (int32Of (raw.value.take 4)).toInt64
  else if raw.type = typeInt64 then
    if raw.value.length < 8 then none else some (int64Of (raw.value.take 8))
  else if raw.type = typeDouble then
    if raw.value.length < 8 then none
    else doubleInteger (Bytes.littleEndian (raw.value.take 8))
  else if raw.type = typeDecimal128 then
    if raw.value.length < 16 then none
    else (decimalParts raw.value).bind fun (coefficient, exponent) =>
      decimalInteger coefficient exponent
  else none

def rawValueKey (raw : RawValue) : List UInt8 :=
  let normalized := match exactInteger raw with
    | some integer => rawValue (.int64 integer)
    | none => raw
  normalized.type :: normalized.value

def recordIDsEqual (actual expected : RawValue) : Bool :=
  if actual = expected then true
  else
    match exactInteger actual, exactInteger expected with
    | some actual, some expected => actual == expected
    | _, _ => false

/-! ## Well formed ids -/

/-- The ids that reads are about: no doubles, decimals of at most 34 digits. The
bytes of texts, binaries and object ids are not looked into. -/
inductive WellFormed : RawValue → Prop where
  | int32 {value : List UInt8} (length : value.length = 4) : WellFormed ⟨typeInt32, value⟩
  | int64 {value : List UInt8} (length : value.length = 8) : WellFormed ⟨typeInt64, value⟩
  | decimal128 {value : List UInt8} (length : value.length = 16)
      (digits : ∀ coefficient exponent, decimalParts value = some (coefficient, exponent) →
        |coefficient| < 10 ^ 34) :
      WellFormed ⟨typeDecimal128, value⟩
  | string {value : List UInt8} : WellFormed ⟨typeString, value⟩
  | binary {value : List UInt8} : WellFormed ⟨typeBinary, value⟩
  | objectID {value : List UInt8} : WellFormed ⟨typeObjectID, value⟩

def exactValue (raw : RawValue) : Option ℚ :=
  if raw.type = typeInt32 then some ((int32Of raw.value).toInt : ℚ)
  else if raw.type = typeInt64 then some ((int64Of raw.value).toInt : ℚ)
  else if raw.type = typeDecimal128 then
    (decimalParts raw.value).map fun (coefficient, exponent) => (coefficient : ℚ) * 10 ^ exponent
  else none

/-! ## Exact integers -/

theorem exactly_eq_some {m : Int} : exactly m = some n ↔ m = n.toInt := by
  have hlow := n.le_toInt
  have hhigh := n.toInt_lt
  rw [exactly]
  constructor
  · intro h
    split at h
    · rename_i hrange
      cases h
      rw [Int64.toInt_ofInt_of_le (by omega) (by omega)]
    · cases h
  · rintro rfl
    rw [if_pos ⟨hlow, hhigh⟩, Int64.ofInt_toInt]

theorem scaled_up {c n : Int} (k : Nat) : (c : ℚ) * 10 ^ (k : Int) = n ↔ c * 10 ^ k = n := by
  rw [zpow_natCast]
  exact_mod_cast Iff.rfl

theorem scaled_down {c n : Int} (k : Nat) : (c : ℚ) * 10 ^ (-(k : Int)) = n ↔ c = n * 10 ^ k := by
  have hpower : (10 : ℚ) ^ k ≠ 0 := pow_ne_zero _ (by norm_num)
  rw [zpow_neg, zpow_natCast, ← div_eq_mul_inv, div_eq_iff hpower]
  exact_mod_cast Iff.rfl

theorem power_le_abs {n : Int} (hn : n ≠ 0) (k : Nat) : 10 ^ k ≤ |n * 10 ^ k| := by
  have hpower : (0 : Int) ≤ 10 ^ k := by positivity
  rw [abs_mul, abs_of_nonneg hpower]
  exact le_mul_of_one_le_left hpower (Int.one_le_abs hn)

theorem zeros_lt_of_digits {c n : Int} {k : Nat} (hc : c ≠ 0) (digits : |c| < 10 ^ 34)
    (h : c = n * 10 ^ k) : k < 34 := by
  have hn : n ≠ 0 := by
    rintro rfl
    exact hc (by rw [h, zero_mul])
  by_contra hk
  have hpower : (10 : Int) ^ 34 ≤ 10 ^ k := pow_le_pow_right₀ (by norm_num) (by omega)
  have hle := power_le_abs hn k
  rw [← h] at hle
  omega

/-- A nonzero multiple of `10 ^ 19` is no 64 bit integer. -/
theorem zeros_le_of_int64 {c : Int} {k : Nat} (hc : c ≠ 0) (h : c * 10 ^ k = n.toInt) : k ≤ 18 := by
  by_contra hk
  have hpower : (10 : Int) ^ 19 ≤ 10 ^ k := pow_le_pow_right₀ (by norm_num) (by omega)
  have hle := power_le_abs hc k
  have hlow := n.le_toInt
  have hhigh := n.toInt_lt
  have hbound : |n.toInt| ≤ 2 ^ 63 := abs_le.mpr ⟨hlow, by omega⟩
  rw [h] at hle
  omega

theorem exactly_tdiv {c power : Int} (hpower : power ≠ 0) :
    (if c.tmod power ≠ 0 then none else exactly (c.tdiv power)) = some n ↔
      c = n.toInt * power := by
  constructor
  · intro h
    split at h
    · cases h
    rename_i hmod
    rw [not_not] at hmod
    have hdiv := exactly_eq_some.mp h
    rw [← hdiv, Int.tdiv_mul_cancel_of_tmod_eq_zero hmod]
  · intro h
    rw [h, Int.mul_tmod_left, if_neg (by simp), Int.mul_tdiv_cancel _ hpower]
    exact exactly_eq_some.mpr rfl

theorem decimalInteger_eq_some {coefficient exponent : Int} (digits : |coefficient| < 10 ^ 34) :
    decimalInteger coefficient exponent = some n ↔
      (coefficient : ℚ) * 10 ^ exponent = (n.toInt : ℚ) := by
  by_cases hzero : coefficient = 0
  · rw [decimalInteger, if_pos hzero, hzero, some.injEq]
    constructor
    · rintro rfl
      simp
    · intro h
      have hn : n.toInt = 0 := by
        simp only [Int.cast_zero, zero_mul] at h
        exact_mod_cast h.symm
      exact (Int64.toInt_inj.mp (hn.trans Int64.toInt_zero.symm)).symm
  rw [decimalInteger, if_neg hzero]
  rcases le_or_gt 0 exponent with hsign | hsign
  · obtain ⟨k, rfl⟩ := Int.eq_ofNat_of_zero_le hsign
    rw [scaled_up]
    by_cases hk : (18 : Int) < k
    · rw [if_pos (.inr hk)]
      constructor
      · intro h; cases h
      · intro h
        have := zeros_le_of_int64 hzero h
        omega
    · rw [if_neg (by omega), if_neg (by omega), Int.toNat_natCast]
      exact exactly_eq_some
  · obtain ⟨k, hk⟩ := Int.eq_ofNat_of_zero_le (Int.neg_nonneg.mpr hsign.le)
    obtain rfl : exponent = -(k : Int) := by omega
    rw [scaled_down]
    by_cases hlow : -(k : Int) < -34
    · rw [if_pos (.inl hlow)]
      constructor
      · intro h; cases h
      · intro h
        have := zeros_lt_of_digits hzero digits h
        omega
    · rw [if_neg (by omega), if_pos (by omega), Int.neg_neg, Int.toNat_natCast]
      exact exactly_tdiv (pow_ne_zero _ (by norm_num))

theorem exactInteger_int32 (h : value.length = 4) :
    exactInteger ⟨typeInt32, value⟩ = some (int32Of value).toInt64 := by
  show (if value.length < 4 then none else some (int32Of (value.take 4)).toInt64) = _
  rw [if_neg (by omega), List.take_of_length_le (by omega)]

theorem exactInteger_int64 (h : value.length = 8) :
    exactInteger ⟨typeInt64, value⟩ = some (int64Of value) := by
  show (if value.length < 8 then none else some (int64Of (value.take 8))) = _
  rw [if_neg (by omega), List.take_of_length_le (by omega)]

theorem exactInteger_decimal128 (h : value.length = 16) :
    exactInteger ⟨typeDecimal128, value⟩ =
      (decimalParts value).bind fun (coefficient, exponent) =>
        decimalInteger coefficient exponent := by
  show (if value.length < 16 then none else (decimalParts value).bind _) = _
  rw [if_neg (by omega)]

/-- A value is an integer exactly if `exactInteger` says so. -/
theorem exactInteger_eq_some (h : WellFormed raw) :
    exactInteger raw = some n ↔ exactValue raw = some (n.toInt : ℚ) := by
  cases h with
  | int32 length =>
    rename_i value
    have hvalue : exactValue ⟨typeInt32, value⟩ = some ((int32Of value).toInt : ℚ) := rfl
    rw [exactInteger_int32 length, hvalue, some.injEq, some.injEq, Int.cast_inj,
      ← Int32.toInt_toInt64, Int64.toInt_inj]
  | int64 length =>
    rename_i value
    have hvalue : exactValue ⟨typeInt64, value⟩ = some ((int64Of value).toInt : ℚ) := rfl
    rw [exactInteger_int64 length, hvalue, some.injEq, some.injEq, Int.cast_inj, Int64.toInt_inj]
  | decimal128 length digits =>
    rename_i value
    have hvalue : exactValue ⟨typeDecimal128, value⟩ =
      (decimalParts value).map fun (coefficient, exponent) =>
        (coefficient : ℚ) * 10 ^ exponent := rfl
    rw [exactInteger_decimal128 length, hvalue]
    cases hparts : decimalParts value with
    | none => exact ⟨fun h => (nomatch h), fun h => (nomatch h)⟩
    | some parts =>
      obtain ⟨coefficient, exponent⟩ := parts
      rw [bind_some, map_some, some.injEq]
      exact decimalInteger_eq_some (digits coefficient exponent hparts)
  | string => exact ⟨fun h => (nomatch h), fun h => (nomatch h)⟩
  | binary => exact ⟨fun h => (nomatch h), fun h => (nomatch h)⟩
  | objectID => exact ⟨fun h => (nomatch h), fun h => (nomatch h)⟩

/-! ## The name of an id -/

theorem int64Of_int64Bytes (value : Int64) : int64Of (int64Bytes value) = value := by
  have hlt : value.toUInt64.toNat < 256 ^ 8 := value.toUInt64.toNat_lt
  rw [int64Of, int64Bytes, Bytes.littleEndian_toLittleEndian hlt, UInt64.ofNat_toNat]
  rfl

theorem int64Bytes_injective {value other : Int64} (h : int64Bytes value = int64Bytes other) :
    value = other := by
  rw [← int64Of_int64Bytes value, h, int64Of_int64Bytes]

theorem exactInteger_rawValue (value : Int64) :
    exactInteger (rawValue (.int64 value)) = some value := by
  have hlength : (int64Bytes value).length = 8 := Bytes.length_toLittleEndian _ _
  rw [rawValue, exactInteger_int64 hlength, int64Of_int64Bytes]

theorem WellFormed.exactInteger_of_int64 (h : WellFormed raw) (htype : raw.type = typeInt64) :
    ∃ n, exactInteger raw = some n := by
  cases h with
  | int64 length =>
    rename_i value
    exact ⟨int64Of value, exactInteger_int64 length⟩
  | int32 | decimal128 | string | binary | objectID => exact absurd htype (by dsimp only; decide)

theorem rawValueKey_integer (h : exactInteger raw = some n) :
    rawValueKey raw = typeInt64 :: int64Bytes n := by
  rw [rawValueKey, h]
  rfl

theorem rawValueKey_other (h : exactInteger raw = none) :
    rawValueKey raw = raw.type :: raw.value := by
  rw [rawValueKey, h]

theorem recordIDsEqual_iff {actual expected : RawValue} :
    recordIDsEqual actual expected = true ↔
      actual = expected ∨ ∃ n, exactInteger actual = some n ∧ exactInteger expected = some n := by
  rw [recordIDsEqual]
  by_cases hsame : actual = expected
  · rw [if_pos hsame]
    exact ⟨fun _ => .inl hsame, fun _ => rfl⟩
  rw [if_neg hsame]
  cases hactual : exactInteger actual with
  | none => simp [hsame]
  | some m =>
    cases hexpected : exactInteger expected with
    | none => simp [hsame]
    | some n =>
      rw [beq_iff_eq]
      constructor
      · rintro rfl
        exact .inr ⟨m, rfl, rfl⟩
      · rintro (hcontra | ⟨k, hm, hn⟩)
        · exact absurd hcontra hsame
        · rw [some.inj hm, some.inj hn]

theorem rawValueKey_eq_iff {other : RawValue} (h : WellFormed raw) (h' : WellFormed other) :
    rawValueKey raw = rawValueKey other ↔ recordIDsEqual raw other = true := by
  rw [recordIDsEqual_iff]
  -- the name of an integer is that of no other value, since it is a 64 bit integer itself
  have hmixed : ∀ {raw other : RawValue} {n : Int64}, WellFormed other →
      exactInteger raw = some n → exactInteger other = none →
      rawValueKey raw ≠ rawValueKey other := by
    intro raw other n hother hraw hnone hkey
    rw [rawValueKey_integer hraw, rawValueKey_other hnone] at hkey
    obtain ⟨m, hm⟩ := hother.exactInteger_of_int64 (List.cons.inj hkey).1.symm
    rw [hnone] at hm
    cases hm
  cases hraw : exactInteger raw with
  | some n =>
    cases hother : exactInteger other with
    | some m =>
      rw [rawValueKey_integer hraw, rawValueKey_integer hother]
      constructor
      · intro hkey
        exact .inr ⟨m, by rw [int64Bytes_injective (List.cons.inj hkey).2], rfl⟩
      · rintro (rfl | ⟨k, hn, hm⟩)
        · rw [hraw] at hother
          rw [some.inj hother]
        · rw [some.inj hn, some.inj hm]
    | none =>
      constructor
      · intro hkey
        exact absurd hkey (hmixed h' hraw hother)
      · rintro (rfl | ⟨k, _, hm⟩)
        · rfl
        · cases hm
  | none =>
    cases hother : exactInteger other with
    | some m =>
      constructor
      · intro hkey
        exact absurd hkey.symm (hmixed h hother hraw)
      · rintro (rfl | ⟨k, hn, _⟩)
        · rfl
        · cases hn
    | none =>
      rw [rawValueKey_other hraw, rawValueKey_other hother]
      constructor
      · intro hkey
        obtain ⟨htype, hvalue⟩ := List.cons.inj hkey
        left
        cases raw
        cases other
        rw [RawValue.mk.injEq]
        exact ⟨htype, hvalue⟩
      · rintro (rfl | ⟨k, hn, _⟩)
        · rfl
        · cases hn

/-! ## Record ids -/

theorem stringBytes_injective {text other : List UInt8} (h : stringBytes text = stringBytes other) :
    text = other := by
  have htail := (List.append_inj h (by rw [Bytes.length_toLittleEndian,
    Bytes.length_toLittleEndian])).2
  exact List.append_cancel_right htail

theorem binaryBytes_injective {data other : List UInt8}
    (h : binaryBytes 0 data = binaryBytes 0 other) : data = other := by
  have htail := (List.append_inj h (by rw [Bytes.length_toLittleEndian,
    Bytes.length_toLittleEndian])).2
  exact (List.cons.inj htail).2

variable {id other : MongoID}

theorem rawValue_injective (h : rawValue id = rawValue other) : id = other := by
  have htype := congrArg RawValue.type h
  have hvalue := congrArg RawValue.value h
  cases id with
  | string text =>
    cases other with
    | string text' => rw [stringBytes_injective hvalue]
    | int64 _ | binary _ | objectID _ => exact absurd htype (by dsimp only [rawValue]; decide)
  | int64 value =>
    cases other with
    | int64 value' => rw [int64Bytes_injective hvalue]
    | string _ | binary _ | objectID _ => exact absurd htype (by dsimp only [rawValue]; decide)
  | binary data =>
    cases other with
    | binary data' => rw [binaryBytes_injective hvalue]
    | string _ | int64 _ | objectID _ => exact absurd htype (by dsimp only [rawValue]; decide)
  | objectID data =>
    cases other with
    | objectID data' => rw [show data = data' from hvalue]
    | string _ | int64 _ | binary _ => exact absurd htype (by dsimp only [rawValue]; decide)

theorem recordIDsEqual_rawValue (h : recordIDsEqual (rawValue id) (rawValue other) = true) :
    id = other := by
  rcases recordIDsEqual_iff.mp h with hsame | ⟨n, hn, hm⟩
  · exact rawValue_injective hsame
  have hinteger : ∀ {id : MongoID}, exactInteger (rawValue id) = some n → id = .int64 n := by
    intro id hid
    cases id with
    | int64 value =>
      rw [exactInteger_rawValue] at hid
      rw [some.inj hid]
    | string _ | binary _ | objectID _ => cases hid
  rw [hinteger hn, hinteger hm]

end Sink.Records
