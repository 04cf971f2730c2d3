import Mathlib.Algebra.Order.Ring.Int

/-!
# Numbers in bytes

The natural number that a list of bytes denotes, most or least significant byte
first. Lists of one length denote different numbers if they differ, and a number
below `256 ^ width` is what its `width` bytes denote.
-/

namespace Bytes

/-! ## Most significant first -/

/-- The number read so far, then the bytes that follow. -/
def bigEndianFrom : Nat → List UInt8 → Nat
  | n, [] => n
  | n, b :: rest => bigEndianFrom (256 * n + b.toNat) rest

def bigEndian (bytes : List UInt8) : Nat := bigEndianFrom 0 bytes

variable {bytes others : List UInt8}

theorem bigEndianFrom_injective {n m : Nat} (length : bytes.length = others.length)
    (h : bigEndianFrom n bytes = bigEndianFrom m others) : n = m ∧ bytes = others := by
  induction bytes generalizing n m others with
  | nil =>
    cases others with
    | nil => exact ⟨h, rfl⟩
    | cons c others => cases length
  | cons b bytes ih =>
    cases others with
    | nil => cases length
    | cons c others =>
      obtain ⟨hnumber, hrest⟩ := ih (Nat.succ.inj length) h
      have hb := b.toNat_lt
      have hc := c.toNat_lt
      have hbyte : b.toNat = c.toNat := by omega
      exact ⟨by omega, by rw [UInt8.toNat_inj.mp hbyte, hrest]⟩

theorem bigEndian_injective (length : bytes.length = others.length)
    (h : bigEndian bytes = bigEndian others) : bytes = others :=
  (bigEndianFrom_injective length h).2

theorem bigEndianFrom_lt (n : Nat) (bytes : List UInt8) :
    bigEndianFrom n bytes < (n + 1) * 256 ^ bytes.length := by
  induction bytes generalizing n with
  | nil => simp [bigEndianFrom]
  | cons b bytes ih =>
    have hb := b.toNat_lt
    refine Nat.lt_of_lt_of_le (ih (256 * n + b.toNat)) ?_
    rw [List.length_cons, Nat.pow_succ', ← Nat.mul_assoc]
    exact Nat.mul_le_mul_right _ (by omega)

theorem bigEndian_lt (bytes : List UInt8) : bigEndian bytes < 256 ^ bytes.length := by
  have h := bigEndianFrom_lt 0 bytes
  rwa [Nat.zero_add, Nat.one_mul] at h

/-! ## Least significant first -/

def littleEndian : List UInt8 → Nat
  | [] => 0
  | b :: rest => b.toNat + 256 * littleEndian rest

/-- The bytes of a number. -/
def toLittleEndian : Nat → Nat → List UInt8
  | 0, _ => []
  | width + 1, n => UInt8.ofNat (n % 256) :: toLittleEndian width (n / 256)

@[simp] theorem length_toLittleEndian (width n : Nat) :
    (toLittleEndian width n).length = width := by
  induction width generalizing n with
  | zero => rfl
  | succ width ih => rw [toLittleEndian, List.length_cons, ih]

theorem littleEndian_toLittleEndian {width n : Nat} (h : n < 256 ^ width) :
    littleEndian (toLittleEndian width n) = n := by
  induction width generalizing n with
  | zero =>
    rw [toLittleEndian, littleEndian]
    omega
  | succ width ih =>
    have hdiv : n / 256 < 256 ^ width := by
      omega
    have hbyte : (UInt8.ofNat (n % 256)).toNat = n % 256 := by
      rw [UInt8.toNat_ofNat']
      omega
    rw [toLittleEndian, littleEndian, ih hdiv, hbyte]
    omega

end Bytes
