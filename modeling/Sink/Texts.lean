import Mathlib.Tactic.IntervalCases
import Sink.Errors

/-!
# Literals and numbers as bytes

`lit` is the UTF-8 encoding of a literal of the source, and `decimal` is how it
prints an integer. Both are ASCII wherever the source uses them: a literal is
its characters, and a number is a sign and digits.
-/

namespace Sink

open List

theorem lit_injective {s t : String} (h : lit s = lit t) : s = t := by
  have hdata : s.toUTF8.data = t.toUTF8.data := Array.toList_inj.mp h
  exact String.toByteArray_inj.mp (ByteArray.ext hdata)

theorem toDigits_injective {m n : Nat} (h : Nat.toDigits 10 m = Nat.toDigits 10 n) : m = n := by
  have hvalue := congrArg (fun digits => Nat.ofDigitChars 10 digits 0) h
  simpa [Nat.ofDigitChars_toDigits] using hvalue

theorem toDigits_ne_minus (n : Nat) (digits : List Char) : Nat.toDigits 10 n ≠ '-' :: digits := by
  intro h
  have hmem : '-' ∈ Nat.toDigits 10 n := by rw [h]; exact mem_cons_self
  have hdigit := Nat.isDigit_of_mem_toDigits (by omega) (by omega) hmem
  exact absurd hdigit (by decide)

theorem toString_ofNat_toList (n : Nat) : (toString (Int.ofNat n)).toList = Nat.toDigits 10 n := by
  show (Nat.repr n).toList = _
  rw [Nat.repr_eq_ofList_toDigits, String.toList_ofList]

theorem toString_negSucc_toList (n : Nat) :
    (toString (Int.negSucc n)).toList = '-' :: Nat.toDigits 10 (n + 1) := by
  show ("-" ++ Nat.repr (n + 1)).toList = _
  rw [String.toList_append, Nat.repr_eq_ofList_toDigits, String.toList_ofList, String.toList_ofList]
  rfl

theorem lit_eq_map {s : String} (h : ∀ c ∈ s.toList, c.val.toNat ≤ 127) :
    lit s = s.toList.map fun c => UInt8.ofNat c.val.toNat := by
  have hbytes : lit s = s.toList.flatMap String.utf8EncodeChar := by
    show s.toByteArray.data.toList = _
    rw [← String.utf8Encode_toList]
    exact toList_data_toByteArray
  rw [hbytes, map_eq_flatMap]
  refine flatMap_congr fun c hc => ?_
  rw [String.utf8EncodeChar, if_pos (h c hc)]

theorem lit_ascii {s : String} (h : ∀ c ∈ s.toList, c.val.toNat ≤ 127) : ∀ b ∈ lit s, b < 0x80 := by
  intro b hmem
  rw [lit_eq_map h, mem_map] at hmem
  obtain ⟨c, hc, rfl⟩ := hmem
  have hsmall := h c hc
  rw [UInt8.lt_iff_toNat_lt, UInt8.toNat_ofNat_of_lt' (Nat.lt_of_le_of_lt hsmall (by decide))]
  exact Nat.lt_succ_of_le hsmall

theorem decimal_chars (n : Int) : ∀ c ∈ (toString n).toList, c.val.toNat ≤ 127 := by
  have hdigits : ∀ m : Nat, ∀ c ∈ Nat.toDigits 10 m, c.val.toNat ≤ 127 := by
    intro m c hmem
    have hdigit := Nat.isDigit_of_mem_toDigits (by omega) (by omega) hmem
    rw [Char.isDigit, Bool.and_eq_true, decide_eq_true_eq, decide_eq_true_eq] at hdigit
    exact Nat.le_trans (UInt32.le_iff_toNat_le.mp hdigit.2) (by decide)
  intro c hmem
  cases n with
  | ofNat m =>
    rw [toString_ofNat_toList] at hmem
    exact hdigits m c hmem
  | negSucc m =>
    rw [toString_negSucc_toList, mem_cons] at hmem
    rcases hmem with rfl | hmem
    · decide
    · exact hdigits (m + 1) c hmem

theorem decimal_ascii (n : Int) : ∀ b ∈ decimal n, b < 0x80 := lit_ascii (decimal_chars n)

def digitBytes (n : Nat) : GoString := (Nat.toDigits 10 n).map fun c => UInt8.ofNat c.val.toNat

theorem decimal_ofNat (n : Nat) : decimal (.ofNat n) = digitBytes n := by
  rw [decimal, lit_eq_map (decimal_chars _), toString_ofNat_toList, digitBytes]

theorem decimal_negSucc (n : Nat) : decimal (.negSucc n) = 0x2D :: digitBytes (n + 1) := by
  rw [decimal, lit_eq_map (decimal_chars _), toString_negSucc_toList, digitBytes]
  rfl

theorem digitBytes_range (n : Nat) : ∀ b ∈ digitBytes n, 0x30 ≤ b ∧ b ≤ 0x39 := by
  intro b hmem
  obtain ⟨c, hc, rfl⟩ := mem_map.mp hmem
  have hdigit := Nat.isDigit_of_mem_toDigits (by omega) (by omega) hc
  rw [Char.isDigit, Bool.and_eq_true, decide_eq_true_eq, decide_eq_true_eq] at hdigit
  have hlow : 48 ≤ c.val.toNat := UInt32.le_iff_toNat_le.mp hdigit.1
  have hhigh : c.val.toNat ≤ 57 := UInt32.le_iff_toNat_le.mp hdigit.2
  rw [UInt8.le_iff_toNat_le, UInt8.le_iff_toNat_le,
    UInt8.toNat_ofNat_of_lt' (Nat.lt_of_le_of_lt hhigh (by decide))]
  exact ⟨hlow, hhigh⟩

/-- The first digit of a number is zero for zero only. -/
theorem digitBytes_head {n : Nat} (hn : n ≠ 0) :
    ∃ first rest, digitBytes n = first :: rest ∧ first ≠ 0x30 := by
  induction n using Nat.strongRecOn with
  | ind n ih =>
    by_cases hsmall : n < 10
    · refine ⟨UInt8.ofNat (Nat.digitChar n).val.toNat, [], ?_, ?_⟩
      · rw [digitBytes, Nat.toDigits_of_lt_base hsmall]
        rfl
      · interval_cases n <;> first | exact absurd rfl hn | decide
    · obtain ⟨first, rest, hdigits, hfirst⟩ := ih (n / 10) (by omega) (by omega)
      refine ⟨first, rest ++ [UInt8.ofNat (Nat.digitChar (n % 10)).val.toNat], ?_, hfirst⟩
      rw [digitBytes, Nat.toDigits_of_base_le (by omega) (by omega), map_append,
        ← digitBytes, hdigits]
      rfl

theorem decimal_injective {m n : Int} (h : decimal m = decimal n) : m = n := by
  have htext : (toString m).toList = (toString n).toList :=
    congrArg String.toList (lit_injective h)
  cases m with
  | ofNat m =>
    cases n with
    | ofNat n =>
      rw [toString_ofNat_toList, toString_ofNat_toList] at htext
      rw [toDigits_injective htext]
    | negSucc n =>
      rw [toString_ofNat_toList, toString_negSucc_toList] at htext
      exact absurd htext (toDigits_ne_minus _ _)
  | negSucc m =>
    cases n with
    | ofNat n =>
      rw [toString_ofNat_toList, toString_negSucc_toList] at htext
      exact absurd htext.symm (toDigits_ne_minus _ _)
    | negSucc n =>
      rw [toString_negSucc_toList, toString_negSucc_toList] at htext
      rw [Nat.succ.inj (toDigits_injective (cons.inj htext).2)]

end Sink
