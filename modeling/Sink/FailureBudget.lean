import Mathlib.Algebra.Group.Action.Defs
import Mathlib.Algebra.Order.BigOperators.Group.List
import Mathlib.Algebra.Order.Ring.Nat
import Mathlib.Data.List.GetD
import Sink.FailureText
import Sink.Reads.Read

/-!
# Failure texts of a response

`failure_budget.go`: what a caller can still read of a failure text, and how
many bytes the texts of one RPC take. A text that is too long is cut between
two runes, never inside one.
-/

namespace Sink

open List Function

/-! ## Cutting between runes -/

theorem runeStart_of_continues {lo hi b : UInt8} (h : continues lo hi b = true)
    (hlo : 0x80 ≤ lo) (hhi : hi ≤ 0xBF) : runeStart b = false := by
  have hall : ∀ v : BitVec 8, 0x80 ≤ v → v ≤ 0xBF → v &&& 0xC0 = 0x80 := by decide +kernel
  obtain ⟨hlow, hhigh⟩ := (Bool.and_eq_true ..).mp h
  have hmask : b &&& 0xC0 = 0x80 := UInt8.eq_of_toBitVec_eq <| hall b.toBitVec
    (UInt8.le_trans hlo (of_decide_eq_true hlow)) (UInt8.le_trans (of_decide_eq_true hhigh) hhi)
  simp [runeStart, hmask]

theorem runeStart_tail {r : GoString} (hw : runeWidth r = r.length) :
    ∀ b ∈ r.tail, runeStart b = false := by
  rcases r with _ | ⟨b, _ | ⟨c, _ | ⟨d, _ | ⟨e, rest⟩⟩⟩⟩
  · simp
  · simp
  all_goals
    simp only [runeWidth, length_cons, length_nil] at hw
    grind [runeStart_of_continues]

/-- A valid text can be cut in front of every byte that starts a rune. -/
theorem ValidUTF8.cut {s : GoString} (h : ValidUTF8 s) {k : Nat} (hk : k < s.length)
    (hstart : k = 0 ∨ runeStart (s.getD k 0) = true) :
    ValidUTF8 (s.take k) ∧ ValidUTF8 (s.drop k) := by
  induction h generalizing k with
  | nil => cases hk
  | @rune r rest hne hw hrest ih =>
    rcases Nat.eq_zero_or_pos k with rfl | hpos
    · exact ⟨.nil, .rune hne hw hrest⟩
    rcases Nat.lt_or_ge k r.length with hin | hout
    · -- inside the rune
      have hmem : r[k] ∈ r.tail := by
        obtain ⟨b, r, rfl⟩ := exists_cons_of_ne_nil hne
        obtain ⟨k, rfl⟩ := Nat.exists_eq_succ_of_ne_zero (Nat.ne_of_gt hpos)
        simp
      have hinside := runeStart_tail hw _ hmem
      rw [getD_append _ _ _ _ hin, getD_eq_getElem _ _ hin, hinside] at hstart
      exact absurd hstart (not_or.mpr ⟨Nat.ne_of_gt hpos, Bool.false_ne_true⟩)
    · obtain ⟨k, rfl⟩ := Nat.exists_eq_add_of_le hout
      rw [take_length_add_append, drop_length_add_append]
      rw [length_append] at hk
      rw [getD_append_right _ _ _ _ hout, Nat.add_sub_cancel_left] at hstart
      obtain ⟨htake, hdrop⟩ := ih (k := k) (by omega) (hstart.imp_left (by omega))
      exact ⟨.rune hne hw htake, hdrop⟩

theorem runeStart_runeBoundary (message : GoString) (limit : Nat) :
    runeBoundary message limit = 0 ∨
      runeStart (message.getD (runeBoundary message limit) 0) = true := by
  induction limit with
  | zero => exact .inl rfl
  | succ limit ih =>
    unfold runeBoundary
    split
    · rename_i hstart
      exact .inr hstart
    · exact ih

/-! ## One text -/

theorem toValidUTF8_ne_nil {s : GoString} (hs : s ≠ []) : toValidUTF8 s (lit "?") ≠ [] := by
  obtain ⟨b, rest, rfl⟩ := exists_cons_of_ne_nil hs
  rw [toValidUTF8, toValidUTF8From]
  split
  · exact cons_ne_nil _ _
  · exact cons_ne_nil _ _

section

variable {message : GoString} {maximum : Int}

theorem boundedFailureMessage_ne_nil (hmax : 1 ≤ maximum) (hne : message ≠ []) :
    boundedFailureMessage message maximum ≠ [] := by
  unfold boundedFailureMessage
  rw [if_neg (by omega)]
  split
  · have hdots : (lit "...").take (min 3 maximum.toNat) ≠ [] := by
      have hlength : (lit "...").length = 3 := rfl
      rw [← length_pos_iff, length_take]
      omega
    exact append_ne_nil_of_right_ne_nil _ hdots
  · exact toValidUTF8_ne_nil hne

theorem boundedFailureMessage_cut (hmax : 1 ≤ maximum) (hvalid : ValidUTF8 message)
    (hlong : maximum < message.length) :
    ∃ front back, message = front ++ back ∧ ValidUTF8 front ∧ ValidUTF8 back ∧
      boundedFailureMessage message maximum = front ++ (lit "...").take (min 3 maximum.toNat) := by
  unfold boundedFailureMessage
  rw [if_neg (by omega), if_pos hlong]
  dsimp only
  have hle := runeBoundary_le message
    (maximum.toNat - ((lit "...").take (min 3 maximum.toNat)).length)
  have hstart := runeStart_runeBoundary message
    (maximum.toNat - ((lit "...").take (min 3 maximum.toNat)).length)
  generalize runeBoundary message _ = cut at hle hstart ⊢
  obtain ⟨hfront, hback⟩ := hvalid.cut (by omega) hstart
  refine ⟨_, _, (take_append_drop cut message).symm, hfront, hback, ?_⟩
  rw [toValidUTF8_of_valid _ hfront]

end

/-! ## The texts of one RPC -/

theorem failureMessageLimit_pos (operations maximum : Int) :
    1 ≤ failureMessageLimit operations maximum := by
  simp only [failureMessageLimit, maxFailureMessageBytes]
  omega

theorem failureMessageLimit_total (n : Nat) (maximum : Int) :
    n * failureMessageLimit n maximum ≤ max (n : Int) (maximum - 128 * n) := by
  rcases Nat.eq_zero_or_pos n with rfl | hpos
  · simp
  have hone : max 1 (n : Int) = n := by omega
  have hshare : (n : Int) * (maximum / n) ≤ maximum := Int.mul_ediv_self_le (by omega)
  rw [failureMessageLimit, hone]
  generalize maximum / (n : Int) = share at hshare ⊢
  rcases Int.le_total (share - 128) 1 with hsmall | hlarge
  · rw [Int.max_eq_left hsmall, maxFailureMessageBytes, Int.min_eq_right (by decide)]
    omega
  have hle : (n : Int) * min maxFailureMessageBytes (max 1 (share - 128)) ≤ n * (share - 128) := by
    refine Int.mul_le_mul_of_nonneg_left ?_ (by omega)
    omega
  rw [Int.mul_sub] at hle
  omega

def textBytes (failure : Option Failure) : Nat :=
  (failure.map fun f => f.message.length).getD 0

/-- The bytes of the failure texts that one caller receives. -/
def callerTextBytes (budgets : Option RequestBudgets) (owner : Nat)
    (failures : List (Option Failure)) : Nat :=
  (((range failures.length).filter fun i => ownerOf budgets i == owner).map fun i =>
    textBytes (failures.getD i none)).sum

/-- The texts of a caller with `n` operations are within its limit, and no text
was lost. -/
structure TextsWithin (budgets : Option RequestBudgets) (maximum : Int)
    (failures bounded : List (Option Failure)) : Prop where
  total : ∀ owner (n : Nat),
    ((range failures.length).countP fun i => ownerOf budgets i == owner) = n →
      (callerTextBytes budgets owner bounded : Int) ≤ max (n : Int) (maximum - 128 * n)
  nonempty : ∀ (i : Nat) (f : Failure), failures[i]? = some (some f) → f.message ≠ [] →
    ∃ f' : Failure, bounded[i]? = some (some f') ∧ f'.message ≠ []

theorem textBytes_boundFailure {limit : Int} (hlimit : 1 ≤ limit) (failure : Option Failure) :
    (textBytes (boundFailure limit failure) : Int) ≤ limit := by
  cases failure with
  | none => exact Int.le_trans Int.one_nonneg hlimit
  | some f =>
    have hlength := boundedFailureMessage_length f.message limit
    show ((boundedFailureMessage f.message limit).length : Int) ≤ limit
    omega

theorem textsWithin_of_bound {budgets maximum failures bounded}
    (hlength : bounded.length = failures.length)
    (hbounded : ∀ i, bounded[i]? =
      failures[i]?.map (boundFailure (resultLimit budgets maximum failures.length i))) :
    TextsWithin budgets maximum failures bounded where
  total := by
    rintro owner n rfl
    refine Int.le_trans ?_ (failureMessageLimit_total _ maximum)
    generalize hlimit : failureMessageLimit _ maximum = limit
    have hpos : 1 ≤ limit := hlimit ▸ failureMessageLimit_pos _ maximum
    have htexts : ∀ bytes ∈ ((range bounded.length).filter fun i =>
        ownerOf budgets i == owner).map fun i => textBytes (bounded.getD i none),
        bytes ≤ limit.toNat := by
      intro bytes hbytes
      obtain ⟨i, hi, rfl⟩ := mem_map.mp hbytes
      obtain ⟨hrange, howner⟩ := mem_filter.mp hi
      obtain rfl : ownerOf budgets i = owner := eq_of_beq howner
      rw [mem_range, hlength] at hrange
      have hle := textBytes_boundFailure hpos failures[i]
      rw [getD_eq_getElem?_getD, hbounded, getElem?_eq_getElem hrange,
        Option.map_some, Option.getD_some, resultLimit, hlimit]
      omega
    have hsum := sum_le_card_nsmul _ _ htexts
    rw [length_map, ← countP_eq_length_filter, hlength, smul_eq_mul] at hsum
    rw [callerTextBytes, hlength, ← Int.toNat_of_nonneg (a := limit) (by omega)]
    exact_mod_cast hsum
  nonempty := by
    intro i f hf hne
    refine ⟨_, by rw [hbounded, hf]; rfl, ?_⟩
    exact boundedFailureMessage_ne_nil (failureMessageLimit_pos _ _) hne

/-- A failure text is bounded and valid UTF-8. A valid text is kept if it fits, and
cut between two runes otherwise. The texts of one RPC together are within its
limit, and none of them becomes empty. -/
theorem failure_texts_bounded :
    (∀ (message : GoString) (maximum : Int), 1 ≤ maximum →
      ValidUTF8 (boundedFailureMessage message maximum) ∧
      ((boundedFailureMessage message maximum).length : Int) ≤ maximum ∧
      (ValidUTF8 message → (message.length : Int) ≤ maximum →
        boundedFailureMessage message maximum = message) ∧
      (ValidUTF8 message → maximum < message.length →
        ∃ front back, message = front ++ back ∧ ValidUTF8 front ∧ ValidUTF8 back ∧
          boundedFailureMessage message maximum =
            front ++ (lit "...").take (min 3 maximum.toNat))) ∧
    ∀ (budgets : Option RequestBudgets) (maximum : Int),
      (∀ results : List WriteResult, TextsWithin budgets maximum (results.map (·.failure))
        ((boundWriteFailures budgets maximum results).map (·.failure))) ∧
      (∀ results : List DeleteResult, TextsWithin budgets maximum (results.map (·.failure))
        ((boundDeleteFailures budgets maximum results).map (·.failure))) ∧
      ∀ results : List ReadResult, TextsWithin budgets maximum (results.map (·.failure))
        ((boundReadFailures budgets maximum results).map (·.failure)) := by
  refine ⟨fun message maximum hmax => ⟨boundedFailureMessage_valid message maximum, ?_,
    boundedFailureMessage_fits, boundedFailureMessage_cut hmax⟩,
    fun budgets maximum => ⟨fun results => ?_, fun results => ?_, fun results => ?_⟩⟩
  · have hlength := boundedFailureMessage_length message maximum
    omega
  · exact textsWithin_of_bound (by simp [boundWriteFailures]) fun i => by
      simp [boundWriteFailures, comp_def]
  · exact textsWithin_of_bound (by simp [boundDeleteFailures]) fun i => by
      simp [boundDeleteFailures, comp_def]
  · exact textsWithin_of_bound (by simp [boundReadFailures]) fun i => by
      simp [boundReadFailures, comp_def]

/-- The limit falls into the second of four runes. -/
theorem failure_texts_bounded_runes :
    boundedFailureMessage (lit "aé€b") 5 = lit "a..." ∧
      ∃ front back, lit "aé€b" = front ++ back ∧ ValidUTF8 front ∧ ValidUTF8 back ∧
        boundedFailureMessage (lit "aé€b") 5 = front ++ lit "..." := by
  have hvalid : ValidUTF8 (lit "aé€b") :=
    .rune (r := [97]) (by simp) rfl (.rune (r := [195, 169]) (by simp) rfl
      (.rune (r := [226, 130, 172]) (by simp) rfl (.rune (r := [98]) (by simp) rfl .nil)))
  obtain ⟨-, -, -, hcut⟩ := failure_texts_bounded.1 (lit "aé€b") 5 (by decide)
  exact ⟨rfl, hcut hvalid (by decide)⟩

end Sink
