import Sink.Convert

/-!
# Failure texts are stable

A bounded failure text is valid UTF-8 within its limit, and a valid text within
the limit is not changed. So a result may pass the bound on its way through the
server's response and again when it is handed to its caller.
-/

namespace Sink

open List

/-- Well-formed runes one after another. -/
inductive ValidUTF8 : GoString → Prop where
  | nil : ValidUTF8 []
  | rune {r rest : GoString} (hne : r ≠ []) (hw : runeWidth r = r.length)
      (hrest : ValidUTF8 rest) : ValidUTF8 (r ++ rest)

theorem ValidUTF8.append {s t : GoString} (hs : ValidUTF8 s) (ht : ValidUTF8 t) :
    ValidUTF8 (s ++ t) := by
  induction hs with
  | nil => exact ht
  | rune hne hw _ ih =>
    rw [append_assoc]
    exact .rune hne hw ih

/-! ## Runes -/

theorem runeWidth_le (s : GoString) : runeWidth s ≤ s.length := by
  rcases s with _ | ⟨b, _ | ⟨c, _ | ⟨d, _ | ⟨e, rest⟩⟩⟩⟩
  all_goals
    simp only [runeWidth, length_cons, length_nil]
    repeat' split
    all_goals omega

variable {s : GoString}

theorem runeWidth_append (h : runeWidth s ≠ 0) (t : GoString) :
    runeWidth (s ++ t) = runeWidth s := by
  rcases s with _ | ⟨b, _ | ⟨c, _ | ⟨d, _ | ⟨e, rest⟩⟩⟩⟩
  · exact absurd rfl h
  all_goals
    simp only [runeWidth, cons_append, nil_append] at h ⊢ <;> grind

theorem runeWidth_take (s : GoString) : runeWidth (s.take (runeWidth s)) = runeWidth s := by
  rcases s with _ | ⟨b, _ | ⟨c, _ | ⟨d, _ | ⟨e, rest⟩⟩⟩⟩
  all_goals
    grind [runeWidth]

/-! ## Replacing invalid bytes -/

variable (replacement : GoString)

theorem toValidUTF8From_pending (n : Nat) (invalid : Bool)
    (s : GoString) : toValidUTF8From replacement (n + 1) invalid s =
      s.take (n + 1) ++ toValidUTF8From replacement 0 false (s.drop (n + 1)) := by
  induction s generalizing n invalid with
  | nil => simp [toValidUTF8From]
  | cons b rest ih =>
    cases n with
    | zero => simp [toValidUTF8From]
    | succ n => simp [toValidUTF8From, ih n false]

/-- A rune at the head is kept and the rest is treated on its own. -/
theorem toValidUTF8From_rune (h : runeWidth s ≠ 0) (invalid : Bool) :
    toValidUTF8From replacement 0 invalid s =
      s.take (runeWidth s) ++ toValidUTF8From replacement 0 false (s.drop (runeWidth s)) := by
  cases s with
  | nil => exact absurd rfl h
  | cons b rest =>
    obtain ⟨n, hn⟩ := Nat.exists_eq_succ_of_ne_zero h
    simp only [toValidUTF8From, hn, Nat.succ_eq_add_one, take_succ_cons, drop_succ_cons,
      cons_append, cons.injEq, true_and]
    cases n with
    | zero => simp
    | succ n => exact toValidUTF8From_pending replacement n false rest

/-- A byte that starts no rune is dropped, after one replacement for its run. -/
theorem toValidUTF8From_invalid {b : UInt8} {rest : GoString}
    (h : runeWidth (b :: rest) = 0) (invalid : Bool) :
    toValidUTF8From replacement 0 invalid (b :: rest) =
      (if invalid then [] else replacement) ++ toValidUTF8From replacement 0 true rest := by
  simp only [toValidUTF8From, h]

theorem toValidUTF8From_append {r : GoString} (hne : r ≠ [])
    (hw : runeWidth r = r.length) (rest : GoString) (invalid : Bool) :
    toValidUTF8From replacement 0 invalid (r ++ rest) =
      r ++ toValidUTF8From replacement 0 false rest := by
  have hpos : 0 < r.length := length_pos_iff.mpr hne
  have hwidth : runeWidth (r ++ rest) = r.length := by
    rw [runeWidth_append (by omega), hw]
  rw [toValidUTF8From_rune replacement (by omega), hwidth, take_left, drop_left]

/-- Induction over a text as a decoder reads it: an invalid byte or a rune at
a time. -/
theorem rune_induction {motive : GoString → Prop} (hnil : motive [])
    (hinvalid : ∀ b rest, runeWidth (b :: rest) = 0 → motive rest → motive (b :: rest))
    (hrune : ∀ r rest, r ≠ [] → runeWidth r = r.length → motive rest → motive (r ++ rest))
    (s : GoString) : motive s := by
  induction hn : s.length using Nat.strongRecOn generalizing s with
  | ind n ih =>
    rcases s with _ | ⟨b, rest⟩
    · exact hnil
    by_cases h : runeWidth (b :: rest) = 0
    · exact hinvalid b rest h (ih rest.length (by simp [← hn]) rest rfl)
    have hle := runeWidth_le (b :: rest)
    have hlen : ((b :: rest).take (runeWidth (b :: rest))).length = runeWidth (b :: rest) :=
      length_take_of_le hle
    have hdrop := length_drop (i := runeWidth (b :: rest)) (l := b :: rest)
    rw [← take_append_drop (runeWidth (b :: rest)) (b :: rest)]
    refine hrune _ _ ?_ ?_ (ih _ ?_ _ rfl)
    · intro hempty
      rw [hempty] at hlen
      exact h hlen.symm
    · rw [runeWidth_take, hlen]
    · omega

variable {replacement : GoString}

theorem toValidUTF8From_valid (hrep : ValidUTF8 replacement) (invalid : Bool) (s : GoString) :
    ValidUTF8 (toValidUTF8From replacement 0 invalid s) := by
  induction s using rune_induction generalizing invalid with
  | hnil => exact .nil
  | hinvalid b rest h ih =>
    rw [toValidUTF8From_invalid replacement h]
    cases invalid with
    | true => exact ih true
    | false => exact hrep.append (ih true)
  | hrune r rest hne hw ih =>
    rw [toValidUTF8From_append replacement hne hw]
    exact .rune hne hw (ih false)

theorem toValidUTF8From_length (hrep : replacement.length ≤ 1) (invalid : Bool) (s : GoString) :
    (toValidUTF8From replacement 0 invalid s).length ≤ s.length := by
  induction s using rune_induction generalizing invalid with
  | hnil => simp [toValidUTF8From]
  | hinvalid b rest h ih =>
    rw [toValidUTF8From_invalid replacement h, length_append, length_cons]
    have hone : (if invalid then [] else replacement).length ≤ 1 := by
      cases invalid <;> simp [hrep]
    have hrest := ih true
    omega
  | hrune r rest hne hw ih =>
    rw [toValidUTF8From_append replacement hne hw, length_append, length_append]
    have hrest := ih false
    omega

theorem toValidUTF8_of_valid (replacement : GoString) (hs : ValidUTF8 s) :
    toValidUTF8 s replacement = s := by
  unfold toValidUTF8
  induction hs with
  | nil => rfl
  | rune hne hw _ ih => rw [toValidUTF8From_append replacement hne hw, ih]

/-! ## Bounded texts -/

theorem runeBoundary_le (message : GoString) (limit : Nat) :
    runeBoundary message limit ≤ limit := by
  induction limit with
  | zero => exact Nat.le_refl 0
  | succ limit ih =>
    unfold runeBoundary
    split <;> omega

theorem validUTF8_dots (n : Nat) : ValidUTF8 ((lit "...").take n) := by
  have hdot : ∀ k, ValidUTF8 (replicate k 46) := by
    intro k
    induction k with
    | zero => exact .nil
    | succ k ih => exact .rune (r := [46]) (by simp) rfl ih
  have hlit : lit "..." = replicate 3 46 := rfl
  rw [hlit, take_replicate]
  exact hdot _

theorem validUTF8_question : ValidUTF8 (lit "?") :=
  .rune (r := [63]) (by simp) rfl .nil

theorem boundedFailureMessage_valid (message : GoString) (maximum : Int) :
    ValidUTF8 (boundedFailureMessage message maximum) := by
  unfold boundedFailureMessage
  split
  · exact .nil
  split
  · exact (toValidUTF8From_valid validUTF8_question _ _).append (validUTF8_dots _)
  · exact toValidUTF8From_valid validUTF8_question _ _

theorem boundedFailureMessage_length (message : GoString) (maximum : Int) :
    ((boundedFailureMessage message maximum).length : Int) ≤ max 0 maximum := by
  have hrep : (lit "?").length ≤ 1 := Nat.le_refl 1
  unfold boundedFailureMessage
  split
  · exact Int.le_max_left 0 maximum
  dsimp only
  split
  · have hdots : ((lit "...").take (min 3 maximum.toNat)).length ≤ maximum.toNat := by
      rw [length_take]
      omega
    generalize (lit "...").take (min 3 maximum.toNat) = suffix at hdots ⊢
    have hend := runeBoundary_le message (maximum.toNat - suffix.length)
    generalize runeBoundary message (maximum.toNat - suffix.length) = cut at hend ⊢
    have htake := length_take_le cut message
    have hcut := toValidUTF8From_length hrep false (message.take cut)
    rw [length_append]
    unfold toValidUTF8
    omega
  · have hcut := toValidUTF8From_length hrep false message
    unfold toValidUTF8
    omega

theorem boundedFailureMessage_fits {message : GoString} {maximum : Int}
    (hvalid : ValidUTF8 message) (hfits : (message.length : Int) ≤ maximum) :
    boundedFailureMessage message maximum = message := by
  unfold boundedFailureMessage
  split
  · have hnil : message.length = 0 := by omega
    exact (length_eq_zero_iff.mp hnil).symm
  · rw [if_neg (by omega)]
    exact toValidUTF8_of_valid _ hvalid

end Sink
