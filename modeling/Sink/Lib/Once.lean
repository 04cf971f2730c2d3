import Mathlib.Data.List.Basic

/-!
# Lists with one distinguished element

`Once P O l`: exactly one element of `l` is in focus (`P`), all others are
out of focus (`O`). A proof that follows one element through a program that
splits, filters and rejoins lists moves this predicate along.
-/

namespace Interact

open List

variable {α β : Type} {P O : α → Prop}

/-- One element satisfies `P`, all others satisfy `O`. -/
inductive Once (P O : α → Prop) : List α → Prop where
  | here {a : α} {l : List α} (ha : P a) (hl : ∀ b ∈ l, O b) : Once P O (a :: l)
  | there {a : α} {l : List α} (ha : O a) (hl : Once P O l) : Once P O (a :: l)

namespace Once

variable {l : List α} {O' : β → Prop} {q : α → Bool}

theorem of_mem (h : Once P O l) {a : α} (ha : a ∈ l) : P a ∨ O a := by
  induction h with
  | here hp hl =>
    rcases mem_cons.mp ha with rfl | ha
    · exact .inl hp
    · exact .inr (hl a ha)
  | there ho _ ih =>
    rcases mem_cons.mp ha with rfl | ha
    · exact .inr ho
    · exact ih ha

variable {l' : List α}

theorem append_left (h : Once P O l) (hl' : ∀ b ∈ l', O b) : Once P O (l ++ l') := by
  induction h with
  | here ha hl =>
    exact .here ha fun b hb => (mem_append.mp hb).elim (hl b) (hl' b)
  | there ha _ ih => exact .there ha ih

theorem append_right (hl : ∀ b ∈ l, O b) (h : Once P O l') : Once P O (l ++ l') := by
  induction l with
  | nil => exact h
  | cons a l ih =>
    exact .there (hl a mem_cons_self) (ih fun b hb => hl b (mem_cons_of_mem _ hb))

theorem of_append (h : Once P O (l ++ l')) :
    (Once P O l ∧ ∀ b ∈ l', O b) ∨ ((∀ b ∈ l, O b) ∧ Once P O l') := by
  induction l with
  | nil => exact .inr ⟨by simp, h⟩
  | cons a l ih =>
    cases h with
    | here ha hl =>
      exact .inl ⟨.here ha (forall_mem_append.mp hl).1, (forall_mem_append.mp hl).2⟩
    | there ha hl =>
      rcases ih hl with ⟨h, hl'⟩ | ⟨hl, h⟩
      · exact .inl ⟨.there ha h, hl'⟩
      refine .inr ⟨forall_mem_cons.mpr ⟨ha, hl⟩, h⟩

theorem of_take_drop (n : Nat) (h : Once P O l) :
    (Once P O (l.take n) ∧ ∀ b ∈ l.drop n, O b) ∨ ((∀ b ∈ l.take n, O b) ∧ Once P O (l.drop n)) :=
  of_append (by rwa [take_append_drop])

variable (h : Once P O l)

include h

/-- Pairing with answers: the focus gets one of them. -/
theorem zip {l' : List β} (hlen : l'.length = l.length) :
    ∃ b, Once (fun p => P p.1 ∧ p.2 = b) (fun p => O p.1) (l.zip l') := by
  induction h generalizing l' with
  | here ha hl =>
    cases l' with
    | nil => simp at hlen
    | cons b l' =>
      exact ⟨b, .here ⟨ha, rfl⟩ fun p hp => hl p.1 (of_mem_zip (a := p.1) (b := p.2) hp).1⟩
  | there ha _ ih =>
    cases l' with
    | nil => simp at hlen
    | cons b l' =>
      obtain ⟨b', h⟩ := ih (by simpa using hlen)
      exact ⟨b', .there ha h⟩

theorem map {P' : β → Prop} {f : α → β} (hP : ∀ a, P a → P' (f a)) (hO : ∀ a, O a → O' (f a)) :
    Once P' O' (l.map f) := by
  induction h with
  | here ha hl =>
    refine .here (hP _ ha) fun b hb => ?_
    obtain ⟨a, ha, rfl⟩ := mem_map.mp hb
    exact hO a (hl a ha)
  | there ha _ ih => exact .there (hO _ ha) ih

/-- Filtering keeps the focus or leaves only other elements. -/
theorem filterMap {P' f} (hP : ∀ a, P a → ∃ b, f a = some b ∧ P' b)
    (hO : ∀ a b, O a → f a = some b → O' b) : Once P' O' (l.filterMap f) := by
  induction h with
  | here ha hl =>
    obtain ⟨b, hb, hPb⟩ := hP _ ha
    rw [filterMap_cons_some hb]
    refine .here hPb fun b' hb' => ?_
    obtain ⟨a, hmem, hfa⟩ := mem_filterMap.mp hb'
    exact hO a b' (hl a hmem) hfa
  | @there a l ha _ ih =>
    cases hfa : f a with
    | none => rwa [filterMap_cons_none hfa]
    | some b =>
      rw [filterMap_cons_some hfa]
      exact .there (hO a b ha hfa) ih

theorem filterMap_others {f : α → Option β} (hP : ∀ a, P a → f a = none)
    (hO : ∀ a b, O a → f a = some b → O' b) : ∀ b ∈ l.filterMap f, O' b := by
  intro b hb
  obtain ⟨a, ha, hfa⟩ := mem_filterMap.mp hb
  rcases h.of_mem ha with hPa | hOa
  · rw [hP a hPa] at hfa
    cases hfa
  · exact hO a b hOa hfa

theorem filter_of_pos (hq : ∀ a, P a → q a = true) : Once P O (l.filter q) := by
  induction h with
  | here ha hl =>
    rw [filter_cons_of_pos (hq _ ha)]
    exact .here ha fun b hb => hl b (mem_of_mem_filter hb)
  | @there a l ha _ ih =>
    by_cases hqa : q a = true
    · rw [filter_cons_of_pos hqa]
      exact .there ha ih
    · rwa [filter_cons_of_neg hqa]

theorem filter_of_neg (hq : ∀ a, P a → q a = false) : ∀ b ∈ l.filter q, O b := by
  induction h with
  | here ha hl =>
    intro b hb
    rw [filter_cons_of_neg (by simp [hq _ ha])] at hb
    exact hl b (mem_of_mem_filter hb)
  | @there a l ha _ ih =>
    intro b hb
    obtain ⟨hmem, hqb⟩ := mem_filter.mp hb
    rcases mem_cons.mp hmem with rfl | hmem
    · exact ha
    · exact ih b (mem_filter.mpr ⟨hmem, hqb⟩)

/-- The focused element is found by any test that tells it from the others. -/
theorem find? (hP : ∀ a, P a → q a = true) (hO : ∀ a, O a → q a = false) :
    ∃ a, P a ∧ l.find? q = some a := by
  induction h with
  | @here a l ha _ => exact ⟨a, ha, by rw [find?_cons_of_pos (hP a ha)]⟩
  | @there a l ha _ ih =>
    obtain ⟨b, hb, hfind⟩ := ih
    exact ⟨b, hb, by rw [find?_cons_of_neg (by simp [hO a ha]), hfind]⟩

end Once

end Interact
