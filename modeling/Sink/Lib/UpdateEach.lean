import Mathlib.Logic.Function.Basic

/-!
# Rewriting a map at the keys of a list

`updateEach key f l m` visits the elements of `l` in order and replaces the
value at each element's key. With distinct keys every element sees the
original value, so the result can be read off pointwise.

`weave` merges the updates of several workers under an arbitrary schedule.
It permutes them, which distinct keys do not notice.
-/

namespace Interact

open Function List

variable {α κ β : Type} [DecidableEq κ]

/-- Replace the value at `key a` by `f a`, for each `a` of the list in order. -/
def updateEach (key : α → κ) (f : α → β → β) : List α → (κ → β) → κ → β
  | [], m => m
  | a :: l, m => updateEach key f l (update m (key a) (f a (m (key a))))

variable {key : α → κ} {f : α → β → β} {l : List α} {m : κ → β} {k : κ}

theorem updateEach_of_notMem (hk : ∀ a ∈ l, key a ≠ k) : updateEach key f l m k = m k := by
  induction l generalizing m with
  | nil => rfl
  | cons a l ih =>
    rw [updateEach, ih (forall_mem_cons.mp hk).2, update_of_ne (hk a mem_cons_self).symm]

theorem updateEach_of_mem (hnd : (l.map key).Nodup) {a : α} (ha : a ∈ l) :
    updateEach key f l m (key a) = f a (m (key a)) := by
  induction l generalizing m with
  | nil => cases ha
  | cons b l ih =>
    obtain ⟨hb, hnd⟩ := nodup_cons.mp hnd
    rcases mem_cons.mp ha with rfl | ha
    · have hne : ∀ c ∈ l, key c ≠ key a := fun c hc h => hb (mem_map.mpr ⟨c, hc, h⟩)
      rw [updateEach, updateEach_of_notMem hne, update_self]
    · have hne : key a ≠ key b := fun h => hb (mem_map.mpr ⟨a, ha, h⟩)
      rw [updateEach, ih hnd ha, update_of_ne hne]

theorem updateEach_congr (l : List α) {m' : κ → β} (h : m k = m' k) :
    updateEach key f l m k = updateEach key f l m' k := by
  induction l generalizing m m' with
  | nil => exact h
  | cons a l ih =>
    refine ih ?_
    by_cases hk : k = key a
    · subst hk
      simp only [update_self, h]
    · simp only [update_of_ne hk, h]

/-- A property of one value that every replacement keeps. -/
theorem updateEach_preserves {P : β → Prop} (hf : ∀ a b, P b → P (f a b)) (l : List α)
    (h : P (m k)) : P (updateEach key f l m k) := by
  induction l generalizing m with
  | nil => exact h
  | cons a l ih =>
    refine ih ?_
    by_cases hk : k = key a
    · subst hk
      rw [update_self]
      exact hf a _ h
    · rwa [update_of_ne hk]

/-- The value at a visited key is a replacement, however often it was replaced. -/
theorem updateEach_visited {g : β → β} {a : α} (ha : a ∈ l) (m : κ → β) :
    ∃ b, updateEach key (fun _ => g) l m (key a) = g b := by
  induction l generalizing m with
  | nil => cases ha
  | cons c l ih =>
    by_cases hlater : a ∈ l
    · exact ih hlater _
    obtain rfl : a = c := (mem_cons.mp ha).resolve_right hlater
    have hvalue : ∃ b, update m (key a) (g (m (key a))) (key a) = g b :=
      ⟨m (key a), update_self ..⟩
    refine updateEach_preserves (P := fun v => ∃ b, v = g b) ?_ l hvalue
    exact fun _ b _ => ⟨b, rfl⟩

/-! ## Several workers -/

/-- What several workers do when the schedule says whose turn it is; a turn of
a worker that is done is lost, and after the schedule they finish in order. -/
def weave : List Nat → List (List α) → List α
  | [], work => work.flatten
  | k :: schedule, work =>
    match work[k]? with
    | some (a :: rest) => a :: weave schedule (work.set k rest)
    | _ => weave schedule work

theorem flatten_set_perm {work : List (List α)} {k : Nat} {a : α} {rest : List α}
    (h : work[k]? = some (a :: rest)) : work.flatten.Perm (a :: (work.set k rest).flatten) := by
  induction work generalizing k with
  | nil => simp at h
  | cons first work ih =>
    cases k with
    | zero =>
      obtain rfl : first = a :: rest := by simpa using h
      exact Perm.refl _
    | succ k =>
      have hperm := ih (by simpa using h)
      exact (hperm.append_left first).trans perm_middle

theorem weave_perm (schedule : List Nat) (work : List (List α)) :
    (weave schedule work).Perm work.flatten := by
  induction schedule generalizing work with
  | nil => exact Perm.refl _
  | cons k schedule ih =>
    unfold weave
    split
    · rename_i hk
      exact ((ih _).cons _).trans (flatten_set_perm hk).symm
    · exact ih work

end Interact
