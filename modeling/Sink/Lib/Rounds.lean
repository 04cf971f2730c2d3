import Mathlib.Data.List.Perm.Subperm

/-!
# Work in rounds

A list of pending items is worked off in rounds. A round takes a batch from
the front, settles some items of it and puts the others back at the front. If
every round settles something, the work ends; here is what follows for the
items from the shape of the rounds alone.

Items are counted with their multiplicity, so the statements are permutations.
-/

namespace Worklist

open List

variable {α : Type}

structure Round (α : Type) where
  batch : List α
  settled : List α
  back : List α

/-- The rounds lead from the pending items to those that are left. -/
inductive Rounds : List α → List (Round α) → List α → Prop where
  | nil (pending : List α) : Rounds pending [] pending
  | cons {c : Round α} {rest left : List α} {rounds : List (Round α)} (hsome : c.settled ≠ [])
      (hsplit : (c.settled ++ c.back).Perm c.batch) (h : Rounds (c.back ++ rest) rounds left) :
      Rounds (c.batch ++ rest) (c :: rounds) left

namespace Rounds

variable {pending left : List α} {rounds : List (Round α)}

section

variable (h : Rounds pending rounds left)

include h

theorem split : ∀ c ∈ rounds, c.settled ≠ [] ∧ (c.settled ++ c.back).Perm c.batch := by
  induction h with
  | nil pending => simp
  | cons hsome hsplit _ ih =>
    exact forall_mem_cons.mpr ⟨⟨hsome, hsplit⟩, ih⟩

omit h in
theorem pending_perm {c : Round α} (hsplit : (c.settled ++ c.back).Perm c.batch)
    (rest : List α) : (c.settled ++ (c.back ++ rest)).Perm (c.batch ++ rest) := by
  rw [← append_assoc]
  exact hsplit.append_right rest

theorem batch_fresh :
    ∀ before c after, rounds = before ++ c :: after →
      ∃ later, (before.flatMap (·.settled) ++ c.batch ++ later).Perm pending := by
  induction h with
  | nil pending => simp
  | @cons c rest left rounds _ hsplit _ ih =>
    intro before c' after heq
    cases before with
    | nil =>
      obtain ⟨rfl, -⟩ := cons.inj heq
      exact ⟨rest, .refl _⟩
    | cons b before =>
      obtain ⟨rfl, hrest⟩ := cons.inj heq
      obtain ⟨later, hlater⟩ := ih before c' after hrest
      refine ⟨later, ?_⟩
      have hall := (hlater.append_left c.settled).trans (pending_perm hsplit rest)
      simpa only [flatMap_cons, append_assoc] using hall

theorem pending_subperm : pending.Subperm (rounds.flatMap (·.batch) ++ left) := by
  induction h with
  | nil pending => exact .refl _
  | @cons c rest left rounds _ _ _ ih =>
    rw [flatMap_cons, append_assoc]
    refine (subperm_append_left c.batch).mpr ?_
    exact (sublist_append_right c.back rest).subperm.trans ih

/-- What a round puts back is taken again later, or is left. -/
theorem back_subperm :
    ∀ before c after, rounds = before ++ c :: after →
      c.back.Subperm (after.flatMap (·.batch) ++ left) := by
  induction h with
  | nil pending => simp
  | @cons c rest left rounds _ _ hrest ih =>
    intro before c' after heq
    cases before with
    | nil =>
      obtain ⟨rfl, rfl⟩ := cons.inj heq
      exact (sublist_append_left c.back rest).subperm.trans hrest.pending_subperm
    | cons b before =>
      obtain ⟨-, hafter⟩ := cons.inj heq
      exact ih before c' after hafter

end

end Rounds

end Worklist
