import Mathlib.Logic.Relation

/-!
# Machines

A machine is a function `step : σ → ι → Option σ`: what each action does to a
state, `none` where the action is not possible. A run is a list of actions;
interleavings of several parties are runs whose actions name the party.

The two induction rules are all that is used of runs: what every step keeps,
a run keeps, and a preorder every step moves along relates both ends of a run.
-/

namespace Machine

variable {σ ι : Type}

/-- Perform the actions, oldest first. -/
def run (step : σ → ι → Option σ) : σ → List ι → Option σ
  | s, [] => some s
  | s, a :: as => (step s a).bind fun s' => run step s' as

variable {step : σ → ι → Option σ} {s' : σ} {as : List ι}

@[simp] theorem run_nil (s : σ) : run step s [] = some s := rfl

variable {s : σ}

theorem run_cons {a : ι} :
    run step s (a :: as) = some s' ↔ ∃ s₁, step s a = some s₁ ∧ run step s₁ as = some s' :=
  Option.bind_eq_some_iff

theorem run_append {bs : List ι} :
    run step s (as ++ bs) = some s' ↔ ∃ s₁, run step s as = some s₁ ∧ run step s₁ bs = some s' := by
  induction as generalizing s with
  | nil => simp
  | cons a as ih =>
    simp only [List.cons_append, run_cons, ih]
    constructor
    · rintro ⟨s₁, h₁, s₂, h₂, h₃⟩
      exact ⟨s₂, ⟨s₁, h₁, h₂⟩, h₃⟩
    · rintro ⟨s₂, ⟨s₁, h₁, h₂⟩, h₃⟩
      exact ⟨s₁, h₁, s₂, h₂, h₃⟩

/-- An invariant of runs whose actions all satisfy `P`. -/
theorem run_invariant_of {I : σ → Prop} {P : ι → Prop}
    (hstep : ∀ s a s', P a → I s → step s a = some s' → I s') (has : ∀ a ∈ as, P a) (hs : I s)
    (hrun : run step s as = some s') : I s' := by
  induction as generalizing s with
  | nil => exact Option.some.inj hrun ▸ hs
  | cons a as ih =>
    obtain ⟨s₁, h₁, hrest⟩ := run_cons.mp hrun
    exact ih (List.forall_mem_cons.mp has).2 (hstep s a s₁ (has a List.mem_cons_self) hs h₁) hrest

theorem run_invariant {I : σ → Prop} (hstep : ∀ s a s', I s → step s a = some s' → I s')
    (hs : I s) (hrun : run step s as = some s') : I s' :=
  run_invariant_of (P := fun _ => True) (fun s a s' _ => hstep s a s') (fun _ _ => trivial) hs hrun

end Machine
