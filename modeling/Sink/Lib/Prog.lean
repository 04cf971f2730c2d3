import Mathlib.Logic.Relation

/-!
# Interaction programs

A sequential program that talks to an outside world it does not control.
`Prog C R α` issues calls `c : C`, is resumed with an answer of type
`R c`, and ends in an `α`. Nothing about the world is built in: a store,
a cancelled context, a memory pool are all just calls.

Three readings of one program are used:

- `Prog.run` answers every call with a handler and computes the result;
- `Prog.Runs` is the relation "some sequence of admissible answers makes
  the program end like this", for an adversarial world;
- `Prog.wp` is the weakest precondition with respect to a `World`, which
  also states what must hold whenever a call is *issued*.

`wp_sound` connects the last two, `run_runs` the first two. A loop whose
bound is not structural is written with fuel and ends in `diverge` when
the fuel is used up; `diverge` has no run, so a statement about runs
speaks about terminating executions only. A world says whether it puts up
with that: `wp` in a world that does not is total correctness.
-/

namespace Interact

/-- A program over calls `C`; the call `c` is answered by an `R c`. -/
inductive Prog (C : Type) (R : C → Type) (α : Type) where
  | ret (a : α)
  | call (c : C) (k : R c → Prog C R α)
  | diverge

/-- How a world of states `W` reacts: which calls may be issued in a state,
and which answers (with which next state) a call can get. `mayDiverge` says
whether a program may run out of fuel in it. -/
structure World (C : Type) (R : C → Type) (W : Type) where
  allowed : W → C → Prop
  answer : W → (c : C) → R c → W → Prop
  mayDiverge : Prop

variable {C : Type} {R : C → Type} {W : Type} {α β γ : Type} {Q : α → W → Prop} {w : W}
  {handler : W → (c : C) → R c × W} {spec : W → C → Prop}

namespace Prog

def bind : Prog C R α → (α → Prog C R β) → Prog C R β
  | .ret a, f => f a
  | .call c k, f => .call c fun r => (k r).bind f
  | .diverge, _ => .diverge

@[simp] theorem call_bind (c : C) (k : R c → Prog C R α) (f : α → Prog C R β) :
    (call c k).bind f = call c fun r => (k r).bind f := rfl

/-! ## Weakest preconditions -/

/-- Every call issued is allowed and every terminating execution ends in `Q`. -/
def wp (M : World C R W) (Q : α → W → Prop) : Prog C R α → W → Prop
  | .ret a, w => Q a w
  | .call c k, w => M.allowed w c ∧ ∀ r w', M.answer w c r w' → wp M Q (k r) w'
  | .diverge, _ => M.mayDiverge

theorem wp_call (M : World C R W) (Q : α → W → Prop) (c : C) (k : R c → Prog C R α) (w : W) :
    wp M Q (call c k) w ↔ M.allowed w c ∧ ∀ r w', M.answer w c r w' → wp M Q (k r) w' :=
  Iff.rfl

variable {M : World C R W}

theorem wp_mono {Q' : α → W → Prop} (hQ : ∀ a w, Q a w → Q' a w) :
    ∀ {p : Prog C R α} {w : W}, wp M Q p w → wp M Q' p w
  | .ret a, w, h => hQ a w h
  | .call _ _, _, ⟨hc, hk⟩ => ⟨hc, fun r w' hr => wp_mono hQ (hk r w' hr)⟩
  | .diverge, _, h => h

theorem wp_bind (M : World C R W) (Q : β → W → Prop) :
    ∀ (p : Prog C R α) (f : α → Prog C R β) (w : W),
      wp M Q (p.bind f) w ↔ wp M (fun a w => wp M Q (f a) w) p w
  | .ret _, _, _ => Iff.rfl
  | .call c k, f, w => by
    simp only [call_bind, wp_call]
    exact and_congr_right fun _ =>
      forall_congr' fun r => forall_congr' fun w' => imp_congr_right fun _ =>
        wp_bind M Q (k r) f w'
  | .diverge, _, _ => Iff.rfl

/-! ## Terminating executions -/

/-- `Runs M p w a w'`: some admissible answers make `p` end in `a`, leaving
the world in `w'`. -/
inductive Runs (M : World C R W) : Prog C R α → W → α → W → Prop where
  | ret (a : α) (w : W) : Runs M (.ret a) w a w
  | call {c : C} {k : R c → Prog C R α} {w w' w'' : W} {r : R c} {a : α}
      (hr : M.answer w c r w') (hk : Runs M (k r) w' a w'') : Runs M (.call c k) w a w''

theorem wp_sound {p : Prog C R α} {w' : W} {a : α} (hrun : Runs M p w a w') (h : wp M Q p w) :
    Q a w' := by
  induction hrun with
  | ret => exact h
  | call hr _ ih => exact ih (h.2 _ _ hr)

/-! ## Computing with a handler -/

/-- Answer every call with `handler`; `none` when the program diverges. -/
def run (handler : W → (c : C) → R c × W) : Prog C R α → W → Option (α × W)
  | .ret a, w => some (a, w)
  | .call c k, w => run handler (k (handler w c).1) (handler w c).2
  | .diverge, _ => none

theorem run_bind (handler : W → (c : C) → R c × W) :
    ∀ (p : Prog C R α) (f : α → Prog C R β) (w : W),
      run handler (p.bind f) w = (run handler p w).bind fun aw => run handler (f aw.1) aw.2
  | .ret _, _, _ => rfl
  | .call c k, f, w => run_bind handler (k (handler w c).1) f (handler w c).2
  | .diverge, _, _ => rfl

/-- A computed execution is an execution of every world that admits the
handler's answers. -/
theorem run_runs (hM : ∀ w c, M.answer w c (handler w c).1 (handler w c).2) :
    ∀ {p : Prog C R α} {w w' : W} {a : α}, run handler p w = some (a, w') → Runs M p w a w'
  | .ret _, _, _, _, h => by
    cases h
    exact .ret _ _
  | .call _ _, _, _, _, h => .call (hM _ _) (run_runs hM h)
  | .diverge, _, _, _, h => nomatch h

end Prog

/-! ## Observers

An observer answers anything and only keeps a record of what it saw. -/

/-- The world that answers anything and updates its record by `step`; `spec`
is what the record must satisfy when a call is issued. -/
def observer (step : W → (c : C) → R c → W) (spec : W → C → Prop) : World C R W where
  allowed := spec
  answer w c r w' := w' = step w c r
  mayDiverge := True

variable {step : W → (c : C) → R c → W}

theorem wp_call_observer {c : C} {k : R c → Prog C R α} :
    Prog.wp (observer step spec) Q (.call c k) w ↔
      spec w c ∧ ∀ r, Prog.wp (observer step spec) Q (k r) (step w c r) := by
  simp [Prog.wp_call, observer]

/-- One answered call. -/
structure Event (C : Type) (R : C → Type) where
  call : C
  reply : R call

/-- The observer that keeps everything, newest event first. -/
abbrev logWorld (spec : List (Event C R) → C → Prop) : World C R (List (Event C R)) :=
  observer (fun h c r => ⟨c, r⟩ :: h) spec

/-- The log world without an obligation on issued calls. -/
abbrev anyLog (C : Type) (R : C → Type) : World C R (List (Event C R)) :=
  logWorld fun _ _ => True

/-- What an observer starting from `w` makes of a log. -/
def observe (step : W → (c : C) → R c → W) (w : W) : List (Event C R) → W
  | [] => w
  | e :: h => step (observe step w h) e.call e.reply

/-- A fact about what an observer sees is a fact about the log. -/
theorem wp_log_of_observer (w : W) :
    ∀ {p h}, Prog.wp (observer step spec) Q p (observe step w h) →
        Prog.wp (logWorld fun h c => spec (observe step w h) c)
          (fun a h => Q a (observe step w h)) p h
  | .ret _, _, hp => hp
  | .call c k, h, hp => by
    rw [wp_call_observer] at hp ⊢
    exact ⟨hp.1, fun r => wp_log_of_observer w (hp.2 r)⟩
  | .diverge, _, _ => trivial

/-- The observer that keeps nothing. -/
def blind (C : Type) (R : C → Type) : World C R Unit := observer (fun _ _ _ => ()) fun _ _ => True

/-- What holds whatever is observed holds beside what an observer sees. -/
theorem wp_and_blind {Q' : α → Unit → Prop} :
    ∀ {p : Prog C R α} {w : W},
      Prog.wp (observer step spec) Q p w → Prog.wp (blind C R) Q' p () →
        Prog.wp (observer step spec) (fun a w => Q a w ∧ Q' a ()) p w
  | .ret _, _, hp, hp' => ⟨hp, hp'⟩
  | .call c k, w, hp, hp' => by
    rw [blind, wp_call_observer] at hp'
    rw [wp_call_observer] at hp ⊢
    exact ⟨hp.1, fun r => wp_and_blind (hp.2 r) (hp'.2 r)⟩
  | .diverge, _, _, _ => trivial

/-- What holds whatever is observed holds for every observer. -/
theorem wp_of_blind {Q : α → Prop} :
    ∀ {p : Prog C R α} (w : W), Prog.wp (blind C R) (fun a _ => Q a) p () →
      Prog.wp (observer step fun _ _ => True) (fun a _ => Q a) p w
  | .ret _, _, hp => hp
  | .call c k, w, hp => by
    rw [blind, wp_call_observer] at hp
    rw [wp_call_observer]
    exact ⟨trivial, fun r => wp_of_blind _ (hp.2 r)⟩
  | .diverge, _, _ => trivial

theorem Prog.runs_log_of_run :
    ∀ {p : Prog C R α} {w w' : W} {a : α}, run handler p w = some (a, w') →
      ∀ log : List (Event C R), ∃ log', Runs (anyLog C R) p log a log'
  | .ret _, _, _, _, h, log => by
    cases h
    exact ⟨log, .ret _ _⟩
  | .call c k, w, _, _, h, log => by
    obtain ⟨log', hrun⟩ := runs_log_of_run (p := k (handler w c).1) h (⟨c, (handler w c).1⟩ :: log)
    exact ⟨log', .call rfl hrun⟩
  | .diverge, _, _, _, h, _ => nomatch h

end Interact
