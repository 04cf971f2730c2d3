import Sink.Lib.Prog

/-!
# Imperative interaction programs

`Exec C R σ ε α` is an interaction program with mutable state `σ` that
either returns an `α` or stops with an error `ε`. The state survives an
error: it is the memory of the process, not a transaction.

`Exec.wp` lifts the weakest precondition of the underlying program. Its
postcondition sees the outcome (`Except ε α`), the final state and the
world, so the same triple speaks about normal and failing exits.
-/

namespace Interact

open Option

/-- Programs with state `σ` and errors `ε`. -/
def Exec (C : Type) (R : C → Type) (σ ε α : Type) : Type :=
  σ → Prog C R (Except ε α × σ)

variable {C : Type} {R : C → Type} {W σ ε : Type} {α β : Type}

namespace Exec

variable {Q : Except ε α → σ → W → Prop} {x : Exec C R σ ε α} {s : σ} {spec : W → C → Prop}
  {r : Except ε α}

def pure (a : α) : Exec C R σ ε α := fun s => .ret (.ok a, s)

def bind (x : Exec C R σ ε α) (f : α → Exec C R σ ε β) : Exec C R σ ε β := fun s =>
  (x s).bind fun
    | (.ok a, s') => f a s'
    | (.error e, s') => .ret (.error e, s')

instance : Monad (Exec C R σ ε) where
  pure := Exec.pure
  bind := Exec.bind

/-- Stop with an error. -/
def fail (e : ε) : Exec C R σ ε α := fun s => .ret (.error e, s)

def get : Exec C R σ ε σ := fun s => .ret (.ok s, s)

def modify (f : σ → σ) : Exec C R σ ε Unit := fun s => .ret (.ok (), f s)

/-- Issue a call and return its answer. -/
def call (c : C) : Exec C R σ ε (R c) := fun s => .call c fun r => .ret (.ok r, s)

/-- The fuel of an unbounded loop is used up. -/
def diverge : Exec C R σ ε α := fun _ => .diverge

/-- The outcome is a value satisfying `P` or an error satisfying `E`. -/
def Ends (P : α → Prop) (E : ε → Prop) : Except ε α → Prop
  | .ok a => P a
  | .error e => E e

@[simp] theorem ends_ok (P : α → Prop) (E : ε → Prop) (a : α) : Ends P E (.ok a) ↔ P a := Iff.rfl

theorem Ends.mono {P P' : α → Prop} {E E' : ε → Prop} (h : Ends P E r) (hP : ∀ a, P a → P' a)
    (hE : ∀ e, E e → E' e) : Ends P' E' r := by
  cases r with
  | ok a => exact hP a h
  | error e => exact hE e h

/-! ## Weakest preconditions -/

/-- Weakest precondition of an imperative program. -/
def wp (M : World C R W) (Q : Except ε α → σ → W → Prop) (x : Exec C R σ ε α)
    (s : σ) (w : W) : Prop :=
  Prog.wp M (fun r w => Q r.1 r.2 w) (x s) w

variable {M : World C R W} {Q' : Except ε α → σ → W → Prop} {w : W}

@[simp] theorem wp_get (Q : Except ε σ → σ → W → Prop) (s : σ) (w : W) :
    wp M Q (get : Exec C R σ ε σ) s w ↔ Q (.ok s) s w := Iff.rfl

@[simp] theorem wp_bind (Q : Except ε β → σ → W → Prop) (x : Exec C R σ ε α)
    (f : α → Exec C R σ ε β) (s : σ) (w : W) :
    wp M Q (x >>= f) s w ↔
      wp M (fun r s w => match r with
        | .ok a => wp M Q (f a) s w
        | .error e => Q (.error e) s w) x s w := by
  show Prog.wp M _ ((x s).bind _) w ↔ _
  rw [Prog.wp_bind]
  refine ⟨Prog.wp_mono ?_, Prog.wp_mono ?_⟩ <;>
    · rintro ⟨r, s'⟩ w' h
      cases r <;> exact h

theorem wp_mono (hQ : ∀ r s w, Q r s w → Q' r s w) (h : wp M Q x s w) : wp M Q' x s w :=
  Prog.wp_mono (fun r w hr => hQ r.1 r.2 w hr) h

/-- The rule for sequencing: establish a middle condition, and rejoin the
final postcondition on an error exit. -/
theorem wp_seq {Q : Except ε β → σ → W → Prop} {P : Except ε α → σ → W → Prop}
    {f : α → Exec C R σ ε β} (hx : wp M P x s w) (hok : ∀ a s w, P (.ok a) s w → wp M Q (f a) s w)
    (herr : ∀ e s w, P (.error e) s w → Q (.error e) s w) : wp M Q (x >>= f) s w := by
  rw [wp_bind]
  refine wp_mono ?_ hx
  rintro (e | a) s' w' h
  · exact herr e s' w' h
  · exact hok a s' w' h

/-- Two postconditions established separately hold together. -/
theorem wp_and (h : wp M Q x s w) (h' : wp M Q' x s w) :
    wp M (fun r s w => Q r s w ∧ Q' r s w) x s w := by
  unfold wp at *
  generalize x s = p at h h'
  induction p generalizing w with
  | ret a => exact ⟨h, h'⟩
  | call c k ih => exact ⟨h.1, fun r w' hr => ih r (h.2 r w' hr) (h'.2 r w' hr)⟩
  | diverge => trivial

/-! ## Observers -/

variable {step : W → (c : C) → R c → W}

@[simp] theorem wp_call_observer (c : C) (Q : Except ε (R c) → σ → W → Prop) (s : σ) (w : W) :
    wp (observer step spec) Q (call c : Exec C R σ ε (R c)) s w ↔
      spec w c ∧ ∀ r, Q (.ok r) s (step w c r) := by
  show Prog.wp (observer step spec) _ (.call c _) w ↔ _
  rw [Interact.wp_call_observer]
  exact Iff.rfl

/-- A fact about what an observer sees is a fact about the log. -/
theorem wp_log {h : List (Event C R)} (hx : wp (observer step spec) Q x s (observe step w h)) :
    wp (logWorld fun h c => spec (observe step w h) c)
      (fun r s h => Q r s (observe step w h)) x s h := by
  exact wp_log_of_observer w hx

/-- What holds whatever is observed holds beside what an observer sees. -/
theorem wp_and_blind {Q'} (hx : wp (observer step spec) Q x s w) (hx' : wp (blind C R) Q' x s ()) :
    wp (observer step spec) (fun r s w => Q r s w ∧ Q' r s ()) x s w := by
  exact Interact.wp_and_blind hx hx'

/-- What holds whatever is observed holds for every observer. -/
theorem wp_of_blind {Q : Except ε α → σ → Prop} (w : W)
    (hx : wp (blind C R) (fun r s _ => Q r s) x s ()) :
    wp (observer step fun _ _ => True) (fun r s _ => Q r s) x s w := by
  exact Interact.wp_of_blind w hx

/-! ## Terminating executions -/

/-- `Runs M x s w r s' w'`: started in state `s` and world `w`, the program can
stop with outcome `r` in state `s'` and world `w'`. -/
def Runs (M : World C R W) (x : Exec C R σ ε α) (s : σ) (w : W) (r : Except ε α)
    (s' : σ) (w' : W) : Prop :=
  Prog.Runs M (x s) w (r, s') w'

theorem wp_sound {s' : σ} {w' : W} (hrun : Runs M x s w r s' w') (h : wp M Q x s w) :
    Q r s' w' := by
  have hpost := Prog.wp_sound hrun h
  exact hpost

/-! ## Computing with a handler -/

def run (handler : W → (c : C) → R c × W) (x : Exec C R σ ε α) (s : σ) (w : W) :
    Option (Except ε α × σ × W) :=
  (Prog.run handler (x s) w).map fun r => (r.1.1, r.1.2, r.2)

section Run

variable {handler : W → (c : C) → R c × W}
variable {x : Exec C R σ ε α}

@[simp] theorem run_get (s : σ) (w : W) :
    run handler (get : Exec C R σ ε σ) s w = some (.ok s, s, w) := rfl

@[simp] theorem run_modify (f : σ → σ) (s : σ) (w : W) :
    run handler (modify f : Exec C R σ ε Unit) s w = some (.ok (), f s, w) := rfl

variable {s s' : σ} {w' : W}

theorem run_bind {f : α → Exec C R σ ε β} {a : α} (hx : run handler x s w = some (.ok a, s', w')) :
    run handler (x >>= f) s w = run handler (f a) s' w' := by
  unfold run at hx ⊢
  show (Prog.run handler ((x s).bind _) w).map _ = _
  rw [Prog.run_bind]
  cases hp : Prog.run handler (x s) w with
  | none => simp [hp] at hx
  | some p =>
    obtain ⟨⟨r, s₁⟩, w₁⟩ := p
    simp only [hp, map_some, some.injEq, Prod.mk.injEq] at hx
    obtain ⟨rfl, rfl, rfl⟩ := hx
    rfl

/-- A computed execution is a run of every world that admits the answers. -/
theorem runs_of_admitted (hM : ∀ w c, M.answer w c (handler w c).1 (handler w c).2)
    (h : run handler x s w = some (r, s', w')) : Runs M x s w r s' w' := by
  obtain ⟨⟨⟨r₁, s₁⟩, w₁⟩, hp, heq⟩ := map_eq_some_iff.mp h
  obtain ⟨rfl, rfl, rfl⟩ : r₁ = r ∧ s₁ = s' ∧ w₁ = w' := by simpa using heq
  exact Prog.run_runs hM hp

theorem runs_of_run (h : run handler x s w = some (r, s', w')) (log : List (Event C R)) :
    ∃ log', Runs (anyLog C R) x s log r s' log' := by
  unfold run at h
  cases hp : Prog.run handler (x s) w with
  | none => simp [hp] at h
  | some p =>
    simp only [hp, map_some, some.injEq, Prod.mk.injEq] at h
    obtain ⟨rfl, rfl, rfl⟩ := h
    exact Prog.runs_log_of_run hp log

end Run

end Exec

end Interact
