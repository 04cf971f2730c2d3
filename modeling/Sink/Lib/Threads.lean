import Mathlib.Logic.Function.Basic
import Sink.Lib.Prog

/-!
# Programs that share a service

Any number of programs run against one shared service. A turn answers the
pending call of one program, or lets the environment act on the shared
state; turns are atomic and come in any order. What a program does between
its calls is not visible to the others.

A fact about one program that holds whatever it is answered (`Prog.wp` in a
log world) holds of it in every reachable configuration, so an invariant of
the whole only has to look at the calls themselves.
-/

namespace Interact

open Function

variable {ι C L S α : Type} {R : C → Type}

/-- What is left of a program, and what it was answered so far. -/
structure Thread (C : Type) (R : C → Type) (α : Type) where
  rest : Prog C R α
  log : List (Event C R)

structure Config (ι C : Type) (R : C → Type) (α S : Type) where
  shared : S
  threads : ι → Thread C R α

/-- How the shared state answers calls, and how the environment may act. -/
structure Service (C : Type) (R : C → Type) (S L : Type) where
  serve : S → (c : C) → R c → S → Prop
  act : S → L → S → Prop

inductive Turn (ι C : Type) (R : C → Type) (L : Type) where
  | call (i : ι) (e : Event C R)
  | act (l : L)

/-- The calls of one program in a trace, newest first. -/
def eventsOf [DecidableEq ι] (i : ι) : List (Turn ι C R L) → List (Event C R)
  | [] => []
  | .call j e :: trace => if j = i then e :: eventsOf i trace else eventsOf i trace
  | .act _ :: trace => eventsOf i trace

def Config.start (shared : S) (progs : ι → Prog C R α) : Config ι C R α S :=
  ⟨shared, fun i => ⟨progs i, []⟩⟩

section Reaches

variable [DecidableEq ι] {M : Service C R S L}
variable {spec : List (Event C R) → C → Prop} {Q : α → List (Event C R) → Prop}

/-- `Reaches M init trace cfg`: the turns of `trace`, newest first, lead from
`init` to `cfg`. -/
inductive Reaches (M : Service C R S L) (init : Config ι C R α S) :
    List (Turn ι C R L) → Config ι C R α S → Prop where
  | start : Reaches M init [] init
  | call {trace cfg i c k r shared : _} (h : Reaches M init trace cfg)
      (hi : (cfg.threads i).rest = .call c k) (hserve : M.serve cfg.shared c r shared) :
      Reaches M init (.call i ⟨c, r⟩ :: trace)
        ⟨shared, update cfg.threads i ⟨k r, ⟨c, r⟩ :: (cfg.threads i).log⟩⟩
  | act {trace cfg l shared : _}
      (h : Reaches M init trace cfg) (hact : M.act cfg.shared l shared) :
      Reaches M init (.act l :: trace) ⟨shared, cfg.threads⟩

variable {shared : S} {progs : ι → Prog C R α} {trace : List (Turn ι C R L)}
  {cfg : Config ι C R α S}

theorem Reaches.log_eq (h : Reaches M (.start shared progs) trace cfg) (i : ι) :
    (cfg.threads i).log = eventsOf i trace := by
  induction h with
  | start => rfl
  | @call trace cfg j c k r shared' _ _ _ ih =>
    by_cases hj : j = i
    · subst hj
      simp only [update_self, eventsOf, if_pos, ih]
    · simp only [update_of_ne (Ne.symm hj), eventsOf, if_neg hj, ih]
  | act _ _ ih => exact ih

/-- A program keeps what it guarantees whatever it is answered. -/
theorem Reaches.wp {i : ι} (hi : Prog.wp (logWorld spec) Q (progs i) [])
    (h : Reaches M (.start shared progs) trace cfg) :
    Prog.wp (logWorld spec) Q (cfg.threads i).rest (cfg.threads i).log := by
  induction h with
  | start => exact hi
  | @call trace cfg j c k r shared' _ hcall _ ih =>
    by_cases hj : j = i
    · subst hj
      simp only [update_self]
      rw [hcall, wp_call_observer] at ih
      exact ih.2 r
    · simp only [update_of_ne (Ne.symm hj)]
      exact ih
  | act _ _ ih => exact ih

theorem Reaches.pending {i : ι} (hi : Prog.wp (logWorld spec) Q (progs i) [])
    (h : Reaches M (.start shared progs) trace cfg) {c : C} {k : R c → Prog C R α}
    (hcall : (cfg.threads i).rest = .call c k) : spec (eventsOf i trace) c := by
  have hwp := h.wp hi
  rw [hcall, wp_call_observer, h.log_eq i] at hwp
  exact hwp.1

theorem Reaches.ended {i : ι} (hi : Prog.wp (logWorld spec) Q (progs i) [])
    (h : Reaches M (.start shared progs) trace cfg) {a : α} (hret : (cfg.threads i).rest = .ret a) :
    Q a (eventsOf i trace) := by
  have hwp := h.wp hi
  rw [hret, h.log_eq i] at hwp
  exact hwp

end Reaches

end Interact
