import Sink.Lib.Exec

/-!
# Effects a world does not see

`Keeps M rel E x P` says that `x`, started anywhere, leaves the world `M`
as it was, relates its start and end states by the preorder `rel`, returns
only values satisfying `P` and fails only with errors satisfying `E`. The
start state is arbitrary, so the rules compose like typing rules and a
program is checked by following its text.
-/

namespace Interact

variable {C : Type} {R : C → Type} {W σ ε α β : Type}

namespace Exec

/-- `x` is invisible to `M` and moves the state along `rel`. -/
def Keeps (M : World C R W) (rel : σ → σ → Prop) (E : ε → Prop) (x : Exec C R σ ε α)
    (P : α → Prop) : Prop :=
  ∀ s w, wp M (fun r s' w' => w' = w ∧ rel s s' ∧ Ends P E r) x s w

namespace Keeps

variable {M : World C R W} {rel : σ → σ → Prop} {E : ε → Prop}
variable {x : Exec C R σ ε α} {P : α → Prop} {f : α → Exec C R σ ε β} {Q : β → Prop}

theorem weaken {rel' E' P'} (hx : Keeps M rel E x P)
    (hrel : ∀ s s', rel s s' → rel' s s') (hE : ∀ e, E e → E' e) (hP : ∀ a, P a → P' a) :
    Keeps M rel' E' x P' := by
  intro s w
  refine wp_mono ?_ (hx s w)
  rintro r s' w' ⟨hw, hs, hr⟩
  exact ⟨hw, hrel _ _ hs, hr.mono hP hE⟩

theorem call [Std.Refl rel] {c : C} (hc : ∀ w, M.allowed w c ∧ ∀ r w', M.answer w c r w' → w' = w) :
    Keeps M rel E (Exec.call c) fun _ => True :=
  fun s w => ⟨(hc w).1, fun r w' hr => ⟨(hc w).2 r w' hr, Std.Refl.refl s, trivial⟩⟩

theorem pure [Std.Refl rel] {a : α} (h : P a) : Keeps M rel E (Pure.pure a) P :=
  fun s _ => ⟨rfl, Std.Refl.refl s, h⟩

theorem fail [Std.Refl rel] {e : ε} (h : E e) : Keeps M rel E (Exec.fail e : Exec C R σ ε α) P :=
  fun s _ => ⟨rfl, Std.Refl.refl s, h⟩

theorem get [Std.Refl rel] : Keeps M rel E Exec.get fun _ => True :=
  fun s _ => ⟨rfl, Std.Refl.refl s, trivial⟩

theorem modify {f : σ → σ} (h : ∀ s, rel s (f s)) : Keeps M rel E (Exec.modify f) fun _ => True :=
  fun s _ => ⟨rfl, h s, trivial⟩

theorem diverge (h : M.mayDiverge) : Keeps M rel E Exec.diverge P := fun _ _ => h

theorem bind [IsTrans σ rel] (hx : Keeps M rel E x P) (hf : ∀ a, P a → Keeps M rel E (f a) Q) :
    Keeps M rel E (x >>= f) Q := by
  intro s w
  refine wp_seq (hx s w) ?_ ?_
  · rintro a s₁ w₁ ⟨rfl, h₁, ha⟩
    refine wp_mono ?_ (hf a ha s₁ w₁)
    rintro r s₂ w₂ ⟨rfl, h₂, hr⟩
    exact ⟨rfl, IsTrans.trans _ _ _ h₁ h₂, hr⟩
  · rintro e s₁ w₁ ⟨rfl, h₁, he⟩
    exact ⟨rfl, h₁, he⟩

/-- Sequencing when nothing is needed of the first value. -/
theorem seq [IsTrans σ rel] (hx : Keeps M rel E x fun _ => True) (hf : ∀ a, Keeps M rel E (f a) Q) :
    Keeps M rel E (x >>= f) Q :=
  hx.bind fun a _ => hf a

end Keeps

end Exec

end Interact
