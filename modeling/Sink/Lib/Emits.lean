import Sink.Lib.Prog

/-!
# Programs and the calls they make

`Prog.Emits Q p`: whatever the calls are answered, `p` ends, and its value is
related by `Q` to the answered calls, which are listed in order. There is no
world behind it, so it is the strongest thing to say about a program on its own:
every answer is possible, and running out of fuel is not.
-/

namespace Interact

variable {C : Type} {R : C → Type} {α β : Type}

namespace Prog

/-- The program ends, and its value and its calls satisfy `Q`. -/
def Emits (Q : α → List (Event C R) → Prop) : Prog C R α → Prop
  | .ret a => Q a []
  | .call c k => ∀ r, Emits (fun a events => Q a (⟨c, r⟩ :: events)) (k r)
  | .diverge => False

namespace Emits

theorem mono {Q Q'} (hQ : ∀ a events, Q a events → Q' a events) :
    ∀ {p : Prog C R α}, Emits Q p → Emits Q' p
  | .ret a, h => hQ a [] h
  | .call _ _, h => fun r => mono (fun a _ => hQ a _) (h r)
  | .diverge, h => h

theorem bind {P Q} : ∀ {p : Prog C R α} {f : α → Prog C R β}, Emits P p →
      (∀ a events, P a events → Emits (fun b rest => Q b (events ++ rest)) (f a)) →
      Emits Q (p.bind f)
  | .ret a, _, h, hf => hf a [] h
  | .call c _, _, h, hf => fun r => bind (h r) fun a events hP => hf a (⟨c, r⟩ :: events) hP
  | .diverge, _, h, _ => h.elim

theorem run {W : Type} {Q : α → List (Event C R) → Prop} (handler : W → (c : C) → R c × W) :
    ∀ {p : Prog C R α} (w : W), Emits Q p →
      ∃ a w' events, p.run handler w = some (a, w') ∧ Q a events
  | .ret a, w, h => ⟨a, w, [], rfl, h⟩
  | .call c _, w, h => by
    obtain ⟨a, w', events, hrun, hQ⟩ := run handler (handler w c).2 (h (handler w c).1)
    exact ⟨a, w', _, hrun, hQ⟩
  | .diverge, _, h => h.elim

end Emits

end Prog

end Interact
