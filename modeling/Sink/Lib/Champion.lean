import Mathlib.Data.List.Basic

/-!
# The strongest element of a list

A fold that replaces its incumbent by every element that beats it. If `beats`
is asymmetric and a loser's loser is no winner, no element of the list beats
the outcome; where distinct elements are always decided, only one element is
unbeaten, so that the outcome depends on the set of elements and on nothing
else.
-/

namespace Champion

open List

variable {α : Type} (beats : α → α → Prop)

/-- The stronger of the two; the incumbent stays if it is not beaten. -/
def defend [DecidableRel beats] (incumbent challenger : α) : α :=
  if beats challenger incumbent then challenger else incumbent

/-- No element of the list beats it. -/
def Unbeaten (l : List α) (a : α) : Prop := a ∈ l ∧ ∀ b ∈ l, ¬beats b a

/-- Two different elements of the list never draw. -/
def Decided (l : List α) : Prop := ∀ a ∈ l, ∀ b ∈ l, a ≠ b → beats a b ∨ beats b a

variable {beats}

section Fold

variable [DecidableRel beats]

theorem foldl_defend_mem (incumbent : α) (l : List α) :
    l.foldl (defend beats) incumbent ∈ incumbent :: l := by
  induction l generalizing incumbent with
  | nil => exact mem_cons_self
  | cons a l ih =>
    have hmem := ih (defend beats incumbent a)
    rw [foldl_cons]
    rcases mem_cons.mp hmem with heq | hmem
    · rw [heq, defend]
      split
      · exact mem_cons_of_mem _ mem_cons_self
      · exact mem_cons_self
    · exact mem_cons_of_mem _ (mem_cons_of_mem _ hmem)

variable (hasymm : ∀ a b, beats a b → ¬beats b a)
  (hweak : ∀ a b c, ¬beats a b → ¬beats b c → ¬beats a c)

include hasymm hweak in
theorem foldl_defend_unbeaten (incumbent : α) (l : List α) :
    Unbeaten beats (incumbent :: l) (l.foldl (defend beats) incumbent) := by
  refine ⟨foldl_defend_mem incumbent l, ?_⟩
  induction l generalizing incumbent with
  | nil =>
    intro b hb hbeats
    obtain rfl := mem_singleton.mp hb
    exact hasymm _ _ hbeats hbeats
  | cons a l ih =>
    -- neither of the two beats the one that stays, which is not beaten later
    have hstay : ∀ b ∈ [incumbent, a], ¬beats b (defend beats incumbent a) := by
      intro b hb
      unfold defend
      simp only [mem_cons, not_mem_nil, or_false] at hb
      split
      · rename_i hwins
        rcases hb with rfl | rfl
        · exact hasymm _ _ hwins
        · exact fun h => hasymm _ _ h h
      · rename_i hloses
        rcases hb with rfl | rfl
        · exact fun h => hasymm _ _ h h
        · exact hloses
    have hlater := ih (defend beats incumbent a)
    intro b hb
    have hlast := hlater (defend beats incumbent a) mem_cons_self
    rcases mem_cons.mp hb with rfl | hb
    · exact hweak _ _ _ (hstay _ mem_cons_self) hlast
    rcases mem_cons.mp hb with rfl | hb
    · exact hweak _ _ _ (hstay _ (mem_cons_of_mem _ mem_cons_self)) hlast
    · exact hlater b (mem_cons_of_mem _ hb)

end Fold

variable {l l' : List α} {a b : α}

theorem Unbeaten.unique (hl : Decided beats l) (ha : Unbeaten beats l a)
    (hb : Unbeaten beats l b) : a = b := by
  by_contra hne
  rcases hl a ha.1 b hb.1 hne with h | h
  · exact hb.2 a ha.1 h
  · exact ha.2 b hb.1 h

theorem Unbeaten.subset (ha : Unbeaten beats l a) (hsub : ∀ b ∈ l', b ∈ l) (hmem : a ∈ l') :
    Unbeaten beats l' a :=
  ⟨hmem, fun b hb => ha.2 b (hsub b hb)⟩

theorem Decided.subset (h : Decided beats l) (hsub : ∀ b ∈ l', b ∈ l) : Decided beats l' :=
  fun a ha b hb => h a (hsub a ha) b (hsub b hb)

end Champion
