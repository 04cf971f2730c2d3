import Mathlib.Data.List.Chain
import Mathlib.Order.Lattice

/-!
# Pages

A list is handed out in pages, each with a token for the next one. The reader
asks until a page comes without a token; every request may be made in its own
way, so that the page function also gets the number of the request.

What a token stands for is a relation `At` between tokens and what is left of
the list. If every page serves a part of what is left, and its token stands
for the rest (`Serves`), then the pages together are the list, whatever their
sizes (`follow_serves`). `behind_of_split` is what makes a seek position such
a token: nothing behind the last element served stands at or before it.
-/

namespace Paging

open List Option

variable {α β τ ε κ : Type}

/-- Ask for page after page, the next one being number `i`. -/
def follow (page : Nat → τ → Except ε (List β × Option τ)) :
    Nat → Nat → τ → Option (Except ε (List (List β)))
  | 0, _, _ => none
  | fuel + 1, i, t =>
    match page i t with
    | .error e => some (.error e)
    | .ok (docs, none) => some (.ok [docs])
    | .ok (docs, some next) =>
      (follow page fuel (i + 1) next).map (Except.map fun pages => docs :: pages)

/-- A page of what is left. Only the last one may be empty. -/
def Serves (At : τ → List α → Prop) (R : α → β → Prop) (left : List α) (docs : List β) :
    Option τ → Prop
  | none => Forall₂ R left docs
  | some next => docs ≠ [] ∧ ∃ front tail, left = front ++ tail ∧ Forall₂ R front docs ∧
      At next tail

variable {page : Nat → τ → Except ε (List β × Option τ)} {At : τ → List α → Prop}
  {R : α → β → Prop} {left : List α} {fuel i : Nat}

/-- The reader gets to the end, and if no page failed the pages are the list. -/
theorem follow_serves
    (hpage : ∀ i t left docs next, At t left → page i t = .ok (docs, next) →
      Serves At R left docs next) {t : τ} (hat : At t left) (hfuel : left.length < fuel) :
    ∃ r, follow page fuel i t = some r ∧ ∀ pages, r = .ok pages →
      Forall₂ R left pages.flatten ∧ ∀ docs ∈ pages.dropLast, docs ≠ [] := by
  induction fuel generalizing i t left with
  | zero => omega
  | succ fuel ih =>
    unfold follow
    cases hask : page i t with
    | error e => exact ⟨_, rfl, fun _ herr => nomatch herr⟩
    | ok answer =>
      obtain ⟨docs, next⟩ := answer
      have hserves := hpage i t left docs next hat hask
      cases next with
      | none =>
        refine ⟨_, rfl, fun pages hpages => ?_⟩
        cases hpages
        refine ⟨?_, by simp⟩
        rw [flatten_singleton]
        exact hserves
      | some next =>
        obtain ⟨hne, front, tail, rfl, hfront, hnext⟩ := hserves
        have hshort : tail.length < fuel := by
          have hlength := hfront.length_eq
          have hpos := length_pos_iff.mpr hne
          rw [length_append] at hfuel
          omega
        obtain ⟨r, hr, hrest⟩ := ih hnext hshort (i := i + 1)
        refine ⟨_, congrArg (Option.map _) hr, fun pages hpages => ?_⟩
        cases r with
        | error e => cases hpages
        | ok rest =>
          cases hpages
          obtain ⟨hflat, hfull⟩ := hrest rest rfl
          refine ⟨?_, ?_⟩
          · exact rel_append hfront hflat
          · cases rest with
            | nil => simp
            | cons first rest =>
              exact forall_mem_cons.mpr ⟨hne, hfull⟩

/-- A part of a list with the element behind it. -/
theorem take_length_succ (front tail : List α) :
    (front ++ tail).take (front.length + 1) = front ++ tail.head?.toList := by
  rw [take_length_add_append]
  cases tail <;> rfl

variable {pages : List (List β)}

/-- If neighbours are related up to the first element behind each page, then
all neighbours are. -/
theorem follow_chained {T : α → α → Prop}
    (hpage : ∀ i t left docs next, At t left → page i t = .ok (docs, next) →
      Serves At R left docs next)
    (hchain : ∀ i t left docs next, At t left → page i t = .ok (docs, next) →
      (left.take (docs.length + 1)).IsChain T) {t : τ} (hat : At t left)
    (hfollow : follow page fuel i t = some (.ok pages)) : left.IsChain T := by
  induction fuel generalizing i t left pages with
  | zero => cases hfollow
  | succ fuel ih =>
    unfold follow at hfollow
    split at hfollow
    · cases hfollow
    · rename_i docs hask
      have hlength := (hpage i t left docs none hat hask).length_eq
      have htaken := hchain i t left docs none hat hask
      rwa [take_of_length_le (by omega)] at htaken
    · rename_i docs next hask
      obtain ⟨r, hr, hmap⟩ := map_eq_some_iff.mp hfollow
      cases r with
      | error e => cases hmap
      | ok rest =>
        obtain ⟨-, front, tail, rfl, hfront, hnext⟩ := hpage i t left docs (some next) hat hask
        have htaken := hchain i t _ docs (some next) hat hask
        have htail := ih hnext hr
        rw [← hfront.length_eq, take_length_succ] at htaken
        cases tail with
        | nil => exact htaken
        | cons b tail =>
          have hfirst : (front ++ [b]).IsChain T := htaken
          have hboth : (front ++ [b] ++ tail).IsChain T :=
            hfirst.append_overlap htail (by simp)
          rwa [append_assoc] at hboth

theorem follow_answers {t : τ} (hfollow : follow page fuel i t = some (.ok pages)) {k : Nat}
    {docs : List β} (hk : pages[k]? = some docs) : ∃ t next, page (i + k) t = .ok (docs, next) := by
  induction fuel generalizing i t pages k with
  | zero => cases hfollow
  | succ fuel ih =>
    unfold follow at hfollow
    split at hfollow
    · cases hfollow
    · rename_i docs' hask
      cases hfollow
      obtain ⟨rfl, rfl⟩ : k = 0 ∧ docs' = docs := by
        cases k with
        | zero => exact ⟨rfl, some.inj hk⟩
        | succ k => simp at hk
      exact ⟨t, none, hask⟩
    · rename_i docs' next hask
      obtain ⟨r, hr, hmap⟩ := map_eq_some_iff.mp hfollow
      cases r with
      | error e => cases hmap
      | ok rest =>
        cases hmap
        cases k with
        | zero =>
          cases hk
          exact ⟨t, some next, hask⟩
        | succ k =>
          obtain ⟨t', next', hask'⟩ := ih hr (k := k) hk
          rw [Nat.add_right_comm, Nat.add_assoc] at hask'
          exact ⟨t', next', hask'⟩

/-! ## Lookahead -/

/-- One element more was asked for than a page holds: if it did not come,
nothing is left. -/
theorem take_eq_self_of_short {n : Nat} (h : (left.take (n + 1)).length ≤ n) :
    left.take (n + 1) = left := by
  rw [length_take] at h
  exact take_of_length_le (by omega)

/-- A page of at most `n` elements, cut off an answer of at most one more.
`L` is known of the elements kept and the one behind them. -/
structure Cut (R : α → β → Prop) (L : List α → Option α → Prop) (n : Nat) (left : List α)
    (docs : List β) (more : Bool) : Prop where
  kept : ∃ m, Forall₂ R (left.take m) docs ∧
    (more = false → left.take m = left.take (n + 1) ∧ L (left.take m) none) ∧
    (more = true → L (left.take m) (left.drop m).head?)
  length : docs.length ≤ n
  nonempty : more = true → docs ≠ []

variable {L : List α → Option α → Prop} {n : Nat} {left : List α} {docs : List β}

theorem Cut.imp {S : α → β → Prop} {more : Bool} (h : Cut R L n left docs more)
    (himp : ∀ a b, R a b → S a b) : Cut S L n left docs more := by
  obtain ⟨⟨m, hkept, hrest⟩, hlength, hne⟩ := h
  exact ⟨⟨m, hkept.imp himp, hrest⟩, hlength, hne⟩

theorem Cut.whole (h : Cut R L n left docs false) : Forall₂ R left docs ∧ L left none := by
  obtain ⟨m, hkept, hall, -⟩ := h.kept
  obtain ⟨hall, hlast⟩ := hall rfl
  have hlength := hkept.length_eq
  have hdocs := h.length
  rw [hall] at hkept hlast hlength
  rw [take_eq_self_of_short (by omega)] at hkept hlast
  exact ⟨hkept, hlast⟩

theorem Cut.split (h : Cut R L n left docs true) :
    ∃ front a tail, left = front ++ a :: tail ∧ Forall₂ R (front ++ [a]) docs ∧
      L (front ++ [a]) tail.head? := by
  obtain ⟨m, hkept, -, hlast⟩ := h.kept
  rcases eq_nil_or_concat' (left.take m) with hnil | ⟨front, a, hfront⟩
  · rw [hnil] at hkept
    cases hkept
    exact absurd rfl (h.nonempty rfl)
  · refine ⟨front, a, left.drop m, ?_, hfront ▸ hkept, hfront ▸ hlast rfl⟩
    rw [← singleton_append, ← append_assoc, ← hfront, take_append_drop]

/-- What is known of a page is known up to the first element behind it. -/
theorem Cut.examined {more : Bool} (h : Cut R L n left docs more) :
    ∃ kept next, L kept next ∧ left.take (docs.length + 1) = kept ++ next.toList := by
  cases more with
  | false =>
    obtain ⟨hall, hlast⟩ := h.whole
    have hlength := hall.length_eq
    exact ⟨left, none, hlast, by rw [toList_none, append_nil, take_of_length_le (by omega)]⟩
  | true =>
    obtain ⟨front, a, tail, rfl, hkept, hlast⟩ := h.split
    refine ⟨front ++ [a], tail.head?, hlast, ?_⟩
    rw [← hkept.length_eq, ← take_length_succ, append_assoc, singleton_append]

/-! ## Seeking -/

section Seek

variable [LinearOrder κ] (key : α → κ)

/-- What stands strictly behind a position. -/
def behind (k : κ) (all : List α) : List α := all.filter fun a => decide (k < key a)

/-- Seeking behind an element gives what comes after it, unless the next one
is tied with it. -/
theorem behind_of_split {front tail : List α} {a : α}
    (hsorted : (front ++ a :: tail).Pairwise fun a b => key a ≤ key b)
    (htie : ∀ b ∈ tail.head?, key a ≠ key b) : behind key (key a) (front ++ a :: tail) = tail := by
  obtain ⟨-, hback, hcross⟩ := pairwise_append.mp hsorted
  obtain ⟨hle, htail⟩ := pairwise_cons.mp hback
  unfold behind
  rw [filter_append, filter_cons_of_neg (by simp)]
  have hfront : front.filter (fun b => decide (key a < key b)) = [] := by
    refine filter_eq_nil_iff.mpr fun b hb => ?_
    simpa using hcross b hb a mem_cons_self
  rw [hfront, nil_append]
  refine filter_eq_self.mpr fun b hb => decide_eq_true ?_
  cases tail with
  | nil => cases hb
  | cons first rest =>
    have hfirst : key a < key first :=
      lt_of_le_of_ne (hle first mem_cons_self) (htie first rfl)
    rcases mem_cons.mp hb with rfl | hb
    · exact hfirst
    · exact hfirst.trans_le ((pairwise_cons.mp htail).1 b hb)

end Seek

end Paging
