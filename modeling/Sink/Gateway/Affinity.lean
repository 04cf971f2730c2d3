import Sink.Gateway.Records
import Sink.Lib.Champion

/-!
# Rendezvous routing

`affinityRoute` picks the endpoint with the highest score for a record, and
the smaller endpoint where scores are equal. Between different endpoints this
never draws, whatever the hash function, so the owner of a record depends on
the set of routes only, and a change of the set moves a record only if it
concerns the owner.
-/

namespace Sink.Gateway

open Champion

variable {sum256 : GoString → GoString} {identity : GoString}

def Takes (sum256 : GoString → GoString) (identity : GoString) (route owner : Route) : Prop :=
  score sum256 identity owner < score sum256 identity route ∨
    (score sum256 identity route = score sum256 identity owner ∧ route.endpoint < owner.endpoint)

instance (sum256 : GoString → GoString) (identity : GoString) :
    DecidableRel (Takes sum256 identity) :=
  fun route owner => inferInstanceAs (Decidable (_ ∨ (_ ∧ route.endpoint < owner.endpoint)))

theorem takes_asymm (a b : Route) (h : Takes sum256 identity a b) : ¬Takes sum256 identity b a := by
  unfold Takes at *
  rcases h with hscore | ⟨hscore, hlt⟩
  · omega
  rintro (hlt' | ⟨-, hlt'⟩)
  · omega
  · exact List.lt_asymm hlt hlt'

theorem takes_weak (a b c : Route) (hab : ¬Takes sum256 identity a b)
    (hbc : ¬Takes sum256 identity b c) : ¬Takes sum256 identity a c := by
  unfold Takes at *
  simp only [not_or, not_and, Std.not_lt] at *
  obtain ⟨hab, hab'⟩ := hab
  obtain ⟨hbc, hbc'⟩ := hbc
  refine ⟨by omega, fun hscore => ?_⟩
  exact Std.le_trans (hbc' (by omega)) (hab' (by omega))

theorem takes_decided {routes : List Route} (hd : (routes.map (·.endpoint)).Nodup) :
    Decided (Takes sum256 identity) routes := by
  intro a ha b hb hne
  have hend : a.endpoint ≠ b.endpoint := fun h => hne (List.inj_on_of_nodup_map hd ha hb h)
  rcases Nat.lt_trichotomy (score sum256 identity a) (score sum256 identity b) with h | h | h
  · exact .inr (.inl h)
  · by_cases hlt : a.endpoint < b.endpoint
    · exact .inl (.inr ⟨h, hlt⟩)
    · have hgt := Std.lt_of_le_of_ne (Std.not_lt.mp hlt) hend.symm
      exact .inr (.inr ⟨h.symm, hgt⟩)
  · exact .inl (.inl h)

/-- The owner is the route that no other takes the record from. -/
theorem affinityRoute_unbeaten {routes : List Route} (hne : routes ≠ []) :
    Unbeaten (Takes sum256 identity) routes (affinityRoute sum256 identity routes) := by
  have hfold : ∀ first rest, Unbeaten (Takes sum256 identity) (first :: rest)
      (rest.foldl (stronger sum256 identity) first) :=
    foldl_defend_unbeaten takes_asymm takes_weak
  cases routes with
  | nil => exact absurd rfl hne
  | cons first rest =>
    cases rest with
    | nil => exact hfold first []
    | cons second rest => exact hfold first (second :: rest)

/-- Whatever the hash function, the owner of a record depends on the set of
routes and not on their order. It stays when routes other than it are removed,
and where routes are added it stays or becomes one of those. -/
theorem affinityRoute_moves_affected (sum256 : GoString → GoString) (identity : GoString)
    {routes : List Route} (hne : routes ≠ []) (hd : (routes.map (·.endpoint)).Nodup) :
    let owner := affinityRoute sum256 identity routes
    owner ∈ routes ∧
      (∀ reordered : List Route, (∀ route, route ∈ reordered ↔ route ∈ routes) →
        affinityRoute sum256 identity reordered = owner) ∧
      (∀ kept : List Route, (∀ route ∈ kept, route ∈ routes) → owner ∈ kept →
        affinityRoute sum256 identity kept = owner) ∧
      ∀ added all : List Route, (∀ route, route ∈ all ↔ route ∈ routes ∨ route ∈ added) →
        (all.map (·.endpoint)).Nodup →
        affinityRoute sum256 identity all = owner ∨ affinityRoute sum256 identity all ∈ added := by
  intro owner
  have howner : Unbeaten (Takes sum256 identity) routes owner := affinityRoute_unbeaten hne
  have hkept : ∀ kept, (∀ route ∈ kept, route ∈ routes) → owner ∈ kept →
      affinityRoute sum256 identity kept = owner := by
    intro kept hsub hmem
    have hwins : Unbeaten (Takes sum256 identity) kept (affinityRoute sum256 identity kept) :=
      affinityRoute_unbeaten (List.ne_nil_of_mem hmem)
    exact hwins.unique ((takes_decided hd).subset hsub) (howner.subset hsub hmem)
  refine ⟨howner.1, ?_, hkept, ?_⟩
  · intro reordered hsame
    exact hkept reordered (fun route => (hsame route).mp) ((hsame owner).mpr howner.1)
  · intro added all hall hdall
    have hroutes : ∀ route ∈ routes, route ∈ all := fun route h => (hall route).mpr (.inl h)
    have hwins : Unbeaten (Takes sum256 identity) all (affinityRoute sum256 identity all) :=
      affinityRoute_unbeaten (List.ne_nil_of_mem (hroutes owner howner.1))
    rcases (hall _).mp hwins.1 with hold | hnew
    · -- an old route that wins among all routes wins among the old ones
      have hstays := hwins.subset hroutes hold
      exact .inl (hstays.unique (takes_decided hd) howner)
    · exact .inr hnew

theorem affinityRoute_moves_affected_two :
    let routes : List Route := [⟨[], [], false, [], [49]⟩, ⟨[], [], false, [], [50]⟩]
    affinityRoute id [97] routes ∈ routes ∧
      affinityRoute id [97] routes.reverse = affinityRoute id [97] routes := by
  intro routes
  have hne : routes ≠ [] := by decide
  obtain ⟨hmem, hreordered, -⟩ := affinityRoute_moves_affected id [97] hne (by decide)
  exact ⟨hmem, hreordered routes.reverse fun route => List.mem_reverse⟩

end Sink.Gateway
