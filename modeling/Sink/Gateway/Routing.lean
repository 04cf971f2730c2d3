import Sink.Gateway.Records

/-!
# Where operations go

The loop of `records` keeps what it learned about Stores and URIs in maps.
`owner` is the route of a URI without them: discovery is asked by the first
operation of the Store, and the endpoints it reports compete for the URI.
`planned` says that the loop computes this: the groups are the operations by
owner, and the operations without one are failed with its error.
-/

namespace Sink.Gateway.Server

open Grouping Interact List Function

variable (s : Server) (w : World) (addresses : List GoString)

def inStore (store uri : GoString) : Bool :=
  match s.codec.parseAddress uri with
  | .error _ => false
  | .ok address => s.codec.store address == store

/-- The first operation on the Store, which asks for its targets. -/
def firstUse (store : GoString) : Nat := addresses.findIdx (s.inStore store)

def targetsOf (store : GoString) : Except Status (List Route) := do
  let route ← s.routeFor store
  destinations route (w.discovered (s.firstUse addresses store) route)

/-- The route of the operations on a URI, or the error that they fail with. -/
def owner (uri : GoString) : Except Status Route :=
  match s.codec.parseAddress uri with
  | .error err => .error ⟨Code.invalidArgument, err.message⟩
  | .ok address => do
    .ok (affinityRoute s.codec.sum256 uri (← s.targetsOf w addresses (s.codec.store address)))

/-- The URI of operation `i`. -/
def uriAt (i : Nat) : GoString := addresses.getD i []

/-- The route of operation `i`, if it has one. -/
def routeAt (i : Nat) : Option Route := (s.owner w addresses (uriAt addresses i)).toOption

/-- Why operation `i` has no route. -/
def rejectionAt (i : Nat) : Option (Nat × Status) :=
  match s.owner w addresses (uriAt addresses i) with
  | .error err => some (i, err)
  | .ok _ => none

/-- The Store of an operation was asked, if there is a route to it. -/
def Asked (plan : Plan) (i : Nat) : Prop :=
  ∀ address, s.codec.parseAddress (uriAt addresses i) = .ok address →
    s.routes (s.codec.store address) ≠ none → plan.resolved (s.codec.store address) ≠ none

/-- The loop variables after the first `k` operations. -/
structure Planned (k : Nat) (plan : Plan) : Prop where
  resolved : ∀ store targets, plan.resolved store = some targets →
    targets = s.targetsOf w addresses store
  asked : ∀ j < k, s.Asked addresses plan j
  owners : ∀ uri route, plan.owners uri = some route → s.owner w addresses uri = .ok route
  groups : Groups (s.routeAt w addresses) (range k) plan.groups
  failures : plan.failures = (range k).filterMap (s.rejectionAt w addresses)

variable {s w addresses}

variable {i : Nat} {err : Status}

theorem routeAt_of_error (h : s.owner w addresses (uriAt addresses i) = .error err) :
    s.routeAt w addresses i = none := by
  rw [routeAt, h]
  rfl

theorem routeAt_eq_some {route : Route} :
    s.routeAt w addresses i = some route ↔ s.owner w addresses (uriAt addresses i) = .ok route := by
  unfold routeAt
  cases s.owner w addresses (uriAt addresses i) with
  | error err => simp [Except.toOption]
  | ok route => simp [Except.toOption]

theorem getElem_eq_uriAt (hi : i < addresses.length) : addresses[i] = uriAt addresses i := by
  simp [uriAt, hi]

variable {store : GoString}

theorem routeFor_ok {route : Route} (h : s.routeFor store = .ok route) :
    s.routes store = some route := by
  unfold routeFor at h
  split at h
  · cases h
  rename_i hroute
  rw [hroute]
  exact congrArg some (Except.ok.inj h)

theorem routeFor_error (h : s.routeFor store = .error err) : s.routes store = none := by
  unfold routeFor at h
  split at h
  · assumption
  · cases h

namespace Planned

variable {k : Nat} {plan : Plan}

theorem start : Planned s w addresses 0 .start where
  resolved := nofun
  asked := fun j hj => absurd hj (Nat.not_lt_zero j)
  owners := nofun
  groups := Groups.nil
  failures := rfl

section

variable (h : Planned s w addresses k plan)

include h

variable {address : Address}

theorem firstUse_eq (hk : k < addresses.length)
    (hparse : s.codec.parseAddress (uriAt addresses k) = .ok address)
    (hroute : s.routes (s.codec.store address) ≠ none)
    (hnew : plan.resolved (s.codec.store address) = none) :
    s.firstUse addresses (s.codec.store address) = k := by
  refine (findIdx_eq hk).mpr ⟨?_, fun j hj => ?_⟩
  · rw [getElem_eq_uriAt hk, inStore, hparse]
    exact beq_self_eq_true _
  · rw [getElem_eq_uriAt (Nat.lt_trans hj hk), inStore]
    split
    · rfl
    rename_i other hother
    refine beq_eq_false_iff_ne.mpr fun hstore => ?_
    rw [← hstore] at hnew hroute
    exact h.asked j hj other hother hroute hnew

/-- The targets come out of the map or of discovery, and are the same. -/
theorem resolve_eq (hk : k < addresses.length)
    (hparse : s.codec.parseAddress (uriAt addresses k) = .ok address) {route : Route}
    (hroute : s.routeFor (s.codec.store address) = .ok route) :
    resolve w plan k (s.codec.store address) route =
      s.targetsOf w addresses (s.codec.store address) := by
  unfold resolve
  cases hcache : plan.resolved (s.codec.store address) with
  | some targets => exact h.resolved _ _ hcache
  | none =>
    have hsome : s.routes (s.codec.store address) ≠ none := by simp [routeFor_ok hroute]
    have hfirst := h.firstUse_eq hk hparse hsome hcache
    rw [Option.getD_none, targetsOf, hroute, ok_bind, hfirst]

theorem fail (howner : s.owner w addresses (uriAt addresses k) = .error err)
    (hasked : s.Asked addresses plan k) :
    Planned s w addresses (k + 1) (plan.fail k err) where
  resolved := h.resolved
  asked := by
    intro j hj
    rcases Nat.lt_succ_iff_lt_or_eq.mp hj with hj | rfl
    · exact h.asked j hj
    · exact hasked
  owners := h.owners
  groups := by
    rw [range_succ]
    exact h.groups.skip (routeAt_of_error howner)
  failures := by
    rw [range_succ, filterMap_append, ← h.failures]
    simp [Plan.fail, rejectionAt, howner]

theorem join {targets : List Route}
    (howner : s.owner w addresses (uriAt addresses k) =
      .ok (affinityRoute s.codec.sum256 (uriAt addresses k) targets))
    (hasked : s.Asked addresses plan k) :
    Planned s w addresses (k + 1) (plan.join k (uriAt addresses k) targets s.codec.sum256) := by
  have hkept : (plan.owners (uriAt addresses k)).getD
      (affinityRoute s.codec.sum256 (uriAt addresses k) targets) =
        affinityRoute s.codec.sum256 (uriAt addresses k) targets := by
    cases hcache : plan.owners (uriAt addresses k) with
    | none => rfl
    | some route =>
      have hroute := h.owners _ _ hcache
      rw [howner] at hroute
      exact (Except.ok.inj hroute).symm
  refine ⟨h.resolved, ?_, ?_, ?_, ?_⟩
  · intro j hj
    rcases Nat.lt_succ_iff_lt_or_eq.mp hj with hj | rfl
    · exact h.asked j hj
    · exact hasked
  · intro uri route huri
    simp only [Plan.join, hkept] at huri
    by_cases heq : uri = uriAt addresses k
    · subst heq
      rw [update_self] at huri
      rw [howner, Option.some.inj huri]
    · rw [update_of_ne heq] at huri
      exact h.owners uri route huri
  · rw [range_succ]
    simp only [Plan.join, hkept]
    exact h.groups.add (routeAt_eq_some.mpr howner)
  · rw [range_succ, filterMap_append, ← h.failures]
    simp [Plan.join, rejectionAt, howner]

theorem resolve (store : GoString) :
    Planned s w addresses k
      { plan with
        resolved := update plan.resolved store (some (s.targetsOf w addresses store)) }
    where
  resolved := by
    intro store' targets htargets
    by_cases heq : store' = store
    · subst heq
      simpa using htargets.symm
    · refine h.resolved store' targets ?_
      simpa [heq] using htargets
  asked := by
    intro j hj address hparse hroute
    by_cases heq : s.codec.store address = store
    · simp [heq]
    · simpa [heq] using h.asked j hj address hparse hroute
  owners := h.owners
  groups := h.groups
  failures := h.failures

theorem planOne (hk : k < addresses.length) :
    Planned s w addresses (k + 1) (s.planOne w plan k (uriAt addresses k)) := by
  unfold Server.planOne
  cases hparse : s.codec.parseAddress (uriAt addresses k) with
  | error err =>
    refine h.fail (by simp [owner, hparse]) fun address haddress => ?_
    simp [hparse] at haddress
  | ok address =>
    dsimp only
    cases hroute : s.routeFor (s.codec.store address) with
    | error err =>
      refine h.fail (by simp [owner, hparse, targetsOf, hroute]) fun other hother hsome => ?_
      obtain rfl : address = other := by simpa [hparse] using hother
      exact absurd (routeFor_error hroute) hsome
    | ok route =>
      dsimp only
      rw [h.resolve_eq hk hparse hroute]
      have hresolved := h.resolve (s.codec.store address)
      have hasked : s.Asked addresses
          { plan with resolved := update plan.resolved (s.codec.store address)
                        (some (s.targetsOf w addresses (s.codec.store address))) } k := by
        intro other hother _
        obtain rfl : address = other := by simpa [hparse] using hother
        simp
      cases htargets : s.targetsOf w addresses (s.codec.store address) with
      | error err =>
        rw [htargets] at hresolved hasked
        exact hresolved.fail (by simp [owner, hparse, htargets]) hasked
      | ok targets =>
        rw [htargets] at hresolved hasked
        exact hresolved.join (by simp [owner, hparse, htargets]) hasked

end

end Planned

theorem planned_from (n : Nat) {k : Nat} {plan : Plan} (h : Planned s w addresses k plan)
    (hn : k + n = addresses.length) :
    Planned s w addresses addresses.length (s.planFrom w k (addresses.drop k) plan) := by
  induction n generalizing k plan with
  | zero =>
    obtain rfl : k = addresses.length := by omega
    rw [drop_length]
    exact h
  | succ n ih =>
    have hk : k < addresses.length := by omega
    have hcons : addresses.drop k = uriAt addresses k :: addresses.drop (k + 1) := by
      rw [← getElem_eq_uriAt hk]
      exact drop_eq_getElem_cons hk
    rw [hcons]
    exact ih (h.planOne hk) (by omega)

theorem planned (s : Server) (w : World) (addresses : List GoString) :
    Planned s w addresses addresses.length (s.plan w addresses) := by
  have hstart : Planned s w addresses 0 .start := Planned.start
  exact planned_from addresses.length hstart (Nat.zero_add _)

end Sink.Gateway.Server
