import Mathlib.Algebra.Order.BigOperators.Group.List
import Mathlib.Algebra.Order.Group.Nat
import Sink.Gateway.Answers
import Sink.Gateway.Engine

/-!
# One budget for all Engines

The sub-requests of a request that is not parallel share one budget of
document bytes per kind: each is granted what the ones before it left. A
reply settles at most its grant, or it is not accepted and settles all of it,
so what is left and what was settled always add up to the whole budget
(`conserved`). On the other side, whatever an Engine's service does with its
tracker, the usage it reports is within the grant (`Meter.Within`). An Engine
is honest if the documents it returns were accepted by one of its budgets;
then the documents of one read fit into the budget of the request.
-/

namespace Sink.Gateway

open Grouping Interact List Function

/-! ## The Gateway's account -/

namespace Server

variable {s : Server} {w : World} {k : Nat} {groups : List StoreGroup} {left : Budget}

theorem validUsage_iff {grant used : Budget} :
    validUsage grant used = true ↔ ∀ kind, used kind ≤ grant kind := by
  simp only [validUsage, Bool.and_eq_true, decide_eq_true_eq]
  constructor
  · rintro ⟨⟨⟨h₁, h₂⟩, h₃⟩, h₄⟩ kind
    cases kind <;> assumption
  · intro h
    exact ⟨⟨⟨h _, h _⟩, h _⟩, h _⟩

theorem checkReply_ok {store grant response reply}
    (h : checkReply store grant response = .ok reply) :
    reply = response ∧ ∀ kind, getBudget reply.used kind ≤ grant kind := by
  unfold checkReply at h
  split at h
  · cases h
  split at h
  · cases h
  rename_i husage
  cases h
  exact ⟨rfl, validUsage_iff.mp (by simpa using husage)⟩

/-- A reply that `forward` returns settles at most its grant. -/
theorem forward_used {line route req reply} (h : s.forward line route req = .ok reply)
    (kind : Kind) :
    getBudget reply.used kind ≤ getBudget req.grant kind := by
  unfold forward at h
  split at h
  · cases h
    exact UInt64.zero_le
  obtain ⟨response, -, h⟩ := bind_ok h
  exact (checkReply_ok h).2 kind

theorem run_used (line : Line) (req : Request) (group : StoreGroup) (grant : Budget)
    (kind : Kind) : (s.run line req group grant).used kind ≤ grant kind := by
  unfold Settlement.used
  cases hanswer : (s.run line req group grant).answer with
  | error err => exact UInt64.le_refl _
  | ok reply => exact forward_used hanswer kind

/-- The variable `remaining` after some sub-requests. -/
def remaining (s : Server) (ts : List Settlement) : Budget :=
  ts.foldl (fun left t => consume left t.used) (fullBudget s.maxReadBytes)

/-- What some sub-requests have settled. -/
def settledSum (ts : List Settlement) (kind : Kind) : Nat :=
  (ts.map fun t => (t.used kind).toNat).sum

theorem remaining_append (ts ts' : List Settlement) :
    s.remaining (ts ++ ts') = ts'.foldl (fun left t => consume left t.used) (s.remaining ts) :=
  foldl_append ..

variable {req : Request} {t : Settlement}

theorem settle_mem_used (h : t ∈ s.settle w req k groups left) (kind : Kind) :
    t.used kind ≤ t.grant kind := by
  induction groups generalizing k left with
  | nil => cases h
  | cons group rest ih =>
    rcases mem_cons.mp h with rfl | h
    · exact run_used _ _ _ _ kind
    · exact ih h

theorem settle_grant {j : Nat} (h : (s.settle w req k groups left)[j]? = some t) :
    t.grant = ((s.settle w req k groups left).take j).foldl
      (fun left t => consume left t.used) left := by
  induction groups generalizing k j left with
  | nil => simp [settle] at h
  | cons group rest ih =>
    cases j with
    | zero =>
      obtain rfl : s.run (w.line k) req group left = t := by simpa [settle] using h
      rfl
    | succ j => exact ih (by simpa [settle] using h)

/-- Nothing is lost or made up, and no subtraction wraps around. -/
theorem conserved {j : Nat} (kind : Kind) {ts : List Settlement}
    (hts : ts = s.settle w req k groups (fullBudget s.maxReadBytes)) (hj : j ≤ ts.length) :
    (s.remaining (ts.take j) kind).toNat + settledSum (ts.take j) kind = s.maxReadBytes := by
  induction j with
  | zero =>
    have hfits : s.maxReadBytes < 2 ^ 64 := Nat.lt_trans s.maxReadBytes_lt (by decide)
    show (UInt64.ofNat s.maxReadBytes).toNat + 0 = s.maxReadBytes
    rw [UInt64.toNat_ofNat', Nat.mod_eq_of_lt hfits]
    rfl
  | succ j ih =>
    have hlt : j < ts.length := hj
    have hat : ts[j]? = some ts[j] := getElem?_eq_getElem hlt
    have hgrant : ts[j].grant = s.remaining (ts.take j) := by
      subst hts
      exact settle_grant hat
    have hmem : ts[j] ∈ s.settle w req k groups (fullBudget s.maxReadBytes) := by
      rw [← hts]
      exact getElem_mem hlt
    have hle : ts[j].used kind ≤ s.remaining (ts.take j) kind := by
      rw [← hgrant]
      exact settle_mem_used hmem kind
    have hstep := ih (Nat.le_of_succ_le hj)
    have hsub : (s.remaining (ts.take j) kind - ts[j].used kind).toNat =
        (s.remaining (ts.take j) kind).toNat - (ts[j].used kind).toNat :=
      UInt64.toNat_sub_of_le _ _ hle
    have hle' : (ts[j].used kind).toNat ≤ (s.remaining (ts.take j) kind).toNat :=
      UInt64.le_iff_toNat_le.mp hle
    rw [take_succ_eq_append_getElem hlt, remaining_append]
    simp only [foldl_cons, foldl_nil, consume, hsub, settledSum, map_append,
      sum_append, map_cons, map_nil, sum_cons, sum_nil] at hstep ⊢
    omega

end Server

/-! ## The Engine's account -/

namespace Tracker

variable (t : Tracker)

theorem used_observe_self (kind : Kind) (used : Int) :
    (t.observe kind used).used kind = max (t.used kind) used := by
  simp [observe]

theorem used_le_observe (kind kind' : Kind) (used : Int) :
    t.used kind' ≤ (t.observe kind used).used kind' := by
  by_cases h : kind' = kind
  · subst h
    rw [used_observe_self]
    exact Int.le_max_left _ _
  · simp [observe, h]

theorem limits_nonneg (grant : Budget) (maximum : Nat) (kind : Kind) :
    0 ≤ (Tracker.new grant maximum).limits kind := by
  simp only [new]
  omega

end Tracker

/-- A budget that has accepted what it has given away, within the tracker's limit. -/
structure Metered.Within (t : Tracker) (b : Metered) : Prop where
  maximum : b.cell.maximum ≤ t.limits b.kind
  remaining : 0 ≤ b.cell.remaining
  sizes : ∀ size ∈ b.charged, 0 ≤ size
  charged : (b.charged.map (· + readOverhead)).sum = b.cell.maximum - b.cell.remaining
  observed : b.cell.maximum - b.cell.remaining ≤ t.used b.kind

/-- What a service can do with a tracker keeps it within its limits. -/
structure Meter.Within (limits : Kind → Int) (m : Meter) : Prop where
  fixed : m.tracker.limits = limits
  nonneg : ∀ kind, 0 ≤ limits kind
  used : ∀ kind, 0 ≤ m.tracker.used kind ∧ m.tracker.used kind ≤ limits kind
  budgets : ∀ b ∈ m.budgets, b.Within m.tracker

theorem Metered.Within.observe {t : Tracker} {b : Metered} (h : b.Within t) (kind : Kind)
    (used : Int) : b.Within (t.observe kind used) :=
  ⟨h.maximum, h.remaining, h.sizes, h.charged,
    Int.le_trans h.observed (t.used_le_observe kind b.kind used)⟩

theorem Metered.Within.reserve {t : Tracker} {b : Metered} (h : b.Within t) {size : Int}
    {cell : BudgetCell} (hcell : b.cell.reserve size = .ok cell) :
    cell.maximum - cell.remaining ≤ t.limits b.kind ∧
      Metered.Within (t.observe b.kind (cell.maximum - cell.remaining))
        ⟨b.kind, cell, b.charged ++ [size]⟩ := by
  obtain ⟨haccept, rfl⟩ := BudgetCell.reserve_ok hcell
  have hmax := h.maximum
  have hcharged := h.charged
  simp only [BudgetCell.refuses, readOverhead] at haccept
  refine ⟨?_, hmax, ?_, ?_, ?_, ?_⟩
  · simp only [BudgetCell.charge, readOverhead]
    omega
  · simp only [BudgetCell.charge, readOverhead]
    omega
  · intro x hx
    rcases mem_append.mp hx with hx | hx
    · exact h.sizes x hx
    · rw [mem_singleton.mp hx]
      omega
  · simp only [map_append, sum_append, hcharged, BudgetCell.charge, map_cons,
      map_nil, sum_cons, sum_nil]
    omega
  · rw [Tracker.used_observe_self]
    exact Int.le_max_right _ _

namespace Meter

variable {limits : Kind → Int} {m m' : Meter}

theorem Within.start (grant : Budget) (maximum : Nat) :
    (Meter.start grant maximum).Within (Tracker.new grant maximum).limits where
  fixed := rfl
  nonneg := Tracker.limits_nonneg grant maximum
  used kind := ⟨Int.le_refl 0, Tracker.limits_nonneg grant maximum kind⟩
  budgets := nofun

theorem Within.used_observe (h : m.Within limits) {kind : Kind} {used : Int}
    (hused : used ≤ limits kind) (kind' : Kind) :
    0 ≤ (m.tracker.observe kind used).used kind' ∧
      (m.tracker.observe kind used).used kind' ≤ limits kind' := by
  obtain ⟨hnonneg, hle⟩ := h.used kind'
  refine ⟨Int.le_trans hnonneg (m.tracker.used_le_observe kind kind' used), ?_⟩
  by_cases heq : kind' = kind
  · subst heq
    rw [Tracker.used_observe_self]
    omega
  · simpa [Tracker.observe, heq] using hle

theorem Within.step (h : m.Within limits) {charge : Charge} (hstep : m.step charge = some m') :
    m'.Within limits := by
  cases charge with
  | fresh kind maximum =>
    cases hstep
    refine ⟨h.fixed, h.nonneg, h.used, fun b hb => ?_⟩
    rcases mem_append.mp hb with hb | hb
    · exact h.budgets b hb
    rw [mem_singleton.mp hb]
    have hlimit := h.nonneg kind
    have hused := (h.used kind).1
    refine ⟨?_, ?_, nofun, ?_, ?_⟩ <;>
      simp only [Tracker.fresh, BudgetCell.newTracked, Tracker.limit, h.fixed,
        map_nil, sum_nil] <;> omega
  | reserve j size =>
    simp only [Meter.step, Meter.reserve] at hstep
    split at hstep
    · cases hstep
    rename_i b hb
    have hwithin := h.budgets b (mem_of_getElem? hb)
    split at hstep
    · cases hstep
      exact h
    rename_i cell hcell
    cases hstep
    obtain ⟨hle, hnew⟩ := hwithin.reserve hcell
    rw [h.fixed] at hle
    refine ⟨h.fixed, h.nonneg, h.used_observe hle, fun b' hb' => ?_⟩
    rcases mem_or_eq_of_mem_set hb' with hb' | rfl
    · exact (h.budgets b' hb').observe _ _
    · exact hnew
  | observe kind used maximum =>
    simp only [Meter.step] at hstep
    split at hstep
    · rename_i hused
      cases hstep
      rw [Tracker.limit, h.fixed] at hused
      refine ⟨h.fixed, h.nonneg, h.used_observe (by omega), fun b hb => ?_⟩
      exact (h.budgets b hb).observe kind used
    · cases hstep

variable {grant : Budget}

theorem within_run {maximum : Nat} {charges : List Charge}
    (hrun : Machine.run Meter.step (Meter.start grant maximum) charges = some m) :
    m.Within (Tracker.new grant maximum).limits :=
  Machine.run_invariant (fun _ _ _ h hstep => h.step hstep) (Within.start grant maximum) hrun

theorem Within.usage {maximum : Nat} (h : m.Within (Tracker.new grant maximum).limits)
    (kind : Kind) :
    ((m.tracker.usage kind).toNat : Int) = m.tracker.used kind ∧
      m.tracker.usage kind ≤ grant kind := by
  obtain ⟨hnonneg, hle⟩ := h.used kind
  have hgrant : m.tracker.used kind ≤ (grant kind).toNat := by
    simp only [Tracker.new] at hle
    omega
  have hsmall := (grant kind).toNat_lt
  have hexact : (m.tracker.usage kind).toNat = (m.tracker.used kind).toNat := by
    exact Nat.mod_eq_of_lt (by omega)
  refine ⟨by omega, UInt64.le_iff_toNat_le.mpr ?_⟩
  omega

end Meter

/-! ## Honest Engines -/

def documentSizes {σ : Shape} (results : List (Option σ.Result)) : List Int :=
  results.filterMap fun r => (r.bind getDocument).map Document.size

/-- The document of a result with its overhead. -/
def returnedBytes {σ : Shape} (r : σ.Result) : Nat :=
  match getDocument r with
  | none => 0
  | some document => document.payload.length + 128

namespace Engine

variable (e : Engine)

/-- The service uses its tracker as a meter. -/
def Charges : Prop :=
  ∀ request grant, ∃ charges m, Machine.run Meter.step (.start grant e.maximum) charges = some m ∧
    (e.service request (.new grant e.maximum)).tracker = m.tracker

/-- And the documents it returns for a read were accepted by one of its output budgets. -/
def Honest : Prop :=
  ∀ request grant, ∃ charges m, Machine.run Meter.step (.start grant e.maximum) charges = some m ∧
    (e.service request (.new grant e.maximum)).tracker = m.tracker ∧
      ∀ results, (e.service request (.new grant e.maximum)).response = .read results →
        documentSizes (σ := .read) results = [] ∨ ∃ b ∈ m.budgets, b.kind = .outputs ∧
          (documentSizes (σ := .read) results).Subperm b.charged

variable {e}

/-- The Gateway accepts every settlement of such an Engine. -/
theorem Charges.validUsage (h : e.Charges) (req : ForwardRequest) :
    Server.validUsage (getBudget req.grant) (getBudget (e.forward req).used) = true := by
  refine Server.validUsage_iff.mpr fun kind => ?_
  unfold forward
  split
  · exact UInt64.zero_le
  rename_i request _
  obtain ⟨charges, m, hrun, htracker⟩ := h request (getBudget req.grant)
  have husage := ((Meter.within_run hrun).usage kind).2
  rw [← htracker] at husage
  exact husage

theorem sum_le_of_subperm {l l' : List Int} (h : l.Subperm l') (hl' : ∀ x ∈ l', 0 ≤ x) :
    (l.map (· + readOverhead)).sum ≤ (l'.map (· + readOverhead)).sum := by
  obtain ⟨l₀, hperm, hsub⟩ := h
  rw [← (hperm.map _).sum_eq]
  refine (hsub.map _).sum_le_sum (forall_mem_map.mpr fun x hx => ?_)
  exact Int.add_nonneg (hl' x hx) (by decide)

theorem Honest.documents (h : e.Honest) (req : ForwardRequest) :
    ((documentSizes ((e.forward req).results .read)).map (· + readOverhead)).sum ≤
      ((getBudget (e.forward req).used .outputs).toNat : Int) := by
  unfold forward
  dsimp only
  split
  · exact Int.natCast_nonneg _
  rename_i request _
  obtain ⟨charges, m, hrun, htracker, hdocuments⟩ := h request (getBudget req.grant)
  have hwithin := Meter.within_run hrun
  generalize e.service request (.new (getBudget req.grant) e.maximum) = served
    at htracker hdocuments
  obtain ⟨err, response, tracker⟩ := served
  obtain rfl : tracker = m.tracker := htracker
  change _ ≤ ((m.tracker.usage .outputs).toNat : Int)
  rw [(hwithin.usage .outputs).1]
  cases response with
  | write results => exact (hwithin.used .outputs).1
  | delete results => exact (hwithin.used .outputs).1
  | read results =>
    change ((documentSizes (σ := .read) results).map (· + readOverhead)).sum ≤ _
    rcases hdocuments results rfl with hnil | ⟨b, hb, hkind, hsub⟩
    · rw [hnil]
      exact (hwithin.used .outputs).1
    have hbudget := hwithin.budgets b hb
    have hsum := sum_le_of_subperm hsub hbudget.sizes
    rw [hbudget.charged] at hsum
    exact Int.le_trans hsum (hkind ▸ hbudget.observed)

end Engine

/-! ## The documents of a read -/

namespace Server

variable {s : Server} {w : World} {σ : Shape}

/-- The reply has no response, or is the reply of an honest Engine. -/
def Settlement.Honest (t : Settlement) : Prop :=
  ∀ reply, t.answer = .ok reply → reply.response = none ∨
    ∃ (e : Engine) (req : ForwardRequest), e.Honest ∧ reply = e.forward req

theorem sum_returnedBytes (results : List σ.Result) :
    ((results.map returnedBytes).sum : Int) =
      ((documentSizes (results.map some)).map (· + readOverhead)).sum := by
  induction results with
  | nil => rfl
  | cons r rest ih =>
    cases hdocument : getDocument r with
    | none => simpa [documentSizes, returnedBytes, hdocument] using ih
    | some document =>
      simp [documentSizes, returnedBytes, hdocument, Document.size, readOverhead, ih]

/-- What an honest sub-reply adds to the response is within what it settles. -/
theorem Settlement.Honest.fills {t : Settlement} (h : t.Honest) (hσ : σ = .read) :
    ((t.fills σ).map fun slot => returnedBytes slot.2).sum ≤ (t.used .outputs).toNat := by
  subst hσ
  rcases t.fills_cases .read with ⟨results, ⟨reply, hanswer, -, hsource, -⟩, hfills⟩ | ⟨err, hfills⟩
  · have hslots : (fun slot => returnedBytes slot.2) ∘ slotOf (σ := .read) t.group.members =
        returnedBytes := by
      funext r
      simp only [comp_apply, slotOf, returnedBytes, getDocument_renumber]
    rw [hfills, map_map, hslots]
    have hsum := sum_returnedBytes (σ := .read) results
    rw [← hsource] at hsum
    rw [Settlement.used, hanswer]
    rcases h reply hanswer with hnone | ⟨e, req, he, rfl⟩
    · simp only [ForwardResponse.results, hnone] at hsum
      have hzero : ((results.map (returnedBytes (σ := .read))).sum : Int) = 0 := hsum
      omega
    · have hdocuments := he.documents req
      rw [← hsum] at hdocuments
      exact Int.ofNat_le.mp hdocuments
  · rw [hfills]
    simp [failRecords, returnedBytes, comp_def]

section

variable {req : Incoming} {response : List (Option req.request.shape.Result)}

/-- The document bytes of result `i`. -/
def returnedAt (response : List (Option σ.Result)) (i : Nat) : Nat :=
  match response[i]? with
  | some (some r) => returnedBytes r
  | _ => 0

theorem members_returned (h : s.records w req = .ok response) {t : Settlement}
    (ht : t ∈ s.settlements w req.request (s.plan w req.request.addresses).groups) :
    (t.group.members.map (returnedAt response)).sum =
      ((t.fills req.request.shape).map fun slot => returnedBytes slot.2).sum := by
  have hkeys := t.fills_keys req.request.shape
  rw [← (hkeys.map _).sum_eq, map_map]
  refine congrArg sum (map_congr_left fun slot hslot => ?_)
  have hmem : slot.1 ∈ t.group.members := hkeys.subset (mem_map_of_mem hslot)
  have hat := records_slot h (mem_fills.mpr (.inr ⟨t, ht, hslot⟩)) (member_lt ht hmem)
  simp only [comp_apply, returnedAt, hat, returnedBytes, getDocument_boundFailure]

/-- The honest sub-replies among those of a read. -/
theorem sublist_returned (h : s.records w req = .ok response)
    (hread : req.request.shape = .read) {ts : List Settlement}
    (hts : ts.Sublist (s.settlements w req.request (s.plan w req.request.addresses).groups))
    (hhonest : ∀ t ∈ ts, t.Honest) :
    ((ts.flatMap fun t => t.group.members).map (returnedAt response)).sum ≤
      settledSum ts .outputs := by
  have hmem : ∀ t ∈ ts, t ∈ s.settlements w req.request (s.plan w req.request.addresses).groups :=
    fun t ht => hts.subset ht
  clear hts
  induction ts with
  | nil => exact Nat.le_refl 0
  | cons t ts ih =>
    have hrest := ih (forall_mem_cons.mp hhonest).2
      (forall_mem_cons.mp hmem).2
    have hfirst := (hhonest t mem_cons_self).fills hread
    rw [← members_returned h (hmem t mem_cons_self)] at hfirst
    simp only [settledSum, flatMap_cons, map_append, sum_append, map_cons, sum_cons] at hrest ⊢
    omega

end

theorem settledSum_sublist {ts ts' : List Settlement} (h : ts.Sublist ts') (kind : Kind) :
    settledSum ts kind ≤ settledSum ts' kind :=
  (h.map _).sum_le_sum fun _ _ => Nat.zero_le _

theorem budget_spans_engines (s : Server) (w : World) (req : Incoming)
    (hsequential : parallel req.request (s.plan w req.request.addresses).groups = false) :
    let settled := s.settlements w req.request (s.plan w req.request.addresses).groups
    -- what is left and what was settled add up, and each grant is what is left
    (∀ kind, ∀ k ≤ settled.length,
      (s.remaining (settled.take k) kind).toNat + settledSum (settled.take k) kind =
        s.maxReadBytes) ∧
    (∀ (k : Nat) (t : Settlement), settled[k]? = some t → t.grant = s.remaining (settled.take k)) ∧
    -- a service that charges its tracker reports a usage within the grant
    (∀ grant maximum charges m,
      Machine.run Meter.step (Meter.start grant maximum) charges = some m →
        ∀ kind, m.tracker.usage kind ≤ grant kind) ∧
    (∀ (e : Engine) (sub : ForwardRequest), e.Charges →
      validUsage (getBudget sub.grant) (getBudget (e.forward sub).used) = true) ∧
    -- so the documents of honest Engines fit into the budget
    (∀ response, s.records w req = .ok response → req.request.shape = .read →
      ∀ ts : List Settlement, ts.Sublist settled → (∀ t ∈ ts, t.Honest) →
        ((ts.flatMap fun t => t.group.members).map (returnedAt response)).sum ≤
          s.maxReadBytes) := by
  intro settled
  have hsettled : settled = s.settle w req.request 0 (s.plan w req.request.addresses).groups
      (fullBudget s.maxReadBytes) := by
    show s.settlements w req.request _ = _
    rw [settlements, hsequential]
    rfl
  refine ⟨fun kind k hk => conserved kind hsettled hk, fun k t ht => ?_,
    fun grant maximum charges m hrun kind => ((Meter.within_run hrun).usage kind).2,
    fun e sub he => he.validUsage sub, fun response h hread ts hts hhonest => ?_⟩
  · rw [hsettled] at ht ⊢
    exact settle_grant ht
  · have hreturned := sublist_returned h hread hts hhonest
    have hsub := settledSum_sublist hts .outputs
    have hall := conserved .outputs hsettled (Nat.le_refl settled.length)
    rw [take_length] at hall
    omega

/-- A read of two Engines: of the 1000 bytes the first uses 600, and the reply of
the second is lost, so the other 400 count as used. -/
theorem budget_spans_engines_lost_reply :
    let s : Server := { plain with
      codec := { plain.codec with store := Address.uri }
      routes := fun store => some ⟨store, lit "e:1", true, [], []⟩ }
    let req : Incoming := ⟨.read ⟨[some ⟨lit "a"⟩, some ⟨lit "b"⟩]⟩, by decide⟩
    let w : World := { World.replying fun sub =>
        if sub.store = lit "a" then .ok ⟨version, sub.store, some fun _ => 600, 0, [], false,
          some (.read [some ⟨0, .notFound, none, none, none⟩])⟩
        else .error (status Code.unavailable "lost") with
      discovered := fun _ route => .ok [route.store] }
    let settled := s.settlements w req.request (s.plan w req.request.addresses).groups
    settled.map (fun t => (t.grant .outputs, t.used .outputs)) = [(1000, 600), (400, 400)] ∧
      (s.remaining settled .outputs).toNat + settledSum settled .outputs = 1000 := by
  intro s req w settled
  have h := budget_spans_engines s w req rfl
  exact ⟨by decide +kernel +zetaReduce, h.1 .outputs 2 (Nat.le_refl 2)⟩

end Server

end Sink.Gateway
