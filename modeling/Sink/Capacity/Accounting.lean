import Sink.Capacity.Pool
import Sink.Lib.Ledger

/-!
# The books of the pool

`Balanced` says that the pool's counters are the sums of its leases, and
`Bounded` that the reserve belongs to one owner at most. Every function of
the pool that moves bytes does so by `charge`, so the sums are checked once;
granting and releasing then only have to account for the reserve. `Good`
puts both together.
-/

namespace Sink.Capacity

open Ledger Function

namespace Pool

variable {p : Pool}

/-! ## What the functions leave alone -/

section

variable (l : Nat) (b : Int)

@[simp] theorem charge_normal : (p.charge l b).normal = p.normal := rfl
@[simp] theorem charge_used : (p.charge l b).used = p.used + b := rfl
@[simp] theorem charge_burstOwner : (p.charge l b).burstOwner = p.burstOwner := rfl

@[simp] theorem charge_ownerOf (l' : Nat) : (p.charge l b).ownerOf l' = p.ownerOf l' := by
  unfold ownerOf charge
  by_cases h : l' = l
  · subst h
    simp
  · simp [h]

theorem charge_ownerBytes (o : Nat) :
    (p.charge l b).ownerBytes o = p.ownerBytes o + if p.ownerOf l = o then b else 0 := by
  unfold charge
  by_cases h : p.ownerOf l = o
  · subst h
    simp
  · simp [h, update_of_ne (Ne.symm h)]

theorem charge_lease (l' : Nat) :
    (p.charge l b).lease l' =
      { p.lease l' with bytes := (p.lease l').bytes + if l' = l then b else 0 } := by
  unfold charge
  by_cases h : l' = l
  · subst h
    simp
  · simp [h]

end

section

variable (w : Waiter)

@[simp] theorem grant_total : (p.grant w).total = p.total := rfl
@[simp] theorem grant_normal : (p.grant w).normal = p.normal := rfl
@[simp] theorem grant_used : (p.grant w).used = p.used + w.bytes := rfl
@[simp] theorem grant_leases : (p.grant w).leases = p.leases := rfl
@[simp] theorem grant_owners : (p.grant w).owners = p.owners := rfl

theorem grant_burstOwner : (p.grant w).burstOwner =
    if p.used + w.bytes > p.normal then some (p.ownerOf w.lease) else p.burstOwner := rfl

@[simp] theorem grant_ownerOf (l : Nat) : (p.grant w).ownerOf l = p.ownerOf l :=
  charge_ownerOf w.lease w.bytes l

theorem grant_lease (l : Nat) : (p.grant w).lease l =
    { p.lease l with bytes := (p.lease l).bytes + if l = w.lease then w.bytes else 0 } :=
  charge_lease w.lease w.bytes l

end

/-- A change of a lease that keeps a field keeps it for every lease. -/
theorem setLease_field {γ : Type} (field : Lease → γ) {f : Lease → Lease}
    (hf : ∀ lease, field (f lease) = field lease) (l l' : Nat) :
    field ((p.setLease l f).lease l') = field (p.lease l') := by
  unfold setLease
  by_cases h : l' = l
  · subst h
    simpa using hf (p.lease l')
  · simp [h]

/-! ## Balanced books -/

/-- The counters are the sums over the leases, and no lease is overdrawn. -/
structure Balanced (p : Pool) : Prop where
  owned : ∀ l < p.leases, p.ownerOf l < p.owners
  used : p.used = tally (·.bytes) p.leases p.lease
  opaqueBytes : p.opaqueBytes =
    tally (fun l => if l.isOpaque then l.bytes else 0) p.leases p.lease
  ownerBytes : ∀ o, p.ownerBytes o =
    tally (fun l => if l.owner = o then l.bytes else 0) p.leases p.lease
  nonneg : ∀ l < p.leases, 0 ≤ (p.lease l).bytes

namespace Balanced

section

variable (h : p.Balanced)

include h

theorem ownerBytes_nonneg (o : Nat) : 0 ≤ p.ownerBytes o := by
  rw [h.ownerBytes]
  refine tally_nonneg fun l hl => ?_
  have hl' := h.nonneg l hl
  split <;> omega

theorem used_nonneg : 0 ≤ p.used := by
  rw [h.used]
  exact tally_nonneg h.nonneg

/-- What is used is what the owners use together. -/
theorem used_owners : p.used = ∑ o ∈ Finset.range p.owners, p.ownerBytes o := by
  rw [h.used, ← tally_owners Lease.owner h.owned]
  exact Finset.sum_congr rfl fun o _ => (h.ownerBytes o).symm

/-- Charging a lease, or crediting it down to nothing, moves every sum alike. -/
theorem charge {l : Nat} (hl : l < p.leases) {b : Int} (hb : 0 ≤ (p.lease l).bytes + b) :
    (p.charge l b).Balanced where
  owned l' hl' := by
    rw [charge_ownerOf]
    exact h.owned l' hl'
  used := by
    show p.used + b = tally _ p.leases (update p.lease l _)
    rw [tally_update hl, h.used]
    dsimp only
    omega
  opaqueBytes := by
    show (if (p.lease l).isOpaque then _ else _) = tally _ p.leases (update p.lease l _)
    rw [tally_update hl, h.opaqueBytes]
    cases (p.lease l).isOpaque <;> simp
  ownerBytes o := by
    rw [charge_ownerBytes]
    show _ = tally _ p.leases (update p.lease l _)
    rw [tally_update hl, h.ownerBytes]
    unfold ownerOf
    dsimp only
    split <;> omega
  nonneg l' hl' := by
    rw [charge_lease]
    have hl'' := h.nonneg l' hl'
    dsimp only
    split
    · rename_i heq
      rwa [heq]
    · omega

/-- A change that keeps bytes, owner and mark is no booking. -/
theorem setLease (l : Nat) {f : Lease → Lease} (hbytes : ∀ lease, (f lease).bytes = lease.bytes)
    (howner : ∀ lease, (f lease).owner = lease.owner)
    (hmarked : ∀ lease, (f lease).isOpaque = lease.isOpaque) : (p.setLease l f).Balanced := by
  have hb := setLease_field (p := p) Lease.bytes hbytes l
  have ho := setLease_field (p := p) Lease.owner howner l
  have hq := setLease_field (p := p) Lease.isOpaque hmarked l
  constructor
  · intro l' hl'
    show ((p.setLease l f).lease l').owner < p.owners
    rw [ho]
    exact h.owned l' hl'
  · exact h.used.trans (tally_congr fun l' => (hb l').symm)
  · refine h.opaqueBytes.trans (tally_congr fun l' => ?_)
    simp only [hb, hq]
  · refine fun o => (h.ownerBytes o).trans (tally_congr fun l' => ?_)
    simp only [hb, ho]
  · intro l' hl'
    rw [hb]
    exact h.nonneg l' hl'

theorem newOwner : p.newOwner.Balanced where
  owned l hl := Nat.lt_succ_of_lt (h.owned l hl)
  used := h.used
  opaqueBytes := h.opaqueBytes
  ownerBytes o := by
    show update p.ownerBytes p.owners 0 o = tally _ p.leases p.lease
    by_cases ho : o = p.owners
    · subst ho
      rw [update_self, tally_eq_zero]
      intro l hl
      have hown := h.owned l hl
      unfold ownerOf at hown
      rw [if_neg (by omega)]
    · rw [update_of_ne ho, h.ownerBytes]
  nonneg := h.nonneg

theorem newLease {owner : Nat} (howner : owner < p.owners) : (p.newLease owner).Balanced where
  owned l hl := by
    show ((update p.lease p.leases _) l).owner < p.owners
    by_cases hl' : l = p.leases
    · subst hl'
      simpa using howner
    rw [update_of_ne hl']
    have hlt : l < p.leases + 1 := hl
    exact h.owned l (by omega)
  used := by
    show p.used = tally _ (p.leases + 1) (update p.lease p.leases _)
    rw [tally_alloc, h.used]
    simp
  opaqueBytes := by
    show p.opaqueBytes = tally _ (p.leases + 1) (update p.lease p.leases _)
    rw [tally_alloc, h.opaqueBytes]
    simp
  ownerBytes o := by
    show p.ownerBytes o = tally _ (p.leases + 1) (update p.lease p.leases _)
    rw [tally_alloc, h.ownerBytes]
    simp
  nonneg l hl := by
    show 0 ≤ ((update p.lease p.leases _) l).bytes
    by_cases hl' : l = p.leases
    · subst hl'
      simp
    rw [update_of_ne hl']
    have hlt : l < p.leases + 1 := hl
    exact h.nonneg l (by omega)

/-- Marking a lease adds its bytes to the opaque ones, once. -/
theorem markOpaque {l : Nat} (hl : l < p.leases) : (p.markOpaque l).Balanced := by
  unfold Pool.markOpaque
  split
  · exact h
  rename_i hclear
  have hb := setLease_field (p := p) (f := fun lease => { lease with isOpaque := true })
    Lease.bytes (fun _ => rfl) l
  have ho := setLease_field (p := p) (f := fun lease => { lease with isOpaque := true })
    Lease.owner (fun _ => rfl) l
  constructor
  · exact fun l' hl' => lt_of_eq_of_lt (ho l') (h.owned l' hl')
  · exact h.used.trans (tally_congr fun l' => (hb l').symm)
  · show p.opaqueBytes + _ = tally _ p.leases (update p.lease l _)
    rw [tally_update hl, h.opaqueBytes]
    simp [hclear]
  · refine fun o => (h.ownerBytes o).trans (tally_congr fun l' => ?_)
    simp only [hb, ho]
  · exact fun l' hl' => (h.nonneg l' hl').trans_eq (hb l').symm

end

end Balanced

/-! ## The reserve -/

/-- The pool is never overfull, and only one owner is in the reserve. -/
structure Bounded (p : Pool) : Prop where
  normal_nonneg : 0 ≤ p.normal
  normal_le : p.normal ≤ p.total
  used_le : p.used ≤ p.total
  burst_iff : p.burstOwner.isSome ↔ p.used > p.normal
  burst_bound : ∀ o, p.burstOwner = some o → p.used - p.ownerBytes o ≤ p.normal

structure Good (p : Pool) : Prop extends Balanced p, Bounded p

namespace Good

theorem used_le_normal (h : p.Good) (hburst : p.burstOwner = none) : p.used ≤ p.normal := by
  have hiff := h.burst_iff
  simp only [hburst, Option.isSome_none, Bool.false_eq_true, false_iff] at hiff
  omega

theorem normal_lt_used (h : p.Good) {o : Nat} (hburst : p.burstOwner = some o) :
    p.normal < p.used :=
  h.burst_iff.mp (by simp [hburst])

/-- While somebody else is in the reserve, nothing fits. -/
theorem fits (h : p.Good) {w : Waiter} (hw : 0 < w.bytes) (hfit : p.blocked w = false) :
    p.used + w.bytes ≤ p.limit w.phase (p.ownerOf w.lease) ∧
      (p.burstOwner = none ∨ p.burstOwner = some (p.ownerOf w.lease)) := by
  have hle : p.used + w.bytes ≤ p.limit w.phase (p.ownerOf w.lease) := by
    have hle := of_decide_eq_false hfit
    omega
  refine ⟨hle, ?_⟩
  cases hburst : p.burstOwner with
  | none => exact .inl rfl
  | some o =>
    refine .inr ?_
    have hlt := h.normal_lt_used hburst
    by_contra hne
    have hlimit : p.limit w.phase (p.ownerOf w.lease) = p.normal := by
      unfold limit
      rw [if_neg]
      rintro ⟨-, hcase⟩
      rw [hburst] at hcase
      exact hcase.elim (fun h => nomatch h) hne
    omega

theorem limit_le_total (h : p.Good) (phase : Phase) (o : Nat) : p.limit phase o ≤ p.total := by
  have hle := h.normal_le
  unfold limit
  split <;> omega

/-- A waiter that fits is granted within the books: it stays below the reserve
or is alone in it. -/
theorem grant (h : p.Good) {w : Waiter} (hl : w.lease < p.leases) (hw : 0 < w.bytes)
    (hfit : p.blocked w = false) : (p.grant w).Good := by
  obtain ⟨hle, hburst⟩ := h.fits hw hfit
  have hbal := h.toBalanced.charge hl (b := w.bytes) (by have hnn := h.nonneg _ hl; omega)
  have hlimit := h.limit_le_total w.phase (p.ownerOf w.lease)
  have hown : (p.grant w).ownerBytes (p.ownerOf w.lease) =
      p.ownerBytes (p.ownerOf w.lease) + w.bytes := by
    have hc := charge_ownerBytes (p := p) w.lease w.bytes (p.ownerOf w.lease)
    rwa [if_pos rfl] at hc
  refine ⟨⟨hbal.owned, hbal.used, hbal.opaqueBytes, hbal.ownerBytes, hbal.nonneg⟩,
    ⟨h.normal_nonneg, h.normal_le, ?_, ?_, ?_⟩⟩
  · rw [grant_used, grant_total]
    omega
  · rw [grant_burstOwner, grant_used, grant_normal]
    split
    · simpa
    have hnone : p.burstOwner = none := by
      cases hb : p.burstOwner with
      | none => rfl
      | some o =>
        have hlt := h.normal_lt_used hb
        omega
    simp [hnone]
    omega
  · intro o ho
    rw [grant_burstOwner] at ho
    rw [grant_used, grant_normal]
    split at ho
    · cases ho
      have hnn := h.ownerBytes_nonneg (p.ownerOf w.lease)
      rcases hburst with hnone | hsome
      · have hused := h.used_le_normal hnone
        omega
      · have hbound := h.burst_bound _ hsome
        omega
    · have hlt := h.normal_lt_used ho
      omega

/-- A release takes no more than the lease has, and the reserve is left when the
rest fits without it. -/
theorem releaseLocked (h : p.Good) {l : Nat} (hl : l < p.leases) {b : Int} (hb : 0 ≤ b)
    (hle : b ≤ (p.lease l).bytes) : (p.releaseLocked l b).Good := by
  have hbal := h.toBalanced.charge hl (b := -b) (by omega)
  have hbytes := charge_ownerBytes (p := p) l (-b)
  have hbound : p.used - b ≤ p.total := by
    have hused := h.used_le
    omega
  unfold Pool.releaseLocked
  dsimp only
  split
  · rename_i hcase
    refine ⟨⟨hbal.owned, hbal.used, hbal.opaqueBytes, hbal.ownerBytes, hbal.nonneg⟩,
      ⟨h.normal_nonneg, h.normal_le, hbound, ?_, fun o ho => nomatch ho⟩⟩
    -- a burst owner that holds nothing leaves only ordinary bytes
    have hused : p.used - b ≤ p.normal := by
      rcases hcase with hcase | ⟨hburst, hzero⟩
      · exact hcase
      rw [charge_ownerOf, charge_burstOwner] at hburst
      rw [charge_ownerOf, hbytes, if_pos rfl] at hzero
      have hlim := h.burst_bound _ hburst
      omega
    simp
    omega
  · rename_i hcase
    rw [not_or] at hcase
    have hmore : p.normal < p.used - b := not_le.mp hcase.1
    refine ⟨hbal, ⟨h.normal_nonneg, h.normal_le, hbound, ?_, ?_⟩⟩
    · show p.burstOwner.isSome = true ↔ p.used + -b > p.normal
      rw [h.burst_iff]
      constructor <;> intro <;> omega
    · intro o ho
      have hlim := h.burst_bound o ho
      show p.used + -b - (p.charge l (-b)).ownerBytes o ≤ p.normal
      rw [hbytes]
      split <;> omega

end Good

end Pool

end Sink.Capacity
