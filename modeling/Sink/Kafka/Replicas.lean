import Mathlib.Data.List.GetD
import Mathlib.Data.List.Perm.Subperm

/-!
# Replicas of a partition

`desiredReplicas` of `kafka/topics.go`, which the reconciliation of replication
factors asks for the new assignment of every partition that has the wrong number
of replicas. It keeps the replicas whose brokers still exist and fills up with
the others, beginning at a broker that depends on the partition.

Both loops append brokers that were not selected before and end when there are
enough. So they take the first `count` of the distinct brokers they come to
(`selectReplicas_eq`), and what is selected first is given up last.
-/

namespace Sink.Kafka

open List

/-- Both loops: append what is not selected, up to `count`. The flag says that
the count was reached; `selected` has the members of `replicas`. -/
def selectReplicas (count : Nat) : List Int32 → List Int32 → List Int32 × Bool
  | [], replicas => (replicas, false)
  | broker :: rest, replicas =>
    if broker ∈ replicas then selectReplicas count rest replicas
    else if (replicas ++ [broker]).length = count then (replicas ++ [broker], true)
    else selectReplicas count rest (replicas ++ [broker])

/-- `brokers[(start+offset)%len(brokers)]`. -/
def brokerAt (brokers : List Int32) (start : Int) (offset : Nat) : Int32 :=
  brokers.getD ((start + offset).tmod brokers.length).toNat 0

def desiredReplicas (partition : Int32) (current brokers : List Int32) (count : Nat) :
    List Int32 :=
  -- brokers that do not exist are skipped
  match selectReplicas count (current.filter (· ∈ brokers)) [] with
  | (replicas, true) => replicas
  | (replicas, false) =>
    let start := partition.toInt.tmod brokers.length
    (selectReplicas count ((range brokers.length).map (brokerAt brokers start)) replicas).1

/-! ## The loops -/

variable {count : Nat} {broker : Int32} {replicas : List Int32}

/-- What is not selected yet, each once and in order. -/
def fresh (replicas brokers : List Int32) : List Int32 :=
  (brokers.filter (· ∉ replicas)).eraseDups

theorem fresh_cons_of_mem (h : broker ∈ replicas) (rest : List Int32) :
    fresh replicas (broker :: rest) = fresh replicas rest := by
  rw [fresh, filter_cons_of_neg (by simpa using h), fresh]

theorem fresh_cons (h : broker ∉ replicas) (rest : List Int32) :
    fresh replicas (broker :: rest) = broker :: fresh (replicas ++ [broker]) rest := by
  rw [fresh, filter_cons_of_pos (by simpa using h), eraseDups_cons, filter_filter, fresh]
  congr 3
  funext other
  rw [Bool.eq_iff_iff]
  simp [and_comm]

theorem nodup_append_fresh (h : replicas.Nodup) (brokers : List Int32) :
    (replicas ++ fresh replicas brokers).Nodup := by
  induction brokers generalizing replicas with
  | nil => simpa [fresh] using h
  | cons broker rest ih =>
    by_cases hmem : broker ∈ replicas
    · rw [fresh_cons_of_mem hmem]
      exact ih h
    have hnext : (replicas ++ [broker]).Nodup :=
      (perm_append_singleton broker replicas).nodup_iff.mpr (nodup_cons.mpr ⟨hmem, h⟩)
    rw [fresh_cons hmem, append_cons replicas broker]
    exact ih hnext

/-- A loop takes the first of the distinct brokers it comes to. -/
theorem selectReplicas_eq (h : replicas.length < count) (brokers : List Int32) :
    selectReplicas count brokers replicas =
      ((replicas ++ fresh replicas brokers).take count,
        decide (count ≤ (replicas ++ fresh replicas brokers).length)) := by
  induction brokers generalizing replicas with
  | nil =>
    have hnone : replicas ++ fresh replicas [] = replicas := append_nil replicas
    rw [selectReplicas, hnone, take_of_length_le (Nat.le_of_lt h), decide_eq_false (by omega)]
  | cons broker rest ih =>
    rw [selectReplicas]
    split
    · rename_i hmem
      rw [fresh_cons_of_mem hmem]
      exact ih h
    · rename_i hmem
      rw [fresh_cons hmem, append_cons replicas broker (fresh _ _)]
      split
      · rename_i hfull
        rw [take_left' hfull, decide_eq_true (by rw [length_append, hfull]; omega)]
      rename_i hroom
      refine ih (Nat.lt_of_le_of_ne ?_ hroom)
      rw [length_append, length_singleton]
      exact h

/-! ## Reassignments -/

/-- Every broker is come to, wherever the second loop starts. -/
theorem mem_rotated {brokers : List Int32} {start : Int} (hstart : 0 ≤ start)
    (hlt : start < brokers.length) (hmem : broker ∈ brokers) :
    broker ∈ (range brokers.length).map (brokerAt brokers start) := by
  obtain ⟨i, hi, rfl⟩ := mem_iff_getElem.mp hmem
  have hfound : ∀ offset : Nat, start + offset = i ∨ start + offset = i + brokers.length →
      brokerAt brokers start offset = brokers[i] := by
    intro offset hsum
    have hindex : (start + offset).tmod brokers.length = i := by
      rw [Int.tmod_eq_emod_of_nonneg (by omega)]
      rcases hsum with hsum | hsum <;> rw [hsum]
      · exact Int.emod_eq_of_lt (by omega) (by omega)
      · rw [Int.add_emod_right, Int.emod_eq_of_lt (by omega) (by omega)]
    rw [brokerAt, hindex, Int.toNat_natCast, getD_eq_getElem _ _ hi]
  by_cases hle : start ≤ i
  · exact mem_map.mpr ⟨(i - start).toNat, mem_range.mpr (by omega), hfound _ (.inl (by omega))⟩
  · exact mem_map.mpr ⟨(i + brokers.length - start).toNat, mem_range.mpr (by omega),
      hfound _ (.inr (by omega))⟩

/-- The current replicas that can stay, each once. -/
def survivors (current brokers : List Int32) : List Int32 :=
  (current.filter (· ∈ brokers)).eraseDups

theorem fresh_nil (brokers : List Int32) : fresh [] brokers = brokers.eraseDups := by
  simp [fresh]

/-- The new replicas are the first of the survivors and then of all brokers. -/
theorem desiredReplicas_eq {partition : Int32} (hpartition : 0 ≤ partition.toInt)
    (current : List Int32) {brokers : List Int32} (hpos : 1 ≤ count)
    (hle : count ≤ brokers.length) :
    ∃ all, survivors current brokers <+: all ∧ all.Nodup ∧ all ⊆ brokers ∧
      (count ≤ (survivors current brokers).length ∨ brokers ⊆ all) ∧
      desiredReplicas partition current brokers count = all.take count := by
  have hsurvivors : survivors current brokers =
      [] ++ fresh [] (current.filter (· ∈ brokers)) := (fresh_nil _).symm
  have hnodup : (survivors current brokers).Nodup := by
    rw [hsurvivors]
    exact nodup_append_fresh nodup_nil _
  have hsub : survivors current brokers ⊆ brokers := by
    intro broker hmem
    simpa using (mem_filter.mp (mem_eraseDups.mp hmem)).2
  rw [desiredReplicas, selectReplicas_eq hpos, ← hsurvivors]
  by_cases hfull : count ≤ (survivors current brokers).length
  · rw [decide_eq_true hfull]
    exact ⟨_, prefix_refl _, hnodup, hsub, .inl hfull, rfl⟩
  rw [decide_eq_false hfull, take_of_length_le (by omega)]
  dsimp only
  rw [selectReplicas_eq (by omega)]
  have hlen : (0 : Int) < brokers.length := by omega
  refine ⟨_, prefix_append _ _, nodup_append_fresh hnodup _, ?_, .inr ?_, rfl⟩
  · refine append_subset.mpr ⟨hsub, ?_⟩
    intro broker hmem
    obtain ⟨offset, -, rfl⟩ := mem_map.mp (mem_filter.mp (mem_eraseDups.mp hmem)).1
    have hindex : ((partition.toInt.tmod brokers.length + offset).tmod brokers.length).toNat <
        brokers.length := by
      have := Int.tmod_lt_of_pos (partition.toInt.tmod brokers.length + offset) hlen
      omega
    rw [brokerAt, getD_eq_getElem _ _ hindex]
    exact getElem_mem _
  · intro broker hmem
    have hrotated := mem_rotated (Int.tmod_nonneg _ hpartition)
      (Int.tmod_lt_of_pos partition.toInt hlen) hmem
    by_cases hold : broker ∈ survivors current brokers
    · exact mem_append_left _ hold
    · refine mem_append_right _ (mem_eraseDups.mpr (mem_filter.mpr ⟨hrotated, ?_⟩))
      simpa using hold

/-- A reassignment has as many distinct existing brokers as asked for. The
survivors come first, and one is given up only if there are more than `count`. -/
theorem desiredReplicas_minimal {partition : Int32} (hpartition : 0 ≤ partition.toInt)
    (current : List Int32) {brokers : List Int32} (hdistinct : brokers.Nodup)
    (hpos : 1 ≤ count) (hle : count ≤ brokers.length) :
    (desiredReplicas partition current brokers count).length = count ∧
      (desiredReplicas partition current brokers count).Nodup ∧
      desiredReplicas partition current brokers count ⊆ brokers ∧
      (survivors current brokers).take count <+: desiredReplicas partition current brokers count ∧
      ∀ broker ∈ survivors current brokers,
        broker ∉ desiredReplicas partition current brokers count →
          count < (survivors current brokers).length := by
  obtain ⟨all, hprefix, hnodup, hsub, henough, heq⟩ :=
    desiredReplicas_eq hpartition current hpos hle
  have hlength : count ≤ all.length := by
    rcases henough with hsurvivors | hbrokers
    · exact Nat.le_trans hsurvivors hprefix.length_le
    · exact Nat.le_trans hle (hdistinct.subperm hbrokers).length_le
  have htake : (survivors current brokers).take count <+: all.take count := by
    obtain ⟨added, rfl⟩ := hprefix
    rw [take_append]
    exact prefix_append _ _
  rw [heq]
  refine ⟨?_, hnodup.sublist (take_sublist _ _), ?_, htake, ?_⟩
  · rw [length_take, Nat.min_eq_left hlength]
  · exact fun broker hmem => hsub (mem_of_mem_take hmem)
  · intro broker hmem hdropped
    by_contra hfew
    rw [take_of_length_le (Nat.le_of_not_lt hfew)] at htake
    exact hdropped (htake.subset hmem)

/-- An unknown broker and a repeated one in the current list. -/
theorem desiredReplicas_minimal_unknown :
    desiredReplicas 4 [9, 2, 2] [1, 2, 3] 2 = [2, 3] ∧ survivors [9, 2, 2] [1, 2, 3] = [2] ∧
      (desiredReplicas 4 [9, 2, 2] [1, 2, 3] 2).Nodup := by
  refine ⟨by decide, by decide, ?_⟩
  exact (desiredReplicas_minimal (by decide) _ (by decide) (by decide) (by decide)).2.1

end Sink.Kafka
