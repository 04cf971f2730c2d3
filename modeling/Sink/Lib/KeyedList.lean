import Mathlib.Data.List.Basic

/-!
# Maps as lists in key order

A finite map is kept as the list of its entries in strictly increasing key
order. The order makes the list canonical: two maps with the same entries are
equal lists (`Increasing.eq_of_perm`), so what was inserted in any order comes
out the same (`insertAll_of_perm`).
-/

namespace KeyedList

open List

variable {κ β : Type*}

section Order

variable [LT κ]
variable {entries : List (κ × β)}

/-- The entries are in strictly increasing key order. -/
def Increasing (entries : List (κ × β)) : Prop := entries.Pairwise fun a b => a.1 < b.1

theorem Increasing.keys_nodup [Std.Irrefl (fun a b : κ => a < b)] (h : Increasing entries) :
    (entries.map Prod.fst).Nodup := by
  refine pairwise_map.mpr (h.imp ?_)
  intro a b hlt heq
  rw [heq] at hlt
  exact Std.lt_irrefl hlt

theorem Increasing.of_keys {γ : Type*} {others : List (κ × γ)} (h : Increasing entries)
    (keys : entries.map Prod.fst = others.map Prod.fst) : Increasing others := by
  have hkeys : (entries.map Prod.fst).Pairwise (· < ·) := pairwise_map.mpr h
  rw [keys] at hkeys
  exact pairwise_map.mp hkeys

theorem Increasing.eq_of_perm [Std.Asymm (fun a b : κ => a < b)] {others : List (κ × β)}
    (h : Increasing entries) (ho : Increasing others) (perm : entries.Perm others) :
    entries = others := by
  refine perm.eq_of_pairwise ?_ h ho
  intro a b _ _ hab hba
  exact absurd hba (Std.Asymm.asymm _ _ hab)

variable [DecidableLT κ]

/-- The map with the value of one key set. -/
def insert (key : κ) (value : β) : List (κ × β) → List (κ × β)
  | [] => [(key, value)]
  | entry :: rest =>
    if key < entry.1 then (key, value) :: entry :: rest
    else if entry.1 < key then entry :: insert key value rest
    else (key, value) :: rest

/-- The map of a list of insertions. -/
def insertAll (entries : List (κ × β)) (list : List (κ × β)) : List (κ × β) :=
  list.foldl (fun map entry => insert entry.1 entry.2 map) entries

/-- The value of a key. -/
def lookup [DecidableEq κ] (key : κ) (entries : List (κ × β)) : Option β :=
  (entries.find? fun entry => entry.1 = key).map Prod.snd

variable {value : β}

theorem mem_insert {key : κ} {entry : κ × β} (h : entry ∈ insert key value entries) :
    entry = (key, value) ∨ entry ∈ entries := by
  induction entries with
  | nil => exact .inl (mem_singleton.mp h)
  | cons first rest ih =>
    simp only [insert] at h
    split at h
    · exact mem_cons.mp h
    split at h
    · rcases mem_cons.mp h with h | h
      · exact .inr (mem_cons.mpr (.inl h))
      · exact (ih h).imp_right (mem_cons_of_mem _)
    · exact (mem_cons.mp h).imp_right (mem_cons_of_mem _)

section Linear

variable [Std.Trichotomous (fun a b : κ => a < b)]
variable {entries : List (κ × β)}

theorem insert_perm {key : κ} (fresh : key ∉ entries.map Prod.fst) :
    (insert key value entries).Perm ((key, value) :: entries) := by
  induction entries with
  | nil => exact Perm.refl _
  | cons first rest ih =>
    simp only [insert]
    split
    · exact Perm.refl _
    rename_i hnot
    split
    · have hrest : key ∉ rest.map Prod.fst := fun h => fresh (mem_cons_of_mem _ h)
      exact ((ih hrest).cons first).trans (Perm.swap _ _ _)
    rename_i hngt
    have hkey : first.1 = key := Std.Trichotomous.trichotomous _ _ hngt hnot
    exact absurd (hkey ▸ mem_cons_self) fresh

variable [Trans (fun a b : κ => a < b) (fun a b : κ => a < b) (fun a b : κ => a < b)]

theorem Increasing.insert {key : κ} (h : Increasing entries) :
    Increasing (KeyedList.insert key value entries) := by
  induction entries with
  | nil => exact pairwise_singleton _ _
  | cons first rest ih =>
    obtain ⟨hfirst, hrest⟩ := pairwise_cons.mp h
    simp only [KeyedList.insert]
    split
    · rename_i hlt
      refine pairwise_cons.mpr ⟨?_, h⟩
      exact forall_mem_cons.mpr ⟨hlt, fun entry hmem => Std.lt_trans hlt (hfirst entry hmem)⟩
    · rename_i hnot
      split
      · rename_i hgt
        refine pairwise_cons.mpr ⟨?_, ih hrest⟩
        intro entry hmem
        rcases mem_insert hmem with rfl | hmem
        · exact hgt
        · exact hfirst entry hmem
      · rename_i hngt
        have hkey : first.1 = key := Std.Trichotomous.trichotomous _ _ hngt hnot
        refine pairwise_cons.mpr ⟨?_, hrest⟩
        intro entry hmem
        rw [← hkey]
        exact hfirst entry hmem

theorem Increasing.mem_insert_iff [Std.Irrefl (fun a b : κ => a < b)] {key : κ}
    {entry : κ × β} (h : Increasing entries) :
    entry ∈ KeyedList.insert key value entries ↔
      entry = (key, value) ∨ (entry ∈ entries ∧ entry.1 ≠ key) := by
  have hirrefl : ∀ a : κ, ¬a < a := fun _ => Std.lt_irrefl
  have htrans : ∀ {a b c : κ}, a < b → b < c → a < c := fun h h' => Std.lt_trans h h'
  induction entries with
  | nil => simp [KeyedList.insert]
  | cons first rest ih =>
    obtain ⟨hfirst, hrest⟩ := pairwise_cons.mp h
    have ih := ih hrest
    simp only [KeyedList.insert]
    split
    · grind
    rename_i hnot
    split
    · grind
    rename_i hngt
    have hkey : first.1 = key := Std.Trichotomous.trichotomous _ _ hngt hnot
    grind

variable {list : List (κ × β)}

theorem insertAll_spec (h : Increasing entries) (fresh : ((entries ++ list).map Prod.fst).Nodup) :
    Increasing (insertAll entries list) ∧ (insertAll entries list).Perm (entries ++ list) := by
  induction list generalizing entries with
  | nil => exact ⟨h, by rw [append_nil]; exact Perm.refl _⟩
  | cons entry rest ih =>
    have hsplit : entry.1 ∉ entries.map Prod.fst := by
      rw [map_append, map_cons] at fresh
      intro hmem
      exact (nodup_append.mp fresh).2.2 entry.1 hmem entry.1 mem_cons_self rfl
    have hperm : (insert entry.1 entry.2 entries ++ rest).Perm (entries ++ entry :: rest) :=
      ((insert_perm hsplit).append_right rest).trans perm_middle.symm
    have hnodup : ((insert entry.1 entry.2 entries ++ rest).map Prod.fst).Nodup :=
      (hperm.map Prod.fst).nodup_iff.mpr fresh
    obtain ⟨hinc, hall⟩ := ih h.insert hnodup
    exact ⟨hinc, hall.trans hperm⟩

/-- Whatever the order of the insertions, the map is the increasing list. -/
theorem insertAll_of_perm [Std.Asymm (fun a b : κ => a < b)] (h : Increasing entries)
    (perm : list.Perm entries) : insertAll [] list = entries := by
  have hnodup : (([] ++ list).map Prod.fst).Nodup :=
    (perm.map Prod.fst).nodup_iff.mpr h.keys_nodup
  obtain ⟨hinc, hall⟩ := insertAll_spec Pairwise.nil hnodup
  exact hinc.eq_of_perm h (hall.trans perm)

end Linear

end Order

end KeyedList
