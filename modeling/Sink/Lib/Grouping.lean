import Mathlib.Data.List.Nodup

/-!
# Grouping by a key

`collect key l` distributes the elements of a list over groups, one for each
key, in the order in which the keys first occur. An element without a key is
in no group. `Groups` says what a list of groups is after the elements of
`l`: distinct keys, and each group is the part of `l` with its key, in the
order of `l` and not empty.
-/

namespace Grouping

open List Option

structure Group (κ α : Type) where
  key : κ
  members : List α
deriving Repr, DecidableEq

variable {κ α : Type} [DecidableEq κ]

/-- Append an element to the group of its key; a new key opens a group at the end. -/
def add (k : κ) (a : α) : List (Group κ α) → List (Group κ α)
  | [] => [⟨k, [a]⟩]
  | g :: rest => if g.key = k then ⟨k, g.members ++ [a]⟩ :: rest else g :: add k a rest

variable (key : α → Option κ)

def place (groups : List (Group κ α)) (a : α) : List (Group κ α) :=
  match key a with
  | none => groups
  | some k => add k a groups

def collect (l : List α) : List (Group κ α) := l.foldl (place key) []

structure Groups (l : List α) (groups : List (Group κ α)) : Prop where
  nodup : (groups.map Group.key).Nodup
  members : ∀ g ∈ groups, g.members = l.filter fun a => decide (key a = some g.key)
  covers : ∀ a ∈ l, ∀ k, key a = some k → ∃ g ∈ groups, g.key = k
  nonempty : ∀ g ∈ groups, g.members ≠ []

/-! ## One element -/

variable {k : κ} {a : α} {groups : List (Group κ α)}

theorem mem_keys_add {k' : κ} :
    k' ∈ (add k a groups).map Group.key ↔ k' = k ∨ k' ∈ groups.map Group.key := by
  induction groups with
  | nil => simp [add]
  | cons g rest ih =>
    unfold add
    split
    · rename_i hg
      simp [hg]
    · simp only [map_cons, mem_cons, ih]
      tauto

theorem nodup_add (h : (groups.map Group.key).Nodup) : ((add k a groups).map Group.key).Nodup := by
  induction groups with
  | nil => simp [add]
  | cons g rest ih =>
    obtain ⟨hg, hrest⟩ := nodup_cons.mp h
    unfold add
    split
    · rename_i heq
      rw [map_cons, ← heq]
      exact h
    · rename_i hne
      refine nodup_cons.mpr ⟨fun hmem => ?_, ih hrest⟩
      rcases mem_keys_add.mp hmem with heq | hmem
      · exact hne heq
      · exact hg hmem

/-- A group after one more element is an old one with another key, an old one
that has grown, or a new one. -/
theorem mem_add (h : (groups.map Group.key).Nodup) {g : Group κ α} (hg : g ∈ add k a groups) :
    (g ∈ groups ∧ g.key ≠ k) ∨ (∃ old ∈ groups, old.key = k ∧ g = ⟨k, old.members ++ [a]⟩) ∨
      (k ∉ groups.map Group.key ∧ g = ⟨k, [a]⟩) := by
  induction groups with
  | nil =>
    rw [add, mem_singleton] at hg
    exact .inr (.inr ⟨by simp, hg⟩)
  | cons first rest ih =>
    obtain ⟨hfirst, hrest⟩ := nodup_cons.mp h
    unfold add at hg
    split at hg
    · rename_i heq
      rcases mem_cons.mp hg with rfl | hg
      · exact .inr (.inl ⟨first, mem_cons_self, heq, rfl⟩)
      have hne : g.key ≠ k := fun hk =>
        hfirst (mem_map.mpr ⟨g, hg, hk.trans heq.symm⟩)
      exact .inl ⟨mem_cons_of_mem _ hg, hne⟩
    · rename_i hne
      rcases mem_cons.mp hg with rfl | hg
      · exact .inl ⟨mem_cons_self, hne⟩
      rcases ih hrest hg with ⟨hg, hk⟩ | ⟨old, hold, hk, rfl⟩ | ⟨hk, rfl⟩
      · exact .inl ⟨mem_cons_of_mem _ hg, hk⟩
      · exact .inr (.inl ⟨old, mem_cons_of_mem _ hold, hk, rfl⟩)
      · refine .inr (.inr ⟨fun hmem => ?_, rfl⟩)
        rcases mem_cons.mp hmem with heq | hmem
        · exact hne heq.symm
        · exact hk hmem

variable {key : α → Option κ} {l : List α} {groups : List (Group κ α)}

namespace Groups

theorem nil : Groups key [] [] :=
  ⟨nodup_nil, (fun _ h => nomatch h), (fun _ h => nomatch h), (fun _ h => nomatch h)⟩

section

variable (h : Groups key l groups)

include h

theorem filter_of_new (hk : k ∉ groups.map Group.key) :
    (l.filter fun a => decide (key a = some k)) = [] := by
  refine filter_eq_nil_iff.mpr fun a ha hkey => hk ?_
  obtain ⟨g, hg, hgk⟩ := h.covers a ha k (of_decide_eq_true hkey)
  exact mem_map.mpr ⟨g, hg, hgk⟩

theorem add (hk : key a = some k) : Groups key (l ++ [a]) (Grouping.add k a groups) where
  nodup := nodup_add h.nodup
  members := by
    intro g hg
    rcases mem_add h.nodup hg with ⟨hg, hne⟩ | ⟨old, hold, hkey, rfl⟩ | ⟨hnew, rfl⟩
    · have hother : key a ≠ some g.key := by
        rw [hk]
        exact fun heq => hne (some.inj heq).symm
      simpa [hother] using h.members g hg
    · have hmembers := h.members old hold
      rw [hkey] at hmembers
      simp [hk, hmembers]
    · simp [hk, h.filter_of_new hnew]
  covers := by
    intro b hb k' hkb
    have hmem : k' ∈ (Grouping.add k a groups).map Group.key := by
      refine mem_keys_add.mpr ?_
      rcases mem_append.mp hb with hb | hb
      · obtain ⟨g, hg, hgk⟩ := h.covers b hb k' hkb
        exact .inr (mem_map.mpr ⟨g, hg, hgk⟩)
      · rw [mem_singleton.mp hb, hk] at hkb
        exact .inl (some.inj hkb).symm
    exact mem_map.mp hmem
  nonempty := by
    intro g hg
    rcases mem_add h.nodup hg with ⟨hg, -⟩ | ⟨old, -, -, rfl⟩ | ⟨-, rfl⟩
    · exact h.nonempty g hg
    · simp
    · simp

theorem skip (hk : key a = none) : Groups key (l ++ [a]) groups where
  nodup := h.nodup
  members := by
    intro g hg
    simpa [hk] using h.members g hg
  covers := by
    intro b hb k hkb
    rcases mem_append.mp hb with hb | hb
    · exact h.covers b hb k hkb
    · rw [mem_singleton.mp hb, hk] at hkb
      cases hkb
  nonempty := h.nonempty

theorem place (a : α) : Groups key (l ++ [a]) (Grouping.place key groups a) := by
  unfold Grouping.place
  split
  · rename_i hk
    exact h.skip hk
  · rename_i hk
    exact h.add hk

theorem foldl (l' : List α) : Groups key (l ++ l') (l'.foldl (Grouping.place key) groups) := by
  induction l' generalizing l groups with
  | nil => simpa using h
  | cons a l' ih =>
    rw [append_cons]
    exact ih (h.place a)

theorem mem_members {g : Group κ α} (hg : g ∈ groups) :
    a ∈ g.members ↔ a ∈ l ∧ key a = some g.key := by
  rw [h.members g hg, mem_filter, decide_eq_true_iff]

theorem eq_of_mem {g g' : Group κ α} (hg : g ∈ groups) (hg' : g' ∈ groups) (ha : a ∈ g.members)
    (ha' : a ∈ g'.members) : g = g' := by
  have hkey := ((h.mem_members hg).mp ha).2
  rw [((h.mem_members hg').mp ha').2] at hkey
  exact inj_on_of_nodup_map h.nodup hg hg' (some.inj hkey).symm

theorem mem_flatMap : a ∈ groups.flatMap Group.members ↔ a ∈ l ∧ (key a).isSome := by
  rw [List.mem_flatMap]
  constructor
  · intro ⟨g, hg, ha⟩
    obtain ⟨ha, hk⟩ := (h.mem_members hg).mp ha
    exact ⟨ha, by simp [hk]⟩
  · intro ⟨ha, hk⟩
    obtain ⟨k, hk⟩ := isSome_iff_exists.mp hk
    obtain ⟨g, hg, hgk⟩ := h.covers a ha k hk
    exact ⟨g, hg, (h.mem_members hg).mpr ⟨ha, hk.trans (congrArg some hgk.symm)⟩⟩

theorem nodup_flatMap (hl : l.Nodup) : (groups.flatMap Group.members).Nodup := by
  refine List.nodup_flatMap.mpr ⟨fun g hg => ?_, ?_⟩
  · rw [h.members g hg]
    exact hl.filter _
  · refine (Nodup.of_map _ h.nodup).imp_of_mem fun {g g'} hg hg' hne a ha ha' => ?_
    exact hne (h.eq_of_mem hg hg' ha ha')

end

end Groups

theorem groups_collect (key : α → Option κ) (l : List α) : Groups key l (collect key l) :=
  Groups.nil.foldl l

theorem map_getD_range {α : Type} (l : List α) (d : α) :
    (range l.length).map (fun i => l.getD i d) = l := by
  refine ext_getElem (by simp) fun i hi hi' => ?_
  simp [hi']

end Grouping
