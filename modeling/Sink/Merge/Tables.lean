import Sink.Merge.Bridge
import Mathlib.Data.List.Nodup

/-!
# The tables of a document

What `goToLua` leaves behind for a Go value (`Represents`): a table with one
entry for each child, in a slot that remembers the width of an integer, or a
string whose identity says whether it is a date.

A conversion makes new tables and new strings and touches no older ones
(`Extends`), so what earlier conversions left stays as it was
(`Represents.transport`). A table being filled is followed by `Filling`: one
child more is one step (`Filling.step`), a whole table is an induction over its
children (`fill_converts`). The children of a table have larger identities than
the table, which is why nothing made here is nested in itself.
-/

namespace Sink.Merge

open List

open Sink.Scan (validUTF8)

variable {fields : List (GoString × Any)} {b : Bridge} {item : Any} {start : Bridge}

/-! ## Children -/

theorem map_eq_of_forall₂ {α β γ : Type*} {R : α → β → Prop} {f : α → γ} {g : β → γ}
    {l : List α} {l' : List β} (h : Forall₂ R l l') (himp : ∀ a b, R a b → f a = g b) :
    l.map f = l'.map g := by
  induction h with
  | nil => rfl
  | cons head _ ih => rw [map_cons, map_cons, himp _ _ head, ih]

def numbered (index : Nat) : List Any → List (Key × Any)
  | [] => []
  | item :: rest => (.int index, item) :: numbered (index + 1) rest

/-- The entries of an object. -/
def named (fields : List (GoString × Any)) : List (Key × Any) :=
  fields.map fun field => (.string field.1, field.2)

def arrayKeys (index count : Nat) : List Key := (range' index count).map fun i : Nat => .int i

theorem arrayKeys_nodup (index count : Nat) : (arrayKeys index count).Nodup := by
  refine Nodup.map ?_ nodup_range'
  intro i j h
  exact Int.ofNat.inj (Key.int.inj h)

theorem mem_arrayKeys {index count : Nat} {i : Nat} :
    Key.int i ∈ arrayKeys index count ↔ index ≤ i ∧ i < index + count := by
  rw [arrayKeys, mem_map]
  constructor
  · rintro ⟨j, hj, heq⟩
    have hij : j = i := Int.ofNat.inj (Key.int.inj heq)
    rw [mem_range'_1] at hj
    omega
  · intro hi
    exact ⟨i, mem_range'_1.mpr hi, rfl⟩

variable (index : Nat) (items : List Any)

theorem numbered_keys : (numbered index items).map Prod.fst = arrayKeys index items.length := by
  induction items generalizing index with
  | nil => rfl
  | cons item rest ih =>
    rw [numbered, map_cons, ih, length_cons, arrayKeys, arrayKeys, range'_succ, map_cons]

theorem numbered_values : (numbered index items).map Prod.snd = items := by
  induction items generalizing index with
  | nil => rfl
  | cons item rest ih => rw [numbered, map_cons, ih]

theorem numbered_nodup : ((numbered index items).map Prod.fst).Nodup := by
  rw [numbered_keys]
  exact arrayKeys_nodup index items.length

theorem named_nodup (order : KeyedList.Increasing fields) :
    ((named fields).map Prod.fst).Nodup := by
  have hkeys : (named fields).map Prod.fst = (fields.map Prod.fst).map Key.string := by
    simp [named]
  rw [hkeys]
  exact Nodup.map (fun _ _ h => Key.string.inj h) order.keys_nodup

/-- What kind of table stands for a value, and its children. -/
structure Shape where
  metatable : Meta
  kind : Option Kind
  children : List (Key × Any)

def Any.shape : Any → Option Shape
  | .slice items => some ⟨.array, none, numbered 1 items⟩
  | .map fields => some ⟨.object, none, named fields⟩
  | .bsonScalar kind view => some ⟨.object, some kind, named view⟩
  | _ => none

def slot : Any → Option BsonInteger
  | .bsonInteger value wide => some { value, wide }
  | _ => none

/-- The Lua value that stands for a Go value; its tables are numbered from
`low` on, and those of the children of a table from after the table on. -/
inductive Represents (b : Bridge) : Nat → Any → Value → Prop
  | null {low : Nat} : Represents b low .null (.table nullTable)
  | bool {low : Nat} (value : Bool) : Represents b low (.bool value) (.bool value)
  | string {low : Nat} {text : GoString} {data : Nat} (made : data < b.strings)
      (plain : (text, data) ∉ b.dateTimes) : Represents b low (.string text) (.string text data)
  | bsonDateTime {low : Nat} {text : GoString} {data : Nat} (made : data < b.strings)
      (dated : (text, data) ∈ b.dateTimes) :
      Represents b low (.bsonDateTime text) (.string text data)
  | bsonInteger {low : Nat} (value : Int64) (wide : Bool) :
      Represents b low (.bsonInteger value wide) (.int value)
  | float64 {low : Nat} (bits : UInt64) : Represents b low (.float64 bits) (.float bits)
  | number {low : Nat} {text : GoString} {value : Int64} (plain : PlainInteger text value) :
      Represents b low (.number text) (.int value)
  | table {low table : Nat} {item : Any} {shape : Shape} {entries : List (Key × Value)}
      (shaped : item.shape = some shape) (above : low ≤ table) (made : table < b.tables.length)
      (scalar : b.bsonScalars table = shape.kind)
      (holds : b.table table = { metatable := some shape.metatable, entries })
      (keys : entries.map Prod.fst = shape.children.map Prod.fst)
      (integers : ∀ child ∈ shape.children, b.integerFields table child.1 = slot child.2)
      (each : ∀ child entry, (child, entry) ∈ shape.children.zip entries →
        Represents b (table + 1) child.2 entry.2) :
      Represents b low item (.table table)

variable {value : Value}

theorem Represents.lower {low low' : Nat} (h : Represents b low item value) (hle : low' ≤ low) :
    Represents b low' item value := by
  cases h with
  | null => exact .null
  | bool value => exact .bool value
  | string made plain => exact .string made plain
  | bsonDateTime made dated => exact .bsonDateTime made dated
  | bsonInteger value wide => exact .bsonInteger value wide
  | float64 bits => exact .float64 bits
  | number plain => exact .number plain
  | table shaped above made scalar holds keys integers each =>
    exact .table shaped (Nat.le_trans hle above) made scalar holds keys integers each

/-! ## Conversions only add -/

/-- The side tables speak of tables and strings that exist. -/
structure Sound (b : Bridge) : Prop where
  null : 0 < b.tables.length
  scalars : ∀ table, b.tables.length ≤ table → b.bsonScalars table = none
  integers : ∀ table key, b.tables.length ≤ table → b.integerFields table key = none
  dates : ∀ text data, (text, data) ∈ b.dateTimes → data < b.strings

theorem newLuaJSONBridge_sound : Sound newLuaJSONBridge where
  null := Nat.one_pos
  scalars := fun _ _ => rfl
  integers := fun _ _ _ => rfl
  dates := fun _ _ h => absurd h (not_mem_nil)

/-- The second bridge has all that the first has; the kept tables are the same
in both. -/
structure Extends (kept : Nat → Prop) (b b' : Bridge) : Prop where
  tables : b.tables.length ≤ b'.tables.length
  strings : b.strings ≤ b'.strings
  same : ∀ table, table < b.tables.length → kept table → b'.table table = b.table table
  scalars : ∀ table, table < b.tables.length → kept table →
    b'.bsonScalars table = b.bsonScalars table
  integers : ∀ table key, table < b.tables.length → kept table →
    b'.integerFields table key = b.integerFields table key
  dates : ∀ text data, data < b.strings →
    ((text, data) ∈ b'.dateTimes ↔ (text, data) ∈ b.dateTimes)

namespace Extends

variable {kept kept' : Nat → Prop} {b b' b'' : Bridge}

theorem refl (b : Bridge) : Extends kept b b where
  tables := Nat.le_refl _
  strings := Nat.le_refl _
  same := fun _ _ _ => rfl
  scalars := fun _ _ _ => rfl
  integers := fun _ _ _ _ => rfl
  dates := fun _ _ _ => Iff.rfl

/-- The second step has to keep what the first bridge had. -/
theorem trans (h : Extends kept b b') (h' : Extends kept' b' b'')
    (himp : ∀ table, table < b.tables.length → kept table → kept' table) : Extends kept b b'' where
  tables := Nat.le_trans h.tables h'.tables
  strings := Nat.le_trans h.strings h'.strings
  same := fun table hmade hkept =>
    (h'.same table (Nat.lt_of_lt_of_le hmade h.tables) (himp table hmade hkept)).trans
      (h.same table hmade hkept)
  scalars := fun table hmade hkept =>
    (h'.scalars table (Nat.lt_of_lt_of_le hmade h.tables) (himp table hmade hkept)).trans
      (h.scalars table hmade hkept)
  integers := fun table key hmade hkept =>
    (h'.integers table key (Nat.lt_of_lt_of_le hmade h.tables) (himp table hmade hkept)).trans
      (h.integers table key hmade hkept)
  dates := fun text data hmade =>
    (h'.dates text data (Nat.lt_of_lt_of_le hmade h.strings)).trans (h.dates text data hmade)

end Extends

/-- A representation whose tables are kept stays one. -/
theorem Represents.transport {kept : Nat → Prop} {b' : Bridge} {low : Nat}
    (h : Represents b low item value) (ext : Extends kept b b')
    (hkept : ∀ table, low ≤ table → kept table) : Represents b' low item value := by
  induction h with
  | null => exact .null
  | bool value => exact .bool value
  | string made plain =>
    exact .string (Nat.lt_of_lt_of_le made ext.strings) (fun h => plain ((ext.dates _ _ made).mp h))
  | bsonDateTime made dated =>
    exact .bsonDateTime (Nat.lt_of_lt_of_le made ext.strings) ((ext.dates _ _ made).mpr dated)
  | bsonInteger value wide => exact .bsonInteger value wide
  | float64 bits => exact .float64 bits
  | number plain => exact .number plain
  | table shaped above made scalar holds keys integers each ih =>
    have hself := hkept _ above
    refine .table shaped above (Nat.lt_of_lt_of_le made ext.tables)
      ((ext.scalars _ made hself).trans scalar) ((ext.same _ made hself).trans holds) keys
      (fun child hmem => (ext.integers _ _ made hself).trans (integers child hmem)) ?_
    intro child entry hmem
    exact ih child entry hmem (fun t ht => hkept t (by omega))

/-! ## The steps of a conversion -/

section Steps

variable {b : Bridge}

theorem Bridge.table_newTable_self (b : Bridge) (metatable : Meta) :
    (b.newTable metatable).table b.tables.length =
      { metatable := some metatable, entries := [] } := by
  simp [Bridge.table, Bridge.newTable]

theorem extends_newTable (b : Bridge) (metatable : Meta) :
    Extends (fun _ => True) b (b.newTable metatable) where
  tables := by simp [Bridge.newTable]
  strings := Nat.le_refl _
  same := by
    intro table hmade _
    simp [Bridge.table, Bridge.newTable, getElem?_append_left hmade]
  scalars := fun _ _ _ => rfl
  integers := fun _ _ _ _ => rfl
  dates := fun _ _ _ => Iff.rfl

theorem sound_newTable (h : Sound b) (metatable : Meta) : Sound (b.newTable metatable) where
  null := by simp [Bridge.newTable]
  scalars := by
    intro table hle
    refine h.scalars table ?_
    simp only [Bridge.newTable, length_append, length_singleton] at hle
    omega
  integers := by
    intro table key hle
    refine h.integers table key ?_
    simp only [Bridge.newTable, length_append, length_singleton] at hle
    omega
  dates := h.dates

/-- A child in its slot: `SetInt` or `SetString`, then `rememberInteger`. -/
def Bridge.place (b : Bridge) (table : Nat) (key : Key) (value : Value) (item : Any) : Bridge :=
  (b.setField table key value).rememberInteger table key item

variable (table : Nat) (key : Key)

@[simp] theorem place_length (value : Value) (item : Any) :
    (b.place table key value item).tables.length = b.tables.length := by
  cases item <;> simp [Bridge.place, Bridge.rememberInteger, Bridge.setField]

@[simp] theorem place_strings (value : Value) (item : Any) :
    (b.place table key value item).strings = b.strings := by
  cases item <;> rfl

@[simp] theorem place_dateTimes (value : Value) (item : Any) :
    (b.place table key value item).dateTimes = b.dateTimes := by
  cases item <;> rfl

@[simp] theorem place_bsonScalars (value : Value) (item : Any) :
    (b.place table key value item).bsonScalars = b.bsonScalars := by
  cases item <;> rfl

theorem place_integerFields (value : Value) (item : Any) (t : Nat) (k : Key) :
    (b.place table key value item).integerFields t k =
      if t = table ∧ k = key then (slot item).or (b.integerFields t k)
      else b.integerFields t k := by
  cases item <;> simp [Bridge.place, Bridge.rememberInteger, Bridge.setField, slot]

theorem place_table_ne {table t : Nat} (hne : t ≠ table) (key : Key) (value : Value) (item : Any) :
    (b.place table key value item).table t = b.table t := by
  cases item <;>
    simp [Bridge.place, Bridge.rememberInteger, Bridge.setField, Bridge.table, Ne.symm hne]

theorem place_table_self {table : Nat} (hmade : table < b.tables.length) (key : Key)
    (value : Value) (item : Any) :
    (b.place table key value item).table table =
      { b.table table with entries := setEntry key value (b.table table).entries } := by
  cases item <;>
    simp [Bridge.place, Bridge.rememberInteger, Bridge.setField, Bridge.table, hmade]

theorem extends_place (table : Nat) (key : Key) (value : Value) (item : Any) :
    Extends (· ≠ table) b (b.place table key value item) where
  tables := by simp
  strings := by simp
  same := fun t _ hne => place_table_ne hne key value item
  scalars := by simp
  integers := by
    intro t k _ hne
    rw [place_integerFields, if_neg (fun h => hne h.1)]
  dates := by simp

theorem sound_place (h : Sound b) {table : Nat} (hmade : table < b.tables.length) (key : Key)
    (value : Value) (item : Any) : Sound (b.place table key value item) where
  null := by simpa using h.null
  scalars := by simpa using h.scalars
  integers := by
    intro t k hle
    rw [place_length] at hle
    rw [place_integerFields, if_neg (fun h => by omega)]
    exact h.integers t k hle
  dates := by simpa using h.dates

theorem setEntry_fresh {key value entries} (fresh : key ∉ entries.map Prod.fst) :
    setEntry key value entries = entries ++ [(key, value)] := by
  induction entries with
  | nil => rfl
  | cons entry rest ih =>
    rw [map_cons, mem_cons, not_or] at fresh
    rw [setEntry, if_neg (Ne.symm fresh.1), ih fresh.2, cons_append]

end Steps

/-! ## Filling a table -/

variable {lib : Library}

/-- The conversion of a value: it succeeds, it only adds, and the new tables
stand for the value. -/
def Converts (lib : Library) (item : Any) : Prop :=
  ∀ b, Sound b → ∃ value b', goToLua lib item b = .ok (value, b') ∧ Sound b' ∧
    Extends (fun _ => True) b b' ∧ Represents b' b.tables.length item value

/-- While a table is filled: the children done so far are in place. -/
structure Filling (start : Bridge) (metatable : Meta) (done : List (Key × Any)) (b : Bridge) :
    Prop where
  sound : Sound b
  ext : Extends (fun _ => True) start b
  made : start.tables.length < b.tables.length
  scalar : b.bsonScalars start.tables.length = none
  integers : ∀ child ∈ done, b.integerFields start.tables.length child.1 = slot child.2
  free : ∀ key, key ∉ done.map Prod.fst → b.integerFields start.tables.length key = none
  entries : ∃ entries,
    b.table start.tables.length = { metatable := some metatable, entries } ∧
      Forall₂ (fun child entry => entry.1 = child.1 ∧
        Represents b (start.tables.length + 1) child.2 entry.2) done entries

theorem filling_newTable (h : Sound start) (metatable : Meta) :
    Filling start metatable [] (start.newTable metatable) where
  sound := sound_newTable h metatable
  ext := extends_newTable start metatable
  made := by simp [Bridge.newTable]
  scalar := h.scalars _ (Nat.le_refl _)
  integers := fun _ hmem => absurd hmem not_mem_nil
  free := fun key _ => h.integers _ key (Nat.le_refl _)
  entries := ⟨[], Bridge.table_newTable_self start metatable, Forall₂.nil⟩

variable {done : List (Key × Any)}

/-- One child more: its conversion, then its slot. -/
theorem Filling.step {metatable : Meta} {key : Key} (h : Filling start metatable done b)
    (converts : Converts lib item) (fresh : key ∉ done.map Prod.fst) :
    ∃ value b', goToLua lib item b = .ok (value, b') ∧
      Filling start metatable (done ++ [(key, item)])
        (b'.place start.tables.length key value item) := by
  obtain ⟨value, b', hgo, hsound, hext, hrep⟩ := converts b h.sound
  refine ⟨value, b', hgo, ?_⟩
  obtain ⟨entries, htable, hdone⟩ := h.entries
  have hmade : start.tables.length < b'.tables.length := Nat.lt_of_lt_of_le h.made hext.tables
  have hplace := extends_place (b := b') start.tables.length key value item
  -- What is done keeps clear of the table being filled.
  have hkept : ∀ t, start.tables.length + 1 ≤ t → t ≠ start.tables.length := by
    intro t ht heq
    omega
  have hnew : Represents (b'.place start.tables.length key value item)
      (start.tables.length + 1) item value :=
    (hrep.lower h.made).transport hplace hkept
  have hold : ∀ (child : Key × Any) (entry : Key × Value),
      (entry.1 = child.1 ∧ Represents b (start.tables.length + 1) child.2 entry.2) →
      entry.1 = child.1 ∧ Represents (b'.place start.tables.length key value item)
        (start.tables.length + 1) child.2 entry.2 := by
    intro child entry hboth
    refine ⟨hboth.1, ?_⟩
    exact (hboth.2.transport hext (fun _ _ => trivial)).transport hplace hkept
  have hslot : b'.integerFields start.tables.length key = none :=
    (hext.integers _ _ h.made trivial).trans (h.free key fresh)
  constructor
  case sound => exact sound_place hsound hmade key value item
  case ext =>
    refine (h.ext.trans hext fun _ _ _ => trivial).trans hplace ?_
    intro t ht _ heq
    omega
  case made => rw [place_length]; exact hmade
  case scalar =>
    rw [place_bsonScalars]
    exact (hext.scalars _ h.made trivial).trans h.scalar
  case integers =>
    intro child hmem
    rw [place_integerFields]
    rcases mem_append.mp hmem with hmem | hmem
    · have hne : child.1 ≠ key := fun heq => fresh (heq ▸ mem_map_of_mem hmem)
      rw [if_neg (fun hboth => hne hboth.2)]
      exact (hext.integers _ _ h.made trivial).trans (h.integers child hmem)
    · rw [mem_singleton.mp hmem, if_pos ⟨rfl, rfl⟩, hslot, Option.or_none]
  case free =>
    intro k hk
    rw [map_append, mem_append, not_or] at hk
    have hne : k ≠ key := fun heq => hk.2 (by simp [heq])
    rw [place_integerFields, if_neg (fun hboth => hne hboth.2)]
    exact (hext.integers _ _ h.made trivial).trans (h.free k hk.1)
  case entries =>
    refine ⟨entries ++ [(key, value)], ?_, ?_⟩
    · rw [place_table_self hmade, hext.same _ h.made trivial, htable]
      have hkeys := map_eq_of_forall₂ hdone fun _ _ hboth => hboth.1.symm
      have hfresh : key ∉ entries.map Prod.fst := by rw [← hkeys]; exact fresh
      rw [setEntry_fresh hfresh]
    · refine rel_append (hdone.imp hold) ?_
      exact Forall₂.cons ⟨rfl, hnew⟩ Forall₂.nil

/-! ## Whole tables -/

variable (lib) in
/-- The loops of `goToLua`, over the children of a table. -/
def fill (table : Nat) : List (Key × Any) → Bridge → Fallible Bridge
  | [], b => .ok b
  | (key, item) :: rest, b => do
    let (converted, b) ← goToLua lib item b
    fill table rest (b.place table key converted item)

theorem goToLuaItems_eq_fill (table index : Nat) (items : List Any) (b : Bridge) :
    goToLuaItems lib table index items b = fill lib table (numbered index items) b := by
  induction items generalizing index b with
  | nil => simp only [goToLuaItems, numbered, fill]
  | cons item rest ih =>
    simp only [goToLuaItems, numbered, fill]
    cases goToLua lib item b with
    | error err => rfl
    | ok result => exact ih (index + 1) _

theorem goToLuaFields_eq_fill (table : Nat) (fields : List (GoString × Any)) (b : Bridge) :
    goToLuaFields lib table fields b = fill lib table (named fields) b := by
  induction fields generalizing b with
  | nil => simp only [goToLuaFields, named, map_nil, fill]
  | cons field rest ih =>
    obtain ⟨key, item⟩ := field
    simp only [goToLuaFields, named, map_cons, fill]
    cases goToLua lib item b with
    | error err => rfl
    | ok result => exact ih _

theorem fill_converts {metatable : Meta} {children : List (Key × Any)}
    (converts : ∀ child ∈ children, Converts lib child.2) (h : Filling start metatable done b)
    (nodup : ((done ++ children).map Prod.fst).Nodup) :
    ∃ b', fill lib start.tables.length children b = .ok b' ∧
      Filling start metatable (done ++ children) b' := by
  induction children generalizing done b with
  | nil => exact ⟨b, rfl, by rw [append_nil]; exact h⟩
  | cons child rest ih =>
    obtain ⟨key, item⟩ := child
    have fresh : key ∉ done.map Prod.fst := by
      rw [map_append, map_cons] at nodup
      intro hmem
      exact (nodup_append.mp nodup).2.2 key hmem key mem_cons_self rfl
    obtain ⟨value, b₁, hgo, hstep⟩ := h.step (converts _ mem_cons_self) fresh
    have happend : done ++ (key, item) :: rest = done ++ [(key, item)] ++ rest := by
      rw [append_assoc, singleton_append]
    rw [happend] at nodup ⊢
    obtain ⟨b₂, hfill, hdone⟩ :=
      ih (forall_mem_cons.mp converts).2 hstep nodup
    refine ⟨b₂, ?_, hdone⟩
    rw [fill, hgo]
    exact hfill

/-- A filled table stands for the value it was made from. -/
theorem Filling.represents {shape : Shape} (shaped : item.shape = some shape)
    (h : Filling start shape.metatable shape.children b) (kind : shape.kind = none) :
    Represents b start.tables.length item (.table start.tables.length) := by
  obtain ⟨entries, htable, hdone⟩ := h.entries
  have hkeys := map_eq_of_forall₂ hdone fun _ _ hboth => hboth.1.symm
  refine .table shaped (Nat.le_refl _) h.made (h.scalar.trans kind.symm) htable hkeys.symm
    h.integers ?_
  intro child entry hmem
  exact (forall₂_zip hdone hmem).2

theorem extends_markScalar (b : Bridge) (table : Nat) (kind : Kind) :
    Extends (· ≠ table) b (b.markScalar table kind) where
  tables := Nat.le_refl _
  strings := Nat.le_refl _
  same := fun _ _ _ => rfl
  scalars := fun _ _ hne => if_neg hne
  integers := fun _ _ _ _ => rfl
  dates := fun _ _ _ => Iff.rfl

variable {view : List (GoString × Any)}

theorem Filling.represents_marked {kind : Kind} (h : Filling start .object (named view) b) :
    Represents (b.markScalar start.tables.length kind) start.tables.length
      (.bsonScalar kind view) (.table start.tables.length) := by
  obtain ⟨entries, htable, hdone⟩ := h.entries
  have hkeys := map_eq_of_forall₂ hdone fun _ _ hboth => hboth.1.symm
  refine .table rfl (Nat.le_refl _) h.made (if_pos rfl) htable hkeys.symm h.integers ?_
  intro child entry hmem
  refine (forall₂_zip hdone hmem).2.transport (extends_markScalar b _ kind) ?_
  intro t ht heq
  omega

/-! ## Conversions by type -/

theorem converts_value (hgo : ∀ b, goToLua lib item b = .ok (value, b))
    (hrep : ∀ b low, Represents b low item value) : Converts lib item := by
  intro b hsound
  exact ⟨value, b, hgo b, hsound, .refl b, hrep b _⟩

theorem converts_null : Converts lib .null :=
  converts_value (fun _ => rfl) fun _ _ => .null

theorem converts_bool (value : Bool) : Converts lib (.bool value) :=
  converts_value (fun _ => rfl) fun _ _ => .bool value

theorem converts_float64 (bits : UInt64) : Converts lib (.float64 bits) :=
  converts_value (fun _ => rfl) fun _ _ => .float64 bits

theorem converts_number {text : GoString} {value : Int64} (plain : PlainInteger text value) :
    Converts lib (.number text) := by
  refine converts_value ?_ fun _ _ => .number plain
  intro b
  simp only [goToLua, jsonNumberToLua, plain.1, Int64.ofInt_toInt]
  rfl

theorem converts_bsonInteger (value : Int64) (wide : Bool) :
    Converts lib (.bsonInteger value wide) := by
  intro b hsound
  refine ⟨.int value, b.addIntegerKind value wide, rfl, ?_, ?_, .bsonInteger _ _⟩
  · exact ⟨hsound.null, hsound.scalars, hsound.integers, hsound.dates⟩
  · exact ⟨Nat.le_refl _, Nat.le_refl _, fun _ _ _ => rfl, fun _ _ _ => rfl, fun _ _ _ _ => rfl,
      fun _ _ _ => Iff.rfl⟩

theorem converts_string (text : GoString) : Converts lib (.string text) := by
  intro b hsound
  refine ⟨.string text b.strings, b.newString, rfl, ?_, ?_, ?_⟩
  · refine ⟨hsound.null, hsound.scalars, hsound.integers, ?_⟩
    intro t data hmem
    exact Nat.lt_succ_of_lt (hsound.dates t data hmem)
  · exact ⟨Nat.le_refl _, Nat.le_succ _, fun _ _ _ => rfl, fun _ _ _ => rfl, fun _ _ _ _ => rfl,
      fun _ _ _ => Iff.rfl⟩
  · refine .string (Nat.lt_succ_self _) ?_
    intro hmem
    exact Nat.lt_irrefl _ (hsound.dates text b.strings hmem)

theorem converts_bsonDateTime (text : GoString) : Converts lib (.bsonDateTime text) := by
  intro b hsound
  refine ⟨.string text b.strings,
    { b.newString with dateTimes := (text, b.strings) :: b.dateTimes }, rfl, ?_, ?_,
    .bsonDateTime (Nat.lt_succ_self _) mem_cons_self⟩
  · refine ⟨hsound.null, hsound.scalars, hsound.integers, ?_⟩
    intro t data hmem
    rcases mem_cons.mp hmem with heq | hmem
    · rw [(Prod.mk.inj heq).2]
      exact Nat.lt_succ_self _
    · exact Nat.lt_succ_of_lt (hsound.dates t data hmem)
  · refine ⟨Nat.le_refl _, Nat.le_succ _, fun _ _ _ => rfl, fun _ _ _ => rfl, fun _ _ _ _ => rfl,
      ?_⟩
    intro t data hmade
    refine ⟨fun hmem => ?_, fun hmem => mem_cons_of_mem _ hmem⟩
    rcases mem_cons.mp hmem with heq | hmem
    · rw [(Prod.mk.inj heq).2] at hmade
      exact absurd hmade (Nat.lt_irrefl _)
    · exact hmem

theorem converts_slice {items : List Any} (converts : ∀ item ∈ items, Converts lib item) :
    Converts lib (.slice items) := by
  intro b hsound
  have hchildren : ∀ child ∈ numbered 1 items, Converts lib child.2 := by
    intro child hmem
    refine converts _ ?_
    have hvalue := mem_map_of_mem (f := Prod.snd) hmem
    rwa [numbered_values] at hvalue
  obtain ⟨b', hfill, hdone⟩ :=
    fill_converts hchildren (filling_newTable hsound .array) (numbered_nodup 1 items)
  refine ⟨.table b.tables.length, b', ?_, hdone.sound, hdone.ext, Filling.represents rfl hdone rfl⟩
  rw [goToLua, goToLuaItems_eq_fill, hfill]
  rfl

theorem fill_object (order : KeyedList.Increasing fields)
    (converts : ∀ field ∈ fields, Converts lib field.2) (hsound : Sound b) :
    ∃ b', goToLuaFields lib b.tables.length fields (b.newTable .object) = .ok b' ∧
      Filling b .object (named fields) b' := by
  have hchildren : ∀ child ∈ named fields, Converts lib child.2 := by
    intro child hmem
    obtain ⟨field, hfield, rfl⟩ := mem_map.mp hmem
    exact converts field hfield
  obtain ⟨b', hfill, hdone⟩ :=
    fill_converts hchildren (filling_newTable hsound .object) (named_nodup order)
  exact ⟨b', by rw [goToLuaFields_eq_fill, hfill], hdone⟩

theorem converts_map (order : KeyedList.Increasing fields)
    (converts : ∀ field ∈ fields, Converts lib field.2) : Converts lib (.map fields) := by
  intro b hsound
  obtain ⟨b', hfill, hdone⟩ := fill_object order converts hsound
  refine ⟨.table b.tables.length, b', ?_, hdone.sound, hdone.ext, Filling.represents rfl hdone rfl⟩
  rw [goToLua, hfill]
  rfl

theorem converts_bsonScalar {kind : Kind} (order : KeyedList.Increasing view)
    (converts : ∀ field ∈ view, Converts lib field.2) : Converts lib (.bsonScalar kind view) := by
  intro b hsound
  obtain ⟨b', hfill, hdone⟩ := fill_object order converts hsound
  refine ⟨.table b.tables.length, b'.markScalar b.tables.length kind, ?_, ?_, ?_,
    hdone.represents_marked⟩
  · rw [goToLua, hfill]
    rfl
  · refine ⟨hdone.sound.null, ?_, hdone.sound.integers, hdone.sound.dates⟩
    intro t ht
    have hne : t ≠ b.tables.length := by
      have hmade := hdone.made
      intro heq
      exact absurd (heq ▸ ht) (Nat.not_le_of_lt hmade)
    exact (if_neg hne).trans (hdone.sound.scalars t ht)
  · refine hdone.ext.trans (extends_markScalar b' b.tables.length kind) ?_
    intro t ht _ heq
    omega

theorem Plain.converts (h : Plain item) : Converts lib item := by
  induction h with
  | null => exact converts_null
  | bool value => exact converts_bool value
  | string _ => exact converts_string _
  | number value plain => exact converts_number plain
  | slice _ ih => exact converts_slice ih
  | map order _ _ ih => exact converts_map order ih

end Sink.Merge
