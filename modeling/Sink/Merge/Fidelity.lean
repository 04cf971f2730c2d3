import Sink.Merge.Tables
import Mathlib.Data.List.Perm.Basic
import Mathlib.Data.Nat.Find
import Mathlib.Data.Set.Finite.Basic

/-!
# A document through the bridge

An untouched document comes back as it was, up to the order of its fields
(`Reordered`).

`Decoded` says what `decodeBSONObject` makes of a BSON value, without its depth
and its order of insertion; both directions of the bridge follow it. Its values
convert to Lua (`Decoded.converts`), and a Lua value that stands for one of them
converts back (`Decoded.restored`) to a Go value that is written as the BSON
value it came from (`Restores`). Integers come back from their slot, never from
their value, so equal integers of both widths are told apart; the view of a
scalar comes back as the JSON it was (`Plain.restored`), because `outputBSON` is
off while it is read.
-/

namespace Sink.Merge

open List

open Sink.Scan (validUTF8 validUTF8_ascii)

variable {raw : Bson} {item : Any} {entries : List (Key × Value)} {α β : Type*} {b : Bridge}
  {fuel : Nat} {active : List Nat} {table : Nat} {out : List (GoString × Any)}
  {listed : List (GoString × Bson)}

/-! ## Equal up to the order of fields -/

/-- The same value, with the fields of its documents in another order. -/
inductive Reordered : Bson → Bson → Prop
  | same (raw : Bson) : Reordered raw raw
  | document {fields listed written : List (GoString × Bson)} (perm : fields.Perm listed)
      (names : listed.map Prod.fst = written.map Prod.fst)
      (each : Forall₂ (fun field other => Reordered field.2 other.2) listed written) :
      Reordered (.document fields) (.document written)
  | array {items written : List Bson} (each : Forall₂ Reordered items written) :
      Reordered (.array items) (.array written)
  | codeWithScope {code : GoString} {scope written : List (GoString × Bson)}
      (reordered : Reordered (.document scope) (.document written)) :
      Reordered (.codeWithScope code scope) (.codeWithScope code written)

/-! ## Decoding -/

/-- A BSON value and what it is decoded into. The decoded fields of a document
are in key order; `listed` are its fields in that order. -/
inductive Decoded (lib : Library) : Bson → Any → Prop
  | null : Decoded lib .null .null
  | boolean (value : Bool) : Decoded lib (.boolean value) (.bool value)
  | string {text : GoString} (valid : validUTF8 text = true) :
      Decoded lib (.string text) (.string text)
  | double {bits : UInt64} (finite : finite bits = true) :
      Decoded lib (.double bits) (.float64 bits)
  | int32 (value : Int32) : Decoded lib (.int32 value) (.bsonInteger value.toInt64 false)
  | int64 (value : Int64) : Decoded lib (.int64 value) (.bsonInteger value true)
  | dateTime {millis : Int64} (range : yearInRange millis = true) :
      Decoded lib (.dateTime millis) (.bsonDateTime (lib.formatDate millis))
  | array {items : List Bson} {values : List Any} (length : items.length = values.length)
      (each : ∀ raw value, (raw, value) ∈ items.zip values → Decoded lib raw value) :
      Decoded lib (.array items) (.slice values)
  | document {fields listed : List (GoString × Bson)} {object : List (GoString × Any)}
      (perm : fields.Perm listed) (keys : listed.map Prod.fst = object.map Prod.fst)
      (order : KeyedList.Increasing object)
      (names : ∀ field ∈ object, validUTF8 field.1 = true)
      (each : ∀ field value, (field, value) ∈ listed.zip object →
        Decoded lib field.2 value.2) : Decoded lib (.document fields) (.map object)
  | codeWithScope {code : GoString} {scope : List (GoString × Bson)}
      {object : List (GoString × Any)} (valid : validUTF8 code = true)
      (decoded : Decoded lib (.document scope) (.map object)) :
      Decoded lib (.codeWithScope code scope)
        (.bsonScalar .codeWithScope [(lit "$code", .string code), (lit "$scope", .map object)])
  | scalar {raw : Bson} {view : List (GoString × Any)} {encoded : GoString}
      (kind : raw.kind ≠ .codeWithScope) (plain : Plain (.map view))
      (marshalled : lib.marshalJSON (.map [(lit "value", .map view)]) = .ok encoded)
      (unmarshalled : lib.unmarshalExtJSON encoded = .ok [(lit "value", raw)]) :
      Decoded lib raw (.bsonScalar raw.kind view)

variable {lib : Library} {l : List α} {l' : List β}

theorem decodeBSONScalar_decoded (viewed : raw.viewed = true)
    (h : decodeBSONScalar lib raw = .ok item) : Decoded lib raw item := by
  have hkind : raw.kind ≠ .codeWithScope := by
    intro heq
    cases raw <;> first | exact absurd viewed Bool.false_ne_true | cases heq
  obtain ⟨encoded, hext, h⟩ := bind_ok h
  obtain ⟨decoded, hjson, h⟩ := bind_ok h
  split at h
  · rename_i fields
    split at h
    · rename_i view hlookup
      obtain ⟨plain, text, hmarshal, hback⟩ :=
        lib.view_inverse raw encoded fields view viewed hext hjson hlookup
      cases h
      exact .scalar hkind plain hmarshal hback
    · cases h
  · cases h

theorem decodeBSONValue_depth {depth : Nat} (h : decodeBSONValue lib raw depth = .ok item) :
    ¬256 < depth := by
  intro hdeep
  rw [decodeBSONValue.eq_def] at h
  dsimp only at h
  rw [if_pos hdeep] at h
  cases h

theorem lookup_none {key : GoString} {entries : List (GoString × Any)}
    (h : ¬(KeyedList.lookup key entries).isSome = true) : key ∉ entries.map Prod.fst := by
  intro hmem
  obtain ⟨entry, hentry, rfl⟩ := mem_map.mp hmem
  refine h ?_
  rw [KeyedList.lookup, Option.isSome_map, find?_isSome]
  exact ⟨entry, hentry, decide_eq_true rfl⟩

/-- What the loop over the fields of a document found. -/
structure DecodedFields (lib : Library) (fields : List (GoString × Bson))
    (values : List (GoString × Any)) : Prop where
  names : ∀ value ∈ values, validUTF8 value.1 = true
  each : Forall₂ (fun field value => field.1 = value.1 ∧ Decoded lib field.2 value.2)
    fields values

variable {fields : List (GoString × Bson)}

theorem DecodedFields.document {values : List (GoString × Any)}
    (h : DecodedFields lib fields values) (nodup : (values.map Prod.fst).Nodup) :
    Decoded lib (.document fields) (.map (KeyedList.insertAll [] values)) := by
  have hnodup : (([] ++ values).map Prod.fst).Nodup := nodup
  obtain ⟨order, perm⟩ := KeyedList.insertAll_spec Pairwise.nil hnodup
  obtain ⟨listed, hlisted, hperm⟩ := perm_comp_forall₂ perm h.each.flip
  have hkeys : listed.map Prod.fst = (KeyedList.insertAll [] values).map Prod.fst :=
    map_eq_of_forall₂ hlisted.flip fun _ _ hboth => hboth.1
  refine .document hperm.symm hkeys order (fun field hmem => h.names field (perm.mem_iff.mp hmem))
    ?_
  intro field value hmem
  exact (forall₂_zip hlisted.flip hmem).2

mutual

theorem decodeBSONValue_decoded (raw : Bson) (depth : Nat) (item : Any)
    (htext : raw.textual = true) (h : decodeBSONValue lib raw depth = .ok item) :
    Decoded lib raw item := by
  have hdepth := decodeBSONValue_depth h
  rw [decodeBSONValue.eq_def] at h
  dsimp only at h
  rw [if_neg hdepth] at h
  cases raw with
  | document fields =>
    obtain ⟨object, hfields, h⟩ := bind_ok h
    cases h
    obtain ⟨values, hvalues, hnodup, rfl⟩ :=
      decodeBSONFields_decoded fields depth [] object htext nodup_nil hfields
    exact hvalues.document hnodup
  | array items =>
    obtain ⟨values, hitems, h⟩ := bind_ok h
    cases h
    have hall := decodeBSONItems_decoded items depth values htext hitems
    exact .array hall.length_eq fun raw value hmem => forall₂_zip hall hmem
  | int32 value =>
    cases h
    exact .int32 value
  | int64 value =>
    cases h
    exact .int64 value
  | double bits =>
    dsimp only at h
    split at h
    · rename_i hfinite
      cases h
      exact .double hfinite
    · rename_i hinfinite
      refine decodeBSONScalar_decoded ?_ h
      simpa [Bson.viewed] using hinfinite
  | string text =>
    cases h
    exact .string htext
  | boolean value =>
    cases h
    exact .boolean value
  | null =>
    cases h
    exact .null
  | dateTime millis =>
    dsimp only at h
    split at h
    · rename_i hrange
      cases h
      exact .dateTime hrange
    · rename_i hrange
      refine decodeBSONScalar_decoded ?_ h
      simpa [Bson.viewed] using hrange
  | codeWithScope code scope =>
    obtain ⟨object, hfields, h⟩ := bind_ok h
    cases h
    rw [Bson.textual, Bool.and_eq_true] at htext
    obtain ⟨values, hvalues, hnodup, rfl⟩ :=
      decodeBSONFields_decoded scope (depth + 1) [] object htext.2 nodup_nil hfields
    exact .codeWithScope htext.1 (hvalues.document hnodup)
  | scalar kind data => exact decodeBSONScalar_decoded rfl h

theorem decodeBSONFields_decoded : ∀ (fields : List (GoString × Bson)) (depth : Nat)
    (result object : List (GoString × Any)), textualFields fields = true →
    (result.map Prod.fst).Nodup → decodeBSONFields lib fields depth result = .ok object →
    ∃ values, DecodedFields lib fields values ∧ ((result ++ values).map Prod.fst).Nodup ∧
      object = KeyedList.insertAll result values
  | [], depth, result, object, _, hnodup, h => by
    rw [decodeBSONFields] at h
    cases h
    refine ⟨[], ⟨fun _ hmem => absurd hmem not_mem_nil, .nil⟩, ?_, rfl⟩
    rw [append_nil]
    exact hnodup
  | (key, raw) :: rest, depth, result, object, htext, hnodup, h => by
    rw [textualFields, Bool.and_eq_true, Bool.and_eq_true] at htext
    rw [decodeBSONFields] at h
    split at h
    · cases h
    rename_i hfresh
    obtain ⟨value, hvalue, h⟩ := bind_ok h
    have hdecoded := decodeBSONValue_decoded raw (depth + 1) value htext.1.2 hvalue
    have hinsert : (KeyedList.insert key value result).Perm ((key, value) :: result) :=
      KeyedList.insert_perm (lookup_none hfresh)
    have hnodup' : ((KeyedList.insert key value result).map Prod.fst).Nodup := by
      refine (hinsert.map Prod.fst).nodup_iff.mpr ?_
      exact nodup_cons.mpr ⟨lookup_none hfresh, hnodup⟩
    obtain ⟨values, hvalues, hall, hobject⟩ :=
      decodeBSONFields_decoded rest depth _ object htext.2 hnodup' h
    refine ⟨(key, value) :: values, ⟨?_, ?_⟩, ?_, hobject⟩
    · exact forall_mem_cons.mpr ⟨htext.1.1, hvalues.names⟩
    · exact .cons ⟨rfl, hdecoded⟩ hvalues.each
    · refine (Perm.nodup_iff (Perm.map Prod.fst ?_)).mp hall
      exact (hinsert.append_right values).trans perm_middle.symm

theorem decodeBSONItems_decoded : ∀ (items : List Bson) (depth : Nat) (values : List Any),
    textualItems items = true → decodeBSONItems lib items depth = .ok values →
    Forall₂ (Decoded lib) items values
  | [], depth, values, _, h => by
    rw [decodeBSONItems] at h
    cases h
    exact .nil
  | raw :: rest, depth, values, htext, h => by
    rw [textualItems, Bool.and_eq_true] at htext
    rw [decodeBSONItems] at h
    obtain ⟨value, hvalue, h⟩ := bind_ok h
    obtain ⟨others, hothers, h⟩ := bind_ok h
    cases h
    exact .cons (decodeBSONValue_decoded raw (depth + 1) value htext.1 hvalue)
      (decodeBSONItems_decoded rest depth others htext.2 hothers)

end

/-! ## To Lua -/

theorem exists_zip_left (length : l.length = l'.length) {b : β} (h : b ∈ l') :
    ∃ a, (a, b) ∈ l.zip l' := by
  rw [← map_snd_zip (Nat.le_of_eq length.symm)] at h
  obtain ⟨⟨a, b⟩, hmem, rfl⟩ := mem_map.mp h
  exact ⟨a, hmem⟩

theorem codeView_increasing (code : GoString) (object : List (GoString × Any)) :
    KeyedList.Increasing [(lit "$code", Any.string code), (lit "$scope", Any.map object)] := by
  have hlt : lit "$code" < lit "$scope" := by decide
  exact pairwise_pair.mpr hlt

theorem Decoded.converts (h : Decoded lib raw item) : Converts lib item := by
  induction h with
  | null => exact converts_null
  | boolean value => exact converts_bool value
  | string _ => exact converts_string _
  | double _ => exact converts_float64 _
  | int32 value => exact converts_bsonInteger _ _
  | int64 value => exact converts_bsonInteger _ _
  | dateTime _ => exact converts_bsonDateTime _
  | array length _ ih =>
    refine converts_slice ?_
    intro item hmem
    obtain ⟨raw, hzip⟩ := exists_zip_left length hmem
    exact ih raw item hzip
  | document _ keys order _ _ ih =>
    refine converts_map order ?_
    intro field hmem
    have hlength := by simpa using congrArg length keys
    obtain ⟨raw, hzip⟩ := exists_zip_left hlength hmem
    exact ih raw field hzip
  | codeWithScope _ _ ih =>
    refine converts_bsonScalar (codeView_increasing _ _) ?_
    intro field hmem
    rcases mem_cons.mp hmem with rfl | hmem
    · exact converts_string _
    · rw [mem_singleton.mp hmem]
      exact ih
  | scalar _ plain _ _ =>
    cases plain with
    | map order _ each =>
      exact converts_bsonScalar order fun field hmem => (each field hmem).converts

/-! ## Tables back to Go -/

section Tables

variable {convert : Convert} {b : Bridge} {table : Nat} {outputBSON : Bool}
variable {entries : List (Key × Value)} {fields : List (GoString × Any)} {items : List Any}

/-- An entry of a table becomes the field. -/
def FieldConverts (convert : Convert) (b : Bridge) (table : Nat) (outputBSON : Bool)
    (entry : Key × Value) (field : GoString × Any) : Prop :=
  entry.1 = .string field.1 ∧ validUTF8 field.1 = true ∧
    luaFieldToGo convert b table entry.1 entry.2 outputBSON = .ok (field.2, outputBSON)

def ItemConverts (convert : Convert) (b : Bridge) (table : Nat) (outputBSON : Bool)
    (entry : Key × Value) (item : Any) : Prop :=
  luaFieldToGo convert b table entry.1 entry.2 outputBSON = .ok (item, outputBSON)

theorem luaFieldsToGo_ok (h : Forall₂ (FieldConverts convert b table outputBSON) entries fields)
    (result : List (GoString × Any)) :
    luaFieldsToGo convert b table entries result outputBSON =
      .ok (KeyedList.insertAll result fields, outputBSON) := by
  induction h generalizing result with
  | nil => rfl
  | @cons entry field _ _ head _ ih =>
    obtain ⟨key, value⟩ := entry
    obtain ⟨hkey, hvalid, hfield⟩ := head
    subst hkey
    rw [luaFieldsToGo, hvalid, hfield]
    exact ih _

variable {metatable : Option Meta}

/-- The fields of an object come back in key order, whatever the order they
are visited in. -/
theorem luaObjectToGo_ok (holds : b.table table = { metatable, entries })
    (order : KeyedList.Increasing fields)
    (h : Forall₂ (FieldConverts convert b table outputBSON) entries fields) :
    luaObjectToGo lib convert b table outputBSON = .ok (.map fields, outputBSON) := by
  obtain ⟨visited, hvisited, hperm⟩ := perm_comp_forall₂ (lib.order_perm entries) h
  rw [luaObjectToGo, holds, luaFieldsToGo_ok hvisited, KeyedList.insertAll_of_perm order hperm]
  rfl

theorem len_array (keys : entries.map Prod.fst = arrayKeys 1 entries.length) :
    lib.len entries = entries.length := by
  obtain ⟨hin, hout⟩ := lib.len_border entries
  rw [keys] at hin hout
  have hupper : ¬(1 ≤ lib.len entries + 1 ∧ lib.len entries + 1 < 1 + entries.length) :=
    fun h => hout (mem_arrayKeys.mpr h)
  rcases hin with hzero | hin
  · omega
  · have hbound := mem_arrayKeys.mp hin
    omega

theorem inspectLuaTable_array (keys : entries.map Prod.fst = arrayKeys 1 entries.length) :
    inspectLuaTable (lib.order entries) = (entries.length, true) := by
  have hperm := lib.order_perm entries
  rw [inspectLuaTable, hperm.length_eq, Prod.mk.injEq]
  refine ⟨rfl, all_eq_true.mpr ?_⟩
  intro entry hmem
  have hkey : entry.1 ∈ arrayKeys 1 entries.length := by
    rw [← keys]
    exact mem_map_of_mem (hperm.mem_iff.mp hmem)
  obtain ⟨i, hi, heq⟩ := mem_map.mp hkey
  rw [mem_range'_1] at hi
  rw [← heq]
  exact decide_eq_true (by omega)

variable {key : Key}

theorem getEntry_append {before after : List (Key × Value)} {value : Value}
    (fresh : key ∉ before.map Prod.fst) :
    getEntry key (before ++ (key, value) :: after) = value := by
  have hnone : before.find? (fun entry => entry.1 = key) = none := by
    refine find?_eq_none.mpr ?_
    intro entry hmem heq
    exact fresh (of_decide_eq_true heq ▸ mem_map_of_mem hmem)
  have hsome : ((key, value) :: after).find? (fun entry => entry.1 = key) = some (key, value) :=
    find?_cons_of_pos (decide_eq_true rfl)
  rw [getEntry, find?_append, hnone, Option.none_or, hsome]

theorem luaItemsToGo_ok {after : List (Key × Value)}
    (h : Forall₂ (ItemConverts convert b table outputBSON) after items)
    (before : List (Key × Value))
    (keys : (before ++ after).map Prod.fst = arrayKeys 1 (before ++ after).length) :
    luaItemsToGo convert b table (before ++ after) after.length (before.length + 1) outputBSON =
      .ok (items, outputBSON) := by
  induction h generalizing before with
  | nil => rfl
  | @cons entry item rest items head _ ih =>
    obtain ⟨key, value⟩ := entry
    have hkey : key = .int (before.length + 1 : Nat) := by
      have hat := congrArg (fun l : List Key => l[before.length]?) keys
      simpa [arrayKeys, Nat.add_comm] using hat
    have fresh : key ∉ before.map Prod.fst := by
      have hnodup := arrayKeys_nodup 1 (before ++ (key, value) :: rest).length
      rw [← keys, map_append, map_cons] at hnodup
      intro hmem
      exact (nodup_append.mp hnodup).2.2 key hmem key mem_cons_self rfl
    rw [length_cons, luaItemsToGo, ← hkey, getEntry_append fresh, head]
    have happend : before ++ (key, value) :: rest = before ++ [(key, value)] ++ rest := by
      rw [append_assoc, singleton_append]
    rw [happend] at keys ⊢
    have hrest := ih (before ++ [(key, value)]) keys
    rw [length_append, length_singleton] at hrest
    simp only [ok_bind, hrest]

theorem luaArrayToGo_ok (holds : b.table table = { metatable, entries })
    (keys : entries.map Prod.fst = arrayKeys 1 entries.length)
    (h : Forall₂ (ItemConverts convert b table outputBSON) entries items) :
    luaArrayToGo lib convert b table outputBSON = .ok (.slice items, outputBSON) := by
  have hitems := luaItemsToGo_ok h [] keys
  rw [nil_append, length_nil, Nat.zero_add] at hitems
  rw [luaArrayToGo, holds]
  rw [inspectLuaTable_array keys, len_array keys]
  simp [hitems]

theorem luaTableToGo_object (holds : b.table table = { metatable := some .object, entries })
    (order : KeyedList.Increasing fields)
    (h : Forall₂ (FieldConverts convert b table outputBSON) entries fields) :
    luaTableToGo lib convert b table outputBSON = .ok (.map fields, outputBSON) := by
  rw [luaTableToGo, holds]
  exact luaObjectToGo_ok holds order h

theorem luaTableToGo_array (holds : b.table table = { metatable := some .array, entries })
    (keys : entries.map Prod.fst = arrayKeys 1 entries.length)
    (h : Forall₂ (ItemConverts convert b table outputBSON) entries items) :
    luaTableToGo lib convert b table outputBSON = .ok (.slice items, outputBSON) := by
  rw [luaTableToGo, holds]
  exact luaArrayToGo_ok holds keys h

theorem luaFieldToGo_none (hnone : b.integerFields table key = none) (value : Value) :
    luaFieldToGo convert b table key value outputBSON = convert value outputBSON := by
  unfold luaFieldToGo
  rw [hnone]
  split
  · rename_i hsome
    cases hsome
  · rfl

theorem luaFieldToGo_int {integer : BsonInteger}
    (hsome : b.integerFields table key = some integer) (number : Int64) :
    luaFieldToGo convert b table key (.int number) true =
      .ok (bsonIntegerValue number integer.wide, true) := by
  unfold luaFieldToGo
  rw [hsome]

end Tables

/-! ## Values back to Go -/

/-- The next table is neither null nor active, and there is fuel for it. -/
structure Reach (b : Bridge) (low fuel : Nat) (active : List Nat) : Prop where
  null : nullTable < low
  active : ∀ table ∈ active, table < low
  made : low ≤ b.tables.length
  fuel : b.tables.length < fuel + low

variable {low : Nat}

theorem Reach.pos (h : Reach b low fuel active) : ∃ rest, fuel = rest + 1 := by
  have hmade := h.made
  have hfuel := h.fuel
  exact ⟨fuel - 1, by omega⟩

theorem Reach.child (h : Reach b low (fuel + 1) active) (above : low ≤ table)
    (made : table < b.tables.length) : Reach b (table + 1) fuel (table :: active) where
  null := Nat.succ_pos _
  active := by
    intro t hmem
    rcases mem_cons.mp hmem with rfl | hmem
    · exact Nat.lt_succ_self _
    · have hlow := h.active t hmem
      omega
  made := made
  fuel := by
    have hfuel := h.fuel
    omega

def Placed (b : Bridge) (table : Nat) (child : Key × Any) (entry : Key × Value) : Prop :=
  entry.1 = child.1 ∧ b.integerFields table child.1 = slot child.2 ∧
    Represents b (table + 1) child.2 entry.2

theorem placed_all {children : List (Key × Any)}
    (keys : entries.map Prod.fst = children.map Prod.fst)
    (integers : ∀ child ∈ children, b.integerFields table child.1 = slot child.2)
    (each : ∀ child entry, (child, entry) ∈ children.zip entries →
      Represents b (table + 1) child.2 entry.2) :
    Forall₂ (Placed b table) children entries := by
  induction children generalizing entries with
  | nil => rw [map_eq_nil_iff.mp keys]; exact .nil
  | cons child rest ih =>
    cases entries with
    | nil => cases keys
    | cons entry others =>
      rw [map_cons, map_cons, cons.injEq] at keys
      refine .cons ⟨keys.1, integers child mem_cons_self, ?_⟩ (ih keys.2 ?_ ?_)
      · exact each child entry (by rw [zip_cons_cons]; exact mem_cons_self)
      · exact (forall_mem_cons.mp integers).2
      · intro c e hmem
        exact each c e (by rw [zip_cons_cons]; exact mem_cons_of_mem _ hmem)

variable {value : Value}

/-- The table that stands for a value with children. -/
theorem Represents.inv {shape : Shape} (h : Represents b low item value)
    (shaped : item.shape = some shape) :
    ∃ table entries, value = .table table ∧ low ≤ table ∧ table < b.tables.length ∧
      b.bsonScalars table = shape.kind ∧
      b.table table = { metatable := some shape.metatable, entries } ∧
      Forall₂ (Placed b table) shape.children entries := by
  cases h with
  | table hshape above made scalar holds keys integers each =>
    rw [shaped] at hshape
    cases hshape
    exact ⟨_, _, rfl, above, made, scalar, holds, placed_all keys integers each⟩
  | _ => cases shaped

variable {items : List Any}

theorem placed_keys (h : Forall₂ (Placed b table) (numbered 1 items) entries) :
    entries.map Prod.fst = arrayKeys 1 entries.length := by
  have hkeys := map_eq_of_forall₂ h fun _ _ placed => placed.1.symm
  rw [numbered_keys] at hkeys
  have hlength : items.length = entries.length := by
    rw [← h.length_eq, ← numbered_values 1 items, length_map, numbered_values]
  rw [← hkeys, hlength]

def Held (b : Bridge) (table : Nat) (item : Any) (entry : Key × Value) : Prop :=
  b.integerFields table entry.1 = slot item ∧ Represents b (table + 1) item entry.2

variable {entry : Key × Value}

theorem Placed.held {child : Key × Any} (h : Placed b table child entry) :
    Held b table child.2 entry :=
  ⟨by rw [h.1]; exact h.2.1, h.2.2⟩

theorem placed_items (h : Forall₂ (Placed b table) (numbered 1 items) entries) :
    Forall₂ (Held b table) items entries := by
  rw [← numbered_values 1 items]
  exact forall₂_map_left_iff.mpr (h.imp fun _ _ placed => placed.held)

theorem placed_fields {fields : List (GoString × Any)}
    (h : Forall₂ (Placed b table) (named fields) entries) :
    Forall₂ (fun field entry => entry.1 = .string field.1 ∧ Held b table field.2 entry)
      fields entries :=
  (forall₂_map_left_iff.mp h).imp fun _ _ placed => ⟨placed.1, placed.held⟩

section Nested

variable {b : Bridge} {low fuel table : Nat} {active : List Nat} {outputBSON : Bool}

theorem Reach.fresh (reach : Reach b low fuel active) (above : low ≤ table) :
    table ≠ nullTable ∧ table ∉ active := by
  refine ⟨Nat.ne_of_gt (Nat.lt_of_lt_of_le reach.null above), ?_⟩
  intro hmem
  exact absurd (reach.active table hmem) (Nat.not_lt_of_le above)

theorem luaToGo_table (reach : Reach b low (fuel + 1) active) (above : low ≤ table)
    (untyped : b.bsonScalars table = none ∨ outputBSON = false) :
    luaToGo lib b (fuel + 1) active (.table table) outputBSON =
      luaTableToGo lib (luaToGo lib b fuel (table :: active)) b table outputBSON := by
  obtain ⟨hnull, hactive⟩ := reach.fresh above
  rw [luaToGo]
  rw [if_neg hnull, if_neg hactive]
  rcases untyped with hnone | hjson
  · rw [hnone]
  · rw [hjson]
    cases b.bsonScalars table <;> rfl

/-- The view of a scalar is read as JSON and then parsed, that of code with a scope as BSON. -/
theorem luaToGo_typed {kind : Kind} {decoded out : Any} (reach : Reach b low (fuel + 1) active)
    (above : low ≤ table) (typed : b.bsonScalars table = some kind)
    (hview : luaTableToGo lib (luaToGo lib b fuel (table :: active)) b table
      (decide (kind = .codeWithScope)) = .ok (decoded, decide (kind = .codeWithScope)))
    (hencode : encodeBSONScalar lib kind decoded = .ok out) :
    luaToGo lib b (fuel + 1) active (.table table) true = .ok (out, true) := by
  obtain ⟨hnull, hactive⟩ := reach.fresh above
  rw [luaToGo]
  rw [if_neg hnull, if_neg hactive, typed]
  dsimp only
  by_cases hkind : kind = .codeWithScope
  · rw [decide_eq_true hkind] at hview
    rw [if_neg (not_not_intro hkind), hview]
    simp only [ok_bind, if_true, hencode]
  · rw [decide_eq_false hkind] at hview
    rw [if_pos hkind, hview]
    simp only [ok_bind, hencode]

end Nested

/-- An object whose values come back as they were. -/
theorem luaTableToGo_view {convert view}
    (holds : b.table table = { metatable := some .object, entries })
    (order : KeyedList.Increasing view) (names : ∀ field ∈ view, validUTF8 field.1 = true)
    (placed : Forall₂ (Placed b table) (named view) entries)
    (each : ∀ field ∈ view, ∀ value, Represents b (table + 1) field.2 value →
      convert value false = .ok (field.2, false)) :
    luaTableToGo lib convert b table false = .ok (.map view, false) := by
  refine luaTableToGo_object holds order (Forall₂.flip ?_)
  have hnames := (forall₂_and_left _ _).mpr ⟨names, placed_fields placed⟩
  refine ((forall₂_and_left _ _).mpr ⟨each, hnames⟩).imp ?_
  intro field entry hboth
  obtain ⟨hvalue, hname, hkey, hheld⟩ := hboth
  refine ⟨hkey, hname, ?_⟩
  exact hvalue entry.2 hheld.2

/-- Plain JSON comes back as it was while JSON is written. -/
theorem Plain.restored (h : Plain item) (rep : Represents b low item value)
    (reach : Reach b low fuel active) :
    luaToGo lib b fuel active value false = .ok (item, false) := by
  induction h generalizing low fuel value active with
  | null =>
    obtain ⟨fuel, rfl⟩ := reach.pos
    cases rep with
    | null => rfl
    | table shaped => cases shaped
  | bool value =>
    obtain ⟨fuel, rfl⟩ := reach.pos
    cases rep with
    | bool => rfl
    | table shaped => cases shaped
  | string valid =>
    obtain ⟨fuel, rfl⟩ := reach.pos
    cases rep with
    | string made plain => simp [luaToGo, valid]
    | table shaped => cases shaped
  | number value plain =>
    obtain ⟨fuel, rfl⟩ := reach.pos
    cases rep with
    | number plain' => simp [luaToGo, plain'.2]
    | table shaped => cases shaped
  | slice each ih =>
    obtain ⟨fuel, rfl⟩ := reach.pos
    obtain ⟨table, entries, rfl, above, made, scalar, holds, placed⟩ := rep.inv rfl
    rw [luaToGo_table reach above (.inr rfl)]
    refine luaTableToGo_array holds (placed_keys placed) (Forall₂.flip ?_)
    refine ((forall₂_and_left _ _).mpr ⟨@ih, placed_items placed⟩).imp ?_
    intro item entry hboth
    exact hboth.1 hboth.2.2 (reach.child above made)
  | map order names each ih =>
    obtain ⟨fuel, rfl⟩ := reach.pos
    obtain ⟨table, entries, rfl, above, made, scalar, holds, placed⟩ := rep.inv rfl
    rw [luaToGo_table reach above (.inr rfl)]
    exact luaTableToGo_view holds order names placed
      fun field hmem value rep => ih field hmem rep (reach.child above made)

/-! ## What comes back -/

/-- A Go value that is written as a BSON value, up to the order of fields. -/
def Restores (lib : Library) (raw : Bson) (out : Any) : Prop :=
  ∃ written, lib.marshalBSON (orderedBSONValue out) = .ok written ∧ Reordered raw written

theorem restores_mapped {out : Any} (ordered : orderedBSONValue out = out)
    (mapped : out.mapped = some raw) : Restores lib raw out :=
  ⟨raw, by rw [ordered]; exact lib.marshal_mapped out raw mapped, .same raw⟩

theorem restores_fields
    (h : Forall₂ (fun field value => field.1 = value.1 ∧ Restores lib field.2 value.2)
      listed out) :
    ∃ written, Forall₂ (fun field other => field.1 = other.1 ∧
        lib.marshalBSON field.2 = .ok other.2) (orderedFields out) written ∧
      listed.map Prod.fst = written.map Prod.fst ∧
      Forall₂ (fun field other => Reordered field.2 other.2) listed written := by
  induction h with
  | nil => exact ⟨[], by rw [orderedFields]; exact .nil, rfl, .nil⟩
  | @cons field value _ _ head _ ih =>
    obtain ⟨key, out⟩ := value
    obtain ⟨hkey, raw, hraw, hreordered⟩ := head
    obtain ⟨written, hwritten, hnames, heach⟩ := ih
    refine ⟨(key, raw) :: written, ?_, ?_, .cons hreordered heach⟩
    · rw [orderedFields]
      exact .cons ⟨rfl, hraw⟩ hwritten
    · rw [map_cons, map_cons, hnames, hkey]

theorem restores_document (perm : fields.Perm listed)
    (h : Forall₂ (fun field value => field.1 = value.1 ∧ Restores lib field.2 value.2)
      listed out) : Restores lib (.document fields) (.map out) := by
  obtain ⟨written, hwritten, hnames, heach⟩ := restores_fields h
  refine ⟨.document written, ?_, .document perm hnames heach⟩
  rw [orderedBSONValue, lib.marshal_d _ _ hwritten]

theorem restores_array {items : List Bson} {out : List Any}
    (h : Forall₂ (Restores lib) items out) : Restores lib (.array items) (.slice out) := by
  have hitems : ∃ written, Forall₂ (fun item raw => lib.marshalBSON item = .ok raw)
      (orderedItems out) written ∧ Forall₂ Reordered items written := by
    induction h with
    | nil => exact ⟨[], by rw [orderedItems]; exact .nil, .nil⟩
    | cons head _ ih =>
      obtain ⟨raw, hraw, hreordered⟩ := head
      obtain ⟨written, hwritten, heach⟩ := ih
      refine ⟨raw :: written, ?_, .cons hreordered heach⟩
      rw [orderedItems]
      exact .cons hraw hwritten
  obtain ⟨written, hwritten, heach⟩ := hitems
  refine ⟨.array written, ?_, .array heach⟩
  rw [orderedBSONValue, lib.marshal_a _ _ hwritten]

theorem restores_code {code scope}
    (h : Restores lib (.document scope) (.map out)) : Restores lib (.codeWithScope code scope)
      (.codeWithScope code (orderedBSONValue (.map out))) := by
  obtain ⟨written, hwritten, hreordered⟩ := h
  have hdocument : ∃ fields, written = .document fields := by
    cases hreordered <;> exact ⟨_, rfl⟩
  obtain ⟨fields, rfl⟩ := hdocument
  refine ⟨.codeWithScope code fields, ?_, .codeWithScope hreordered⟩
  have hordered : orderedBSONValue (.codeWithScope code (orderedBSONValue (.map out))) =
      .codeWithScope code (orderedBSONValue (.map out)) := by simp [orderedBSONValue]
  rw [hordered, lib.marshal_code _ _ _ hwritten]

theorem bsonIntegerValue_int32 (value : Int32) :
    bsonIntegerValue value.toInt64 false = .int32 value := by
  have hlow := value.le_toInt
  have hhigh := value.toInt_lt
  rw [bsonIntegerValue, Int32.toInt_toInt64, if_neg, Int32.toInt32_toInt64]
  rintro (h | h | h)
  · cases h
  · omega
  · omega

theorem exists_forall₂ {γ : Type*} {P : α → γ → Prop} {Q : β → γ → Prop}
    (h : Forall₂ (fun a b => ∃ c, P a c ∧ Q b c) l l') :
    ∃ cs, Forall₂ P l cs ∧ Forall₂ Q l' cs := by
  induction h with
  | nil => exact ⟨[], .nil, .nil⟩
  | cons head _ ih =>
    obtain ⟨c, hp, hq⟩ := head
    obtain ⟨cs, hps, hqs⟩ := ih
    exact ⟨c :: cs, .cons hp hps, .cons hq hqs⟩

theorem forall₂_comp {γ : Type*} {P : α → β → Prop} {Q : β → γ → Prop} {l'' : List γ}
    (h : Forall₂ P l l') (h' : Forall₂ Q l' l'') :
    Forall₂ (fun a c => ∃ b, P a b ∧ Q b c) l l'' := by
  induction h generalizing l'' with
  | nil =>
    cases h' with
    | nil => exact .nil
  | cons head _ ih =>
    cases h' with
    | cons head' rest' => exact .cons ⟨_, head, head'⟩ (ih rest')

theorem aligned {P : GoString × α → GoString × β → Prop} {l : List (GoString × α)}
    {l' : List (GoString × β)} (keys : l.map Prod.fst = l'.map Prod.fst)
    (each : ∀ a c, (a, c) ∈ l.zip l' → P a c) :
    Forall₂ (fun a c => a.1 = c.1 ∧ P a c) l l' := by
  have hlength : l.length = l'.length := by simpa using congrArg length keys
  have hkeys : Forall₂ (fun a c => a.1 = c.1) l l' := by
    have heq : Forall₂ (· = ·) (l.map Prod.fst) (l'.map Prod.fst) := by
      rw [forall₂_eq_eq_eq]
      exact keys
    exact forall₂_map_right_iff.mp (forall₂_map_left_iff.mp heq)
  exact forall₂_iff_zip.mpr ⟨hlength, fun {a c} hmem => ⟨forall₂_zip hkeys hmem, each a c hmem⟩⟩

/-- What `luaToGo` makes of a decoded value, integers apart: those come back
from their slot. -/
def Returns (lib : Library) (raw : Bson) (item : Any) : Prop :=
  ∀ {b : Bridge} {low fuel : Nat} {value : Value} {active : List Nat},
    Represents b low item value → Reach b low fuel active → slot item = none →
    ∃ out, luaToGo lib b fuel active value true = .ok (out, true) ∧ Restores lib raw out ∧
      ((∃ object, item = .map object) → ∃ fields, out = .map fields)

theorem held_returns (decoded : Decoded lib raw item) (returns : Returns lib raw item)
    (held : Held b table item entry) (reach : Reach b (table + 1) fuel active) :
    ∃ out, luaFieldToGo (luaToGo lib b fuel active) b table entry.1 entry.2 true =
        .ok (out, true) ∧ Restores lib raw out ∧
      ((∃ object, item = .map object) → ∃ fields, out = .map fields) := by
  by_cases hslot : slot item = none
  · rw [luaFieldToGo_none (held.1.trans hslot)]
    exact returns held.2 reach hslot
  obtain ⟨key, value⟩ := entry
  obtain ⟨hinteger, hrep⟩ := held
  cases decoded with
  | int32 number =>
    cases hrep with
    | bsonInteger =>
      refine ⟨.int32 number, ?_, restores_mapped (by simp [orderedBSONValue]) rfl, ?_⟩
      · rw [luaFieldToGo_int hinteger, bsonIntegerValue_int32]
      · rintro ⟨object, hitem⟩
        cases hitem
    | table shaped => cases shaped
  | int64 number =>
    cases hrep with
    | bsonInteger =>
      refine ⟨.int64 number, ?_, restores_mapped (by simp [orderedBSONValue]) rfl, ?_⟩
      · rw [luaFieldToGo_int hinteger, bsonIntegerValue, if_pos (.inl rfl)]
      · rintro ⟨object, hitem⟩
        cases hitem
    | table shaped => cases shaped
  | _ => exact absurd rfl hslot

theorem luaToGo_string {text : GoString} (rep : Represents b low (.string text) value)
    (reach : Reach b low fuel active) (valid : validUTF8 text = true) :
    luaToGo lib b fuel active value true = .ok (.string text, true) := by
  obtain ⟨fuel, rfl⟩ := reach.pos
  cases rep with
  | string made plain => simp [luaToGo, valid, plain]
  | table shaped => cases shaped

theorem luaTableToGo_returns {object : List (GoString × Any)}
    (reach : Reach b (table + 1) fuel active)
    (holds : b.table table = { metatable := some .object, entries })
    (order : KeyedList.Increasing object) (names : ∀ field ∈ object, validUTF8 field.1 = true)
    (placed : Forall₂ (Placed b table) (named object) entries)
    (each : Forall₂ (fun field value => field.1 = value.1 ∧
      Decoded lib field.2 value.2 ∧ Returns lib field.2 value.2) listed object) :
    ∃ out, luaTableToGo lib (luaToGo lib b fuel active) b table true = .ok (.map out, true) ∧
      Forall₂ (fun field value => field.1 = value.1 ∧ Restores lib field.2 value.2)
        listed out := by
  have hheld := (forall₂_and_left _ _).mpr ⟨names, placed_fields placed⟩
  -- The converted fields, under the names of the decoded ones.
  have hout : Forall₂ (fun field entry => ∃ value : GoString × Any,
      (field.1 = value.1 ∧ Restores lib field.2 value.2) ∧
      FieldConverts (luaToGo lib b fuel active) b table true entry value) listed entries := by
    refine (forall₂_comp each hheld).imp ?_
    rintro field entry ⟨value, ⟨hkey, hdecoded, hreturns⟩, hname, hentry, hheld⟩
    obtain ⟨out, hconvert, hrestores, _⟩ := held_returns hdecoded hreturns hheld reach
    exact ⟨(value.1, out), ⟨hkey, hrestores⟩, hentry, hname, hconvert⟩
  obtain ⟨out, hrestores, hconverts⟩ := exists_forall₂ hout
  refine ⟨out, luaTableToGo_object holds ?_ hconverts, hrestores⟩
  have hkeys := map_eq_of_forall₂ each fun _ _ hboth => hboth.1
  exact order.of_keys (hkeys.symm.trans (map_eq_of_forall₂ hrestores fun _ _ hboth => hboth.1))

theorem returns_scalar (out : Any) (ordered : orderedBSONValue out = out)
    (mapped : out.mapped = some raw) (hmap : ∀ object, item ≠ .map object)
    (convert : ∀ {b : Bridge} {low : Nat} {value : Value}, Represents b low item value →
      ∀ fuel active, luaToGo lib b (fuel + 1) active value true = .ok (out, true)) :
    Returns lib raw item := by
  intro b low fuel value active rep reach _
  obtain ⟨fuel, rfl⟩ := reach.pos
  exact ⟨out, convert rep fuel active, restores_mapped ordered mapped,
    fun ⟨object, hitem⟩ => absurd hitem (hmap object)⟩

theorem returns_array {items : List Bson} {values : List Any}
    (each : Forall₂ (fun raw value => Decoded lib raw value ∧ Returns lib raw value)
      items values) : Returns lib (.array items) (.slice values) := by
  intro b low fuel value active rep reach _
  obtain ⟨fuel, rfl⟩ := reach.pos
  obtain ⟨table, entries, rfl, above, made, scalar, holds, placed⟩ := rep.inv rfl
  have hout : Forall₂ (fun raw entry => ∃ out, Restores lib raw out ∧
      luaFieldToGo (luaToGo lib b fuel (table :: active)) b table entry.1 entry.2 true =
        .ok (out, true)) items entries := by
    refine (forall₂_comp each (placed_items placed)).imp ?_
    rintro raw entry ⟨item, ⟨hdecoded, hreturns⟩, hheld⟩
    obtain ⟨out, hconvert, hrestores, _⟩ :=
      held_returns hdecoded hreturns hheld (reach.child above made)
    exact ⟨out, hrestores, hconvert⟩
  obtain ⟨out, hrestores, hconverts⟩ := exists_forall₂ hout
  refine ⟨.slice out, ?_, restores_array hrestores, fun ⟨_, hitem⟩ => nomatch hitem⟩
  rw [luaToGo_table reach above (.inl scalar)]
  exact luaTableToGo_array holds (placed_keys placed) hconverts

theorem returns_code {code scope object} (valid : validUTF8 code = true)
    (decoded : Decoded lib (.document scope) (.map object))
    (returns : Returns lib (.document scope) (.map object)) :
    Returns lib (.codeWithScope code scope)
      (.bsonScalar .codeWithScope [(lit "$code", .string code), (lit "$scope", .map object)]) := by
  intro b low fuel value active rep reach _
  obtain ⟨fuel, rfl⟩ := reach.pos
  obtain ⟨table, entries, rfl, above, made, scalar, holds, placed⟩ := rep.inv rfl
  obtain ⟨entry, entries, ⟨hcodeKey, hcode⟩, hrest, rfl⟩ :=
    forall₂_cons_left_iff.mp (placed_fields placed)
  obtain ⟨entry', entries, ⟨hscopeKey, hscope⟩, hnil, rfl⟩ :=
    forall₂_cons_left_iff.mp hrest
  cases hnil
  have hreach := reach.child above made
  obtain ⟨out, hconvert, hrestores, hmap⟩ := held_returns decoded returns hscope hreach
  obtain ⟨fields, rfl⟩ := hmap ⟨object, rfl⟩
  -- The view, with the scope converted.
  have hview : luaTableToGo lib (luaToGo lib b fuel (table :: active)) b table true =
      .ok (.map [(lit "$code", .string code), (lit "$scope", .map fields)], true) := by
    refine luaTableToGo_object holds (codeView_increasing code fields) ?_
    have hcodeName : validUTF8 (lit "$code") = true := by decide
    have hscopeName : validUTF8 (lit "$scope") = true := by decide
    refine .cons ⟨hcodeKey, hcodeName, ?_⟩ (.cons ⟨hscopeKey, hscopeName, hconvert⟩ .nil)
    rw [luaFieldToGo_none hcode.1]
    exact luaToGo_string hcode.2 hreach valid
  have hencode : encodeBSONScalar lib .codeWithScope
      (.map [(lit "$code", .string code), (lit "$scope", .map fields)]) =
        .ok (.codeWithScope code (orderedBSONValue (.map fields))) := by
    have hne : lit "$code" ≠ lit "$scope" := by decide
    simp [encodeBSONScalar, KeyedList.lookup, hne]
  exact ⟨_, luaToGo_typed reach above scalar hview hencode, restores_code hrestores,
    fun ⟨_, hitem⟩ => nomatch hitem⟩

theorem Decoded.returns (h : Decoded lib raw item) : Returns lib raw item := by
  induction h with
  | null =>
    apply returns_scalar .null (by simp [orderedBSONValue]) rfl (by simp)
    intro b low value rep fuel active
    cases rep with
    | null => rfl
    | table shaped => cases shaped
  | boolean value =>
    apply returns_scalar (.bool value) (by simp [orderedBSONValue]) rfl (by simp)
    intro b low value rep fuel active
    cases rep with
    | bool value => rfl
    | table shaped => cases shaped
  | @string text valid =>
    intro b low fuel value active rep reach _
    exact ⟨.string text, luaToGo_string rep reach valid,
      restores_mapped (by simp [orderedBSONValue]) rfl,
      fun ⟨_, hitem⟩ => nomatch hitem⟩
  | @double bits hfinite =>
    apply returns_scalar (.float64 bits) (by simp [orderedBSONValue]) rfl (by simp)
    intro b low value rep fuel active
    cases rep with
    | float64 => simp [luaToGo, hfinite]
    | table shaped => cases shaped
  | int32 value =>
    intro b low fuel value active rep reach hslot
    cases hslot
  | int64 value =>
    intro b low fuel value active rep reach hslot
    cases hslot
  | @dateTime millis range =>
    apply returns_scalar (.dateTime millis) (by simp [orderedBSONValue]) rfl (by simp)
    intro b low value rep fuel active
    cases rep with
    | bsonDateTime made dated =>
      simp [luaToGo, lib.formatDate_valid millis range, dated, lib.parse_format millis range]
    | table shaped => cases shaped
  | @array items values length each ih =>
    exact returns_array
      (forall₂_iff_zip.mpr ⟨length, fun {a b} hmem => ⟨each a b hmem, ih a b hmem⟩⟩)
  | @document fields listed object perm keys order names each ih =>
    intro b low fuel value active rep reach _
    obtain ⟨fuel, rfl⟩ := reach.pos
    obtain ⟨table, entries, rfl, above, made, scalar, holds, placed⟩ := rep.inv rfl
    have heach := aligned keys fun a c hmem =>
      (⟨each a c hmem, ih a c hmem⟩ : Decoded lib a.2 c.2 ∧ Returns lib a.2 c.2)
    obtain ⟨out, hout, hrestores⟩ :=
      luaTableToGo_returns (reach.child above made) holds order names placed heach
    refine ⟨.map out, ?_, restores_document perm hrestores, fun _ => ⟨out, rfl⟩⟩
    rw [luaToGo_table reach above (.inl scalar)]
    exact hout
  | codeWithScope valid decoded ih => exact returns_code valid decoded ih
  | @scalar raw view encoded kind plain marshalled unmarshalled =>
    intro b low fuel value active rep reach _
    obtain ⟨fuel, rfl⟩ := reach.pos
    obtain ⟨table, entries, rfl, above, made, scalar, holds, placed⟩ := rep.inv rfl
    have hview : luaTableToGo lib (luaToGo lib b fuel (table :: active)) b table
        (decide (raw.kind = .codeWithScope)) =
          .ok (.map view, decide (raw.kind = .codeWithScope)) := by
      rw [decide_eq_false kind]
      cases plain with
      | map order names each =>
        exact luaTableToGo_view holds order names placed
          fun field hmem value rep => (each field hmem).restored rep (reach.child above made)
    have hencode : encodeBSONScalar lib raw.kind (.map view) = .ok (.rawValue raw) := by
      rw [encodeBSONScalar, if_neg kind, marshalled, ok_bind, unmarshalled]
      simp [KeyedList.lookup]
    refine ⟨.rawValue raw, luaToGo_typed reach above scalar hview hencode,
      restores_mapped (by simp [orderedBSONValue]) rfl,
      fun ⟨_, hitem⟩ => nomatch hitem⟩

/-! ## The round trip -/

/-- A document that `decodeBSONObject` accepts becomes a table, whatever the
bridge has converted before; the untouched table is written as the same
document, up to the order of fields. -/
theorem bridge_preserves (lib : Library) (document : BsonDocument) (object : List (GoString × Any))
    (accepted : decodeBSONObject lib document.fields 0 = .ok object) (b : Bridge)
    (sound : Sound b) :
    ∃ table b', goToLua lib (.map object) b = .ok (table, b') ∧
      ∀ maximum, validateResultBudget lib b' table maximum = .ok () →
        ∃ output, encodeJSONObject lib b' table .bson = .ok (.bson output) ∧
          Reordered (.document document.fields) output := by
  obtain ⟨values, hvalues, hnodup, rfl⟩ :=
    decodeBSONFields_decoded document.fields 0 [] object document.textual nodup_nil accepted
  have hdecoded := hvalues.document hnodup
  obtain ⟨table, b', hgo, hsound, hext, hrep⟩ := hdecoded.converts b sound
  refine ⟨table, b', hgo, fun maximum _ => ?_⟩
  have hreach : Reach b' b.tables.length (b'.tables.length + 1) [] :=
    ⟨sound.null, fun _ hmem => absurd hmem not_mem_nil, hext.tables, by omega⟩
  obtain ⟨out, hout, ⟨written, hwritten, hreordered⟩, hmap⟩ := hdecoded.returns hrep hreach rfl
  obtain ⟨fields, rfl⟩ := hmap ⟨_, rfl⟩
  refine ⟨written, ?_, hreordered⟩
  have hbson : (DocumentEncoding.bson == DocumentEncoding.bson) = true := rfl
  rw [encodeJSONObject, hbson, hout]
  simp only [ok_bind, hwritten]

/-! ## A library

Dates are written in RFC 3339. The only scalar is the least key, as the driver
writes it. -/

/-- The days from the first of January of the year 0 to that of another. -/
def daysBefore (year : Nat) : Nat :=
  365 * year + (year + 3) / 4 - (year + 99) / 100 + (year + 399) / 400

def yearOf (day : Nat) : Nat :=
  let guess := 400 * day / 146097
  if daysBefore (guess + 1) ≤ day then guess + 1
  else if daysBefore guess ≤ day then guess else guess - 1

theorem yearOf_bounds (day : Nat) :
    daysBefore (yearOf day) ≤ day ∧ day < daysBefore (yearOf day + 1) := by
  unfold yearOf daysBefore
  generalize hguess : 400 * day / 146097 = guess
  cases guess with
  | zero =>
    dsimp only
    split_ifs <;> omega
  | succ before =>
    simp only [Nat.add_sub_cancel]
    split_ifs <;> omega

def leapDays (year : Nat) : Nat := daysBefore (year + 1) - daysBefore year - 365

theorem leapDays_lt (year : Nat) :
    leapDays year < 2 ∧ daysBefore (year + 1) = daysBefore year + 365 + leapDays year := by
  unfold leapDays daysBefore
  omega

/-- The days before a month, with the leap days at the end of February. -/
def monthStart (leap month : Nat) : Nat :=
  [0, 31, 59, 90, 120, 151, 181, 212, 243, 273, 304, 334].getD month 0 +
    if 2 ≤ month then leap else 0

def monthOf (leap day : Nat) : Nat := ((range 12).filter (monthStart leap · ≤ day)).length - 1

theorem monthOf_bounds : ∀ leap < 2, ∀ day < 365 + leap,
    monthStart leap (monthOf leap day) ≤ day ∧ day < monthStart leap (monthOf leap day) + 31 ∧
      monthOf leap day < 12 := by
  decide +kernel

def digit (n : Nat) : UInt8 := 0x30 + .ofNat (n % 10)

def two (n : Nat) : GoString := [digit (n / 10), digit n]

/-- The milliseconds of a second, without zeros at the end. -/
def fraction (millis : Nat) : GoString :=
  if millis = 0 then []
  else 0x2E :: ((digit (millis / 100) :: two millis).reverse.dropWhile (· == 0x30)).reverse

/-- An instant, in milliseconds since the year 0. -/
def formatTime (time : Nat) : GoString :=
  let day := time / 86400000
  let year := yearOf day
  let month := monthOf (leapDays year) (day - daysBefore year)
  two (year / 100) ++ two year ++ 0x2D :: two (month + 1) ++ 0x2D ::
    two (day - daysBefore year - monthStart (leapDays year) month + 1) ++ 0x54 ::
    two (time / 3600000 % 24) ++ 0x3A :: two (time / 60000 % 60) ++ 0x3A ::
    two (time / 1000 % 60) ++ fraction (time % 1000) ++ [0x5A]

def numberAt (text : GoString) (start : Nat) : Nat :=
  (digitsValue 0 ((text.drop start).take 2)).getD 0

def parseFraction (text : GoString) : Nat :=
  let digits := (text.drop 1).takeWhile (· != 0x5A)
  (digitsValue 0 digits).getD 0 * 10 ^ (3 - digits.length)

def parseTime (text : GoString) : Nat :=
  let year := 100 * numberAt text 0 + numberAt text 2
  let day := daysBefore year + monthStart (leapDays year) (numberAt text 5 - 1) +
    (numberAt text 8 - 1)
  (((day * 24 + numberAt text 11) * 60 + numberAt text 14) * 60 + numberAt text 17) * 1000 +
    parseFraction (text.drop 19)

theorem digitsValue_two : ∀ n < 100, digitsValue 0 (two n) = some n := by decide +kernel

theorem two_mod (n : Nat) : two (n % 100) = two n := by
  have hten : n % 100 / 10 % 10 = n / 10 % 10 := by omega
  rw [two, two, digit, digit, digit, digit, hten, Nat.mod_mod_of_dvd n (by decide)]

theorem parseFraction_fraction : ∀ millis < 1000,
    parseFraction (fraction millis ++ [0x5A]) = millis := by
  decide +kernel

theorem parseTime_formatTime {time : Nat} (h : time < 315569520000000) :
    parseTime (formatTime time) = time := by
  have hyear := yearOf_bounds (time / 86400000)
  unfold formatTime
  dsimp only
  generalize hday : time / 86400000 = day at *
  generalize yearOf day = year at *
  have hleap := leapDays_lt year
  obtain ⟨hstart, hin, hlast⟩ :=
    monthOf_bounds (leapDays year) hleap.1 (day - daysBefore year) (by omega)
  generalize monthOf (leapDays year) (day - daysBefore year) = month at *
  have hlt : year < 10000 := by
    unfold daysBefore at hyear
    omega
  have hcentury := digitsValue_two (year / 100) (by omega)
  have hrest := digitsValue_two (year % 100) (Nat.mod_lt _ (by decide))
  rw [two_mod] at hrest
  have hmonth := digitsValue_two (month + 1) (by omega)
  have hdate := digitsValue_two
    (day - daysBefore year - monthStart (leapDays year) month + 1) (by omega)
  have hhour := digitsValue_two (time / 3600000 % 24) (by omega)
  have hminute := digitsValue_two (time / 60000 % 60) (by omega)
  have hsecond := digitsValue_two (time / 1000 % 60) (by omega)
  have hmillis := parseFraction_fraction (time % 1000) (by omega)
  have hwhole : 100 * (year / 100) + year % 100 = year := Nat.div_add_mod year 100
  unfold two at hcentury hrest hmonth hdate hhour hminute hsecond
  simp only [parseTime, numberAt, two, cons_append, nil_append, drop_succ_cons, drop_zero,
    take_succ_cons, take_zero, hcentury, hrest, hmonth, hdate, hhour, hminute, hsecond, hmillis,
    Option.getD_some, hwhole, Nat.add_sub_cancel]
  omega

theorem parseTime_millis {millis : Int64} (hrange : yearInRange millis = true) :
    let time := (millis.toInt + 62167219200000).toNat
    parseTime (formatTime time) = time ∧ (time : Int) - 62167219200000 = millis.toInt := by
  simp only [yearInRange, Bool.and_eq_true, decide_eq_true_eq] at hrange
  exact ⟨parseTime_formatTime (by omega), by omega⟩

theorem formatTime_ascii (time : Nat) : ∀ c ∈ formatTime time, c < 0x80 := by
  have hdigit : ∀ n, digit n < 0x80 := by
    have hall : ∀ n < 10, 0x30 + UInt8.ofNat n < 0x80 := by decide
    exact fun n => hall (n % 10) (Nat.mod_lt _ (by decide))
  have hfraction : ∀ millis, ∀ c ∈ fraction millis, c < 0x80 := by
    intro millis c hmem
    unfold fraction at hmem
    split at hmem
    · cases hmem
    rcases mem_cons.mp hmem with rfl | hmem
    · decide
    have hc := (dropWhile_sublist _).subset (mem_reverse.mp hmem)
    simp only [two, mem_reverse, mem_cons, not_mem_nil, or_false] at hc
    rcases hc with rfl | rfl | rfl <;> exact hdigit _
  simp only [formatTime, two, forall_mem_append, forall_mem_cons, hdigit, true_and]
  exact ⟨⟨by simp, hfraction _⟩, by simp⟩

theorem exists_border (entries : List (Key × Value)) :
    ∃ n : Nat, Key.int (n + 1) ∉ entries.map Prod.fst := by
  have hinj : Function.Injective fun n : Nat => Key.int (n + 1) := fun n m h => by simpa using h
  exact ((finite_toSet (entries.map Prod.fst)).preimage hinj.injOn).exists_notMem

def minKeyJSON : GoString := lit "\x7b\"value\":\x7b\"$minKey\":1\x7d\x7d"

def minKeyView : List (GoString × Any) := [(lit "$minKey", .number (lit "1"))]

theorem plain_minKeyView : Plain (.map minKeyView) := by
  refine .map (pairwise_singleton _ _) ?_ ?_
  · intro field hmem
    rw [mem_singleton.mp hmem]
    exact validUTF8_ascii (by decide +kernel)
  · intro field hmem
    rw [mem_singleton.mp hmem]
    exact .number 1 ⟨by decide, by decide⟩

mutual

/-- The driver's encoder, before bytes are laid out. -/
def writeAny : Any → Fallible Bson
  | .codeWithScope code scope => do
    match ← writeAny scope with
    | .document fields => .ok (.codeWithScope code fields)
    | _ => refuse "the scope of code is not a document"
  | .d fields => do .ok (.document (← writeFields fields))
  | .a items => do .ok (.array (← writeItems items))
  | value =>
    match value.mapped with
    | some raw => .ok raw
    | none => .error (.text (lit "no encoder found for " ++ value.typeName))

def writeFields : List (GoString × Any) → Fallible (List (GoString × Bson))
  | [] => .ok []
  | (key, value) :: rest => do .ok ((key, ← writeAny value) :: (← writeFields rest))

def writeItems : List Any → Fallible (List Bson)
  | [] => .ok []
  | value :: rest => do .ok ((← writeAny value) :: (← writeItems rest))

end

theorem writeAny_mapped {value : Any} {raw : Bson} (mapped : value.mapped = some raw) :
    writeAny value = .ok raw := by
  cases value <;> cases mapped <;> simp [writeAny, Any.mapped]

/-- A library with dates and one scalar. -/
def minKeyLibrary : Library where
  quote text := text
  formatDate millis := formatTime (millis.toInt + 62167219200000).toNat
  parseDate text :=
    if formatTime (parseTime text) = text then
      .ok (Int64.ofInt (parseTime text - 62167219200000))
    else refuse "cannot parse the date"
  parseFloat _ := none
  floatOfInt _ := 0
  intOfFloat _ := none
  order entries := entries
  len entries := Nat.find (exists_border entries)
  marshalExtJSON
    | [(_, .scalar .minKey [])] => .ok minKeyJSON
    | _ => refuse "unsupported scalar"
  unmarshalExtJSON text :=
    if text = minKeyJSON then .ok [(lit "value", .scalar .minKey [])] else refuse "invalid JSON"
  marshalJSON
    | .map [(_, .map [(_, .number _)])] => .ok minKeyJSON
    | _ => refuse "unsupported value"
  decodeJSONValue text :=
    if text = minKeyJSON then .ok (.map [(lit "value", .map minKeyView)])
    else refuse "invalid JSON"
  marshalBSON := writeAny
  order_perm entries := Perm.refl entries
  len_border entries := by
    refine ⟨?_, Nat.find_spec (exists_border entries)⟩
    rcases Nat.eq_zero_or_pos (Nat.find (exists_border entries)) with hzero | hpos
    · exact .inl hzero
    right
    have hbefore := Nat.find_min (exists_border entries) (Nat.sub_lt hpos Nat.one_pos)
    rw [not_not] at hbefore
    have hcast : ((Nat.find (exists_border entries) - 1 : Nat) : Int) + 1 =
        (Nat.find (exists_border entries) : Int) :=
      congrArg Int.ofNat (Nat.sub_add_cancel hpos)
    rwa [hcast] at hbefore
  formatDate_valid _ _ := validUTF8_ascii (formatTime_ascii _)
  parse_format := by
    intro millis hrange
    rw [(parseTime_millis hrange).1, if_pos rfl, (parseTime_millis hrange).2, Int64.ofInt_toInt]
  view_inverse := by
    intro raw text fields view _ hext hjson hlookup
    split at hext
    · rename_i heq
      cases hext
      cases hjson
      have hview : view = minKeyView := by
        simpa [KeyedList.lookup, eq_comm] using hlookup
      subst hview
      simp only [cons.injEq, Prod.mk.injEq, and_true] at heq
      rw [heq.2]
      exact ⟨plain_minKeyView, minKeyJSON, rfl, rfl⟩
    · cases hext
  marshal_mapped _ _ := writeAny_mapped
  marshal_code code scope fields hscope := by rw [writeAny, hscope]; rfl
  marshal_d fields written h := by
    have hall : writeFields fields = .ok written := by
      induction h with
      | nil => rw [writeFields]
      | @cons field other _ _ head _ ih =>
        obtain ⟨key, value⟩ := field
        obtain ⟨rfl, hvalue⟩ := head
        rw [writeFields, hvalue, ih]
        rfl
    rw [writeAny, hall]
    rfl
  marshal_a items written h := by
    have hall : writeItems items = .ok written := by
      induction h with
      | nil => rw [writeItems]
      | cons head _ ih =>
        rw [writeItems, head, ih]
        rfl
    rw [writeAny, hall]
    rfl

/-- Both widths of one number, a date, the least key, an empty array, a text
that looks like the date and a scope. -/
def mixedDocument : BsonDocument where
  fields := [(lit "wide", .int64 7), (lit "small", .int32 7),
    (lit "when", .dateTime 1709210096500), (lit "least", .scalar .minKey []),
    (lit "none", .array []), (lit "text", .string (lit "2024-02-29T12:34:56.5Z")),
    (lit "code", .codeWithScope (lit "f") [(lit "x", .int32 7), (lit "n", .null)])]
  textual := by decide

theorem bridge_preserves_mixed :
    ∃ object, decodeBSONObject minKeyLibrary mixedDocument.fields 0 = .ok object ∧
      ∃ table b', goToLua minKeyLibrary (.map object) newLuaJSONBridge = .ok (table, b') ∧
        validateResultBudget minKeyLibrary b' table 4096 = .ok () ∧
          ∃ output, encodeJSONObject minKeyLibrary b' table .bson = .ok (.bson output) ∧
            Reordered (.document mixedDocument.fields) output := by
  refine ⟨_, rfl, ?_⟩
  obtain ⟨table, b', hgo, hencode⟩ :=
    bridge_preserves minKeyLibrary mixedDocument _ rfl newLuaJSONBridge newLuaJSONBridge_sound
  have haccepted : validateResultBudget minKeyLibrary b' table 4096 = .ok () := by
    cases hgo
    rfl
  exact ⟨table, b', hgo, haccepted, hencode 4096 haccepted⟩

end Sink.Merge
