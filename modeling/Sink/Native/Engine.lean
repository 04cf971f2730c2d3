import Sink.Native.Writes

/-!
# What MongoDB does with an update

The part of MongoDB's semantics that protects a field, as far as it depends on
the update alone. An `Engine` computes: what an operator does to a document,
what a pipeline stage makes of it. Its laws speak about one plain field name.
Setting the field sets it, an action none of whose targets is the field or
below it leaves the field alone, and a document that is stored whole keeps its
documents but for `_id`.

Pipelines run from left to right. The actions of an operator update run in any
order: MongoDB refuses an update two of whose targets overlap, so it is free to
choose one. Which documents an update finds, and what an upsert starts from,
is left open.
-/

namespace Sink.Mongo

open List Option

/-- What one operator does at one path. -/
structure Action where
  operator : GoString
  path : GoString
  argument : Bson

/-- The paths an action changes: `$rename` changes its destination as well. -/
def Action.targets (action : Action) : List GoString :=
  if action.operator = lit "$rename" then
    match action.argument with
    | .string destination => [action.path, destination]
    | _ => [action.path]
  else [action.path]

def operatorActions : GoString × Bson → List Action
  | (operator, .document fields) => fields.map fun field => ⟨operator, field.1, field.2⟩
  | _ => []

/-- The commands that write documents. -/
inductive CommandKind where
  | insert
  | update
  | modify

/-- The first field of a command says what it is. -/
def commandKind : D → Option CommandKind
  | [] => none
  | (name, _) :: _ =>
    if name = lit "insert" then some .insert
    else if name = lit "update" then some .update
    else if name = lit "findAndModify" ∨ name = lit "findandmodify" then some .modify
    else none

@[simp] theorem commandKind_insert (target : Bson) (rest : D) :
    commandKind ((lit "insert", target) :: rest) = some .insert := rfl

@[simp] theorem commandKind_update (target : Bson) (rest : D) :
    commandKind ((lit "update", target) :: rest) = some .update := rfl

theorem commandKind_modify {name : GoString}
    (h : name = lit "findAndModify" ∨ name = lit "findandmodify") (target : Bson) (rest : D) :
    commandKind ((name, target) :: rest) = some .modify := by
  rcases h with rfl | rfl <;> rfl

/-- MongoDB, as far as it matters which fields an update leaves behind. -/
structure Engine where
  insert : D → Option D
  /-- The document found, and the one that replaces it. -/
  replace : D → D → Option D
  perform : Action → D → Option D
  runStage : D → D → Option D
  insert_field : ∀ {document stored : D} {name : GoString} {fields : D}, name ≠ lit "_id" →
    insert document = some stored → document.lookup name = some (.document fields) →
      stored.lookup name = some (.document fields)
  replace_field : ∀ {found document stored : D} {name : GoString} {fields : D},
    name ≠ lit "_id" → replace found document = some stored →
      document.lookup name = some (.document fields) →
        stored.lookup name = some (.document fields)
  perform_set : ∀ (m : MetadataField) {fields document result : D},
    perform ⟨lit "$set", m.name, .document fields⟩ document = some result →
      result.lookup m.name = some (.document fields)
  perform_frame : ∀ (m : MetadataField) {action : Action} {document result : D},
    (∀ target ∈ action.targets, ¬ Reserved m target) → perform action document = some result →
      result.lookup m.name = document.lookup m.name
  runStage_set : ∀ (m : MetadataField) {fields document result : D},
    runStage (metadataStage m fields) document = some result →
      result.lookup m.name = some (.document fields)

namespace Engine

variable (engine : Engine)

def performAll : List Action → D → Option D
  | [], document => some document
  | action :: rest, document => (engine.perform action document).bind (performAll rest)

def runPipeline : List Bson → D → Option D
  | [], document => some document
  | .document stage :: rest, document => (engine.runStage stage document).bind (runPipeline rest)
  | _ :: _, _ => none

/-- `update` makes `result` of the document `found`. -/
inductive Updates : Bson → D → D → Prop
  | replacement {document found result : D} :
      isReplacement document = true → engine.replace found document = some result →
        Updates (.document document) found result
  | operators {update found result : D} {actions : List Action} :
      isReplacement update = false → actions.Perm (update.flatMap operatorActions) →
        engine.performAll actions found = some result → Updates (.document update) found result
  | pipeline {stages : List Bson} {found result : D} :
      engine.runPipeline stages found = some result → Updates (.array stages) found result

/-- Member `i` of a command can write `result`. -/
def Writes (command : D) (i : Nat) (result : D) : Prop :=
  match commandKind command with
  | some .insert => ∃ members document, command.lookup (lit "documents") = some (.array members) ∧
      members[i]? = some (.document document) ∧ engine.insert document = some result
  | some .update => ∃ members member update found,
      command.lookup (lit "updates") = some (.array members) ∧
        members[i]? = some (.document member) ∧ member.lookup (lit "u") = some update ∧
          engine.Updates update found result
  | some .modify => i = 0 ∧ ∃ update found, command.lookup (lit "update") = some update ∧
      engine.Updates update found result
  | none => False

/-! ## The field a run leaves behind -/

variable {document result : D}

theorem performAll_frame (m : MetadataField) {actions : List Action}
    (hsafe : ∀ action ∈ actions, ∀ target ∈ action.targets, ¬ Reserved m target)
    (h : engine.performAll actions document = some result) :
    result.lookup m.name = document.lookup m.name := by
  induction actions generalizing document with
  | nil =>
    cases h
    rfl
  | cons action rest ih =>
    obtain ⟨next, hnext, hrest⟩ := bind_eq_some_iff.mp h
    have hkept := ih (forall_mem_cons.mp hsafe).2 hrest
    rw [hkept]
    exact engine.perform_frame m (hsafe action mem_cons_self) hnext

theorem performAll_append {front back : List Action}
    (h : engine.performAll (front ++ back) document = some result) :
    ∃ middle, engine.performAll back middle = some result := by
  induction front generalizing document with
  | nil => exact ⟨document, h⟩
  | cons action rest ih =>
    obtain ⟨next, -, hrest⟩ := bind_eq_some_iff.mp h
    exact ih hrest

/-- Only one action sets the field and no other names it: in whatever order
they run, the field has the value it was set to. -/
theorem performAll_set (m : MetadataField) {fields : D} {actions front back : List Action}
    (hperm : actions.Perm (front ++ ⟨lit "$set", m.name, .document fields⟩ :: back))
    (hfront : ∀ action ∈ front, ∀ target ∈ action.targets, ¬ Reserved m target)
    (hback : ∀ action ∈ back, ∀ target ∈ action.targets, ¬ Reserved m target)
    (h : engine.performAll actions document = some result) :
    result.lookup m.name = some (.document fields) := by
  have hmem : (⟨lit "$set", m.name, .document fields⟩ : Action) ∈ actions :=
    hperm.mem_iff.mpr (by simp)
  obtain ⟨first, last, rfl⟩ := append_of_mem hmem
  -- the actions behind it are among the others
  have hothers : (first ++ last).Perm (front ++ back) :=
    (perm_middle.symm.trans (hperm.trans perm_middle)).cons_inv
  have hlast : ∀ action ∈ last, ∀ target ∈ action.targets, ¬ Reserved m target := by
    intro action ha
    have hin := hothers.mem_iff.mp (mem_append_right first ha)
    rcases mem_append.mp hin with hin | hin
    · exact hfront action hin
    · exact hback action hin
  obtain ⟨middle, hmiddle⟩ := engine.performAll_append h
  obtain ⟨next, hnext, hrest⟩ := bind_eq_some_iff.mp hmiddle
  rw [engine.performAll_frame m hlast hrest]
  exact engine.perform_set m hnext

theorem runPipeline_set (m : MetadataField) {stages : List Bson} {fields document result : D}
    (h : engine.runPipeline (stages ++ [.document (metadataStage m fields)]) document =
      some result) : result.lookup m.name = some (.document fields) := by
  induction stages generalizing document with
  | nil =>
    obtain ⟨next, hnext, hrest⟩ := bind_eq_some_iff.mp h
    cases hrest
    exact engine.runStage_set m hnext
  | cons stage rest ih =>
    cases stage with
    | document stage =>
      obtain ⟨next, -, hrest⟩ := bind_eq_some_iff.mp h
      exact ih hrest
    | _ => cases h

end Engine

end Sink.Mongo
