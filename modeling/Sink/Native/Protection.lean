import Sink.Native.Engine

/-!
# Native writes cannot keep or forge a revision

`Protected` says what a prepared command is, without mention of the checks:
one field of the command was rewritten, the only one of its name, and in it
every member on its own got the metadata field, with a document that holds the
revision drawn for this member and nothing else. No other part of the member
names the field or a path below it as a target; stages that replace the whole
document may stand before the one that sets the field.

`prepareNativeWrite_protects` is that what the code accepts it also protects,
and that MongoDB then writes no document without the member's revision
(`Protected.writes`).
-/

namespace Sink.Mongo

open List Option

variable {driver : Driver} {m : MetadataField} {fresh : Nat → Fallible Revision}
  {name : GoString} {value : Bson}

/-! ## Protected commands -/

/-- One field of a document was rewritten, the only one called `name`. -/
def Rewritten (name : GoString) (R : Bson → Bson → Prop) (document prepared : D) : Prop :=
  ∃ front value value' back,
    document = front ++ (name, value) :: back ∧ prepared = front ++ (name, value') :: back ∧
      name ∉ front.map Prod.fst ∧ name ∉ back.map Prod.fst ∧ R value value'

def metadataEntry (m : MetadataField) (revision : Revision) : GoString × Bson :=
  (m.name, .document (revisionMetadata revision))

/-- `prepared` is the document with a revision, which had no such field. -/
def ProtectedDocument (m : MetadataField) (revision : Revision) (document prepared : D) : Prop :=
  (∀ field ∈ document, isOperator field.1 = false ∧ ¬ Reserved m field.1) ∧
    prepared = document ++ [metadataEntry m revision]

/-- A known operator, none of whose actions has a reserved target. -/
structure SafeOperator (m : MetadataField) (operator : GoString × Bson) : Prop where
  known : operator.1 ∈ updateOperators
  fields : ∃ fields, operator.2 = .document fields ∧
    (operator.1 = lit "$rename" → ∀ field ∈ fields, ∃ destination, field.2 = .string destination)
  targets : ∀ action ∈ operatorActions operator, ∀ target ∈ action.targets, ¬ Reserved m target

inductive SafeStage (m : MetadataField) : Bson → Prop
  | assign {operator : GoString} {fields : D} :
      operator ∈ ["$set", "$addFields", "$project"].map lit →
        (∀ field ∈ fields, ¬ Reserved m field.1) →
          SafeStage m (.document [(operator, .document fields)])
  | unsetEach {paths : List GoString} :
      (∀ path ∈ paths, ¬ Reserved m path) →
        SafeStage m (.document [(lit "$unset", .array (paths.map .string))])
  | unset {path : GoString} :
      ¬ Reserved m path → SafeStage m (.document [(lit "$unset", .string path)])
  | replaceRoot {operator : GoString} {value : Bson} :
      operator ∈ ["$replaceRoot", "$replaceWith"].map lit →
        SafeStage m (.document [(operator, value)])

inductive ProtectedUpdate (m : MetadataField) (revision : Revision) : Bson → Bson → Prop
  | replacement {document prepared : D} :
      ProtectedDocument m revision document prepared →
        ProtectedUpdate m revision (.document document) (.document prepared)
  | extendedSet {front fields back : D} :
      isReplacement (front ++ (lit "$set", .document fields) :: back) = false →
        (∀ operator ∈ front ++ (lit "$set", .document fields) :: back, SafeOperator m operator) →
          lit "$set" ∉ front.map Prod.fst → lit "$set" ∉ back.map Prod.fst →
            ProtectedUpdate m revision (.document (front ++ (lit "$set", .document fields) :: back))
              (.document (front ++
                (lit "$set", .document (fields ++ [metadataEntry m revision])) :: back))
  | addedSet {update : D} :
      isReplacement update = false → (∀ operator ∈ update, SafeOperator m operator) →
        lit "$set" ∉ update.map Prod.fst →
          ProtectedUpdate m revision (.document update)
            (.document (update ++ [(lit "$set", .document [metadataEntry m revision])]))
  | pipeline {stages : List Bson} :
      (∀ stage ∈ stages, SafeStage m stage) →
        ProtectedUpdate m revision (.array stages)
          (.array (stages ++ [.document (metadataStage m (revisionMetadata revision))]))

/-- Every member of a batch is a document and was prepared on its own. -/
def ProtectedMembers (fresh : Nat → Fallible Revision) (P : Revision → D → D → Prop)
    (value value' : Bson) : Prop :=
  ∃ members members', value = .array members ∧ value' = .array members' ∧
    members'.length = members.length ∧
      ∀ i member, members[i]? = some member →
        ∃ document prepared revision, member = .document document ∧
          members'[i]? = some (.document prepared) ∧ fresh i = .ok revision ∧
            P revision document prepared

inductive Protected (m : MetadataField) (fresh : Nat → Fallible Revision) : D → D → Prop
  | insert {target : Bson} {rest prepared : D} :
      Rewritten (lit "documents") (ProtectedMembers fresh (ProtectedDocument m))
          ((lit "insert", target) :: rest) prepared →
        Protected m fresh ((lit "insert", target) :: rest) prepared
  | update {target : Bson} {rest prepared : D} :
      Rewritten (lit "updates")
          (ProtectedMembers fresh fun revision =>
            Rewritten (lit "u") (ProtectedUpdate m revision))
          ((lit "update", target) :: rest) prepared →
        Protected m fresh ((lit "update", target) :: rest) prepared
  | modify {name : GoString} {target : Bson} {rest prepared : D} {revision : Revision} :
      name = lit "findAndModify" ∨ name = lit "findandmodify" → fresh 0 = .ok revision →
        Rewritten (lit "update") (ProtectedUpdate m revision) ((name, target) :: rest) prepared →
          Protected m fresh ((name, target) :: rest) prepared
  | remove {name : GoString} {target : Bson} {rest : D} :
      name = lit "findAndModify" ∨ name = lit "findandmodify" →
        (lit "remove", .boolean true) ∈ (name, target) :: rest →
          lit "update" ∉ ((name, target) :: rest).map Prod.fst →
            Protected m fresh ((name, target) :: rest) ((name, target) :: rest)

/-! ## What the checks establish -/

theorem checkEach_ok {α : Type} {check : α → Fallible Unit} {items : List α}
    (h : checkEach check items = .ok ()) : ∀ item ∈ items, check item = .ok () := by
  induction items with
  | nil => exact nofun
  | cons item rest ih =>
    obtain ⟨⟨⟩, hitem, h⟩ := bind_ok h
    exact forall_mem_cons.mpr ⟨hitem, ih h⟩

theorem validateDocumentFields_ok {check seen fields}
    (h : validateDocumentFields driver check seen fields = .ok ()) :
    (fields.map Prod.fst).Nodup ∧ (∀ key ∈ fields.map Prod.fst, key ∉ seen) ∧
      ∀ field ∈ fields, check field.2 = .ok () := by
  induction fields generalizing seen with
  | nil => exact ⟨nodup_nil, (nofun), nofun⟩
  | cons field rest ih =>
    obtain ⟨key, value⟩ := field
    unfold validateDocumentFields at h
    split at h
    · cases h
    rename_i hnew
    obtain ⟨⟨⟩, hvalue, h⟩ := bind_ok h
    obtain ⟨hnodup, hseen, hrest⟩ := ih h
    have hkey : key ∉ rest.map Prod.fst := fun hmem => hseen key hmem mem_cons_self
    refine ⟨nodup_cons.mpr ⟨hkey, hnodup⟩, ?_, ?_⟩
    · intro other hmem
      rcases mem_cons.mp hmem with rfl | hmem
      · simpa using hnew
      · exact fun hin => hseen other hmem (mem_cons_of_mem _ hin)
    · exact forall_mem_cons.mpr ⟨hvalue, hrest⟩

variable {fuel : Nat}

/-- The fields of an accepted document are distinct and their values accepted. -/
theorem validate_document {fields : D}
    (h : validateNativeWriteFields driver fuel (.document fields) = .ok ()) :
    (fields.map Prod.fst).Nodup ∧
      ∀ field ∈ fields, ∃ fuel, validateNativeWriteFields driver fuel field.2 = .ok () := by
  cases fuel with
  | zero => cases h
  | succ fuel =>
    obtain ⟨hnodup, -, hfields⟩ := validateDocumentFields_ok h
    exact ⟨hnodup, fun field hmem => ⟨fuel, hfields field hmem⟩⟩

theorem validate_array {items : List Bson}
    (h : validateNativeWriteFields driver fuel (.array items) = .ok ()) :
    ∀ item ∈ items, ∃ fuel, validateNativeWriteFields driver fuel item = .ok () := by
  cases fuel with
  | zero => cases h
  | succ fuel => exact fun item hmem => ⟨fuel, checkEach_ok h item hmem⟩

theorem nativeWritePath_ok {path : GoString} (h : nativeWritePath driver m path = .ok ()) :
    ¬ Reserved m path := by
  unfold nativeWritePath at h
  split at h
  · cases h
  · assumption

theorem nativeRevisionMetadata_ok {fresh : Fallible Revision} {metadata : D}
    (h : nativeRevisionMetadata fresh = .ok metadata) :
    ∃ revision, fresh = .ok revision ∧ metadata = revisionMetadata revision := by
  cases fresh with
  | error err => cases h
  | ok revision => exact ⟨revision, rfl, (Except.ok.inj h).symm⟩

variable {document before after : D}

theorem nativeFieldIndex_some (h : nativeFieldIndex name document = some (before, value, after)) :
    document = before ++ (name, value) :: after ∧ name ∉ before.map Prod.fst := by
  induction document generalizing before with
  | nil => cases h
  | cons field rest ih =>
    obtain ⟨key, first⟩ := field
    unfold nativeFieldIndex at h
    split at h
    · rename_i hkey
      cases h
      exact ⟨by rw [hkey]; rfl, not_mem_nil⟩
    · rename_i hkey
      obtain ⟨⟨front, found, back⟩, hfound, heq⟩ := map_eq_some_iff.mp h
      cases heq
      obtain ⟨hrest, hfront⟩ := ih hfound
      refine ⟨by rw [hrest]; rfl, ?_⟩
      intro hmem
      rcases mem_cons.mp hmem with heq | hmem
      · exact hkey heq.symm
      · exact hfront hmem

variable {document : D}

theorem nativeFieldIndex_none (h : nativeFieldIndex name document = none) :
    name ∉ document.map Prod.fst := by
  induction document with
  | nil => exact not_mem_nil
  | cons field rest ih =>
    unfold nativeFieldIndex at h
    split at h
    · cases h
    rename_i hkey
    intro hmem
    rcases mem_cons.mp hmem with heq | hmem
    · exact hkey heq.symm
    · exact ih (map_eq_none_iff.mp h) hmem

/-- In a document without duplicates the field that is found is the only one
of its name. -/
theorem nativeFieldIndex_only (hnodup : (document.map Prod.fst).Nodup)
    (h : nativeFieldIndex name document = some (before, value, after)) :
    name ∉ after.map Prod.fst := by
  obtain ⟨rfl, -⟩ := nativeFieldIndex_some h
  rw [map_append, map_cons] at hnodup
  exact (nodup_cons.mp (nodup_append.mp hnodup).2.1).1

/-! ## The forms of an update -/

variable {prepared : D}

section

variable {driver : Driver} {m : MetadataField} {fresh : Fallible Revision}

theorem nativeReplacement_protects {document : D}
    (h : nativeReplacement driver m fresh document = .ok prepared) :
    ∃ revision, fresh = .ok revision ∧ ProtectedDocument m revision document prepared := by
  obtain ⟨⟨⟩, hfields, h⟩ := bind_ok h
  obtain ⟨metadata, hmetadata, h⟩ := bind_ok h
  obtain ⟨revision, hfresh, rfl⟩ := nativeRevisionMetadata_ok hmetadata
  refine ⟨revision, hfresh, ?_, (Except.ok.inj h).symm⟩
  intro field hmem
  have hfield := checkEach_ok hfields field hmem
  unfold checkReplacementField at hfield
  split at hfield
  · cases hfield
  · rename_i hoperator
    exact ⟨Bool.eq_false_iff.mpr hoperator, nativeWritePath_ok hfield⟩

theorem checkOperatorField_safe {operator : GoString} {field : GoString × Bson}
    (h : checkOperatorField driver m operator field = .ok ()) :
    (operator = lit "$rename" → ∃ destination, field.2 = .string destination) ∧
      ∀ target ∈ (Action.mk operator field.1 field.2).targets, ¬ Reserved m target := by
  obtain ⟨path, argument⟩ := field
  obtain ⟨⟨⟩, hpath, h⟩ := bind_ok h
  have hsafe := nativeWritePath_ok hpath
  unfold Action.targets
  by_cases hrename : operator = lit "$rename"
  · rw [if_pos hrename] at h
    cases argument with
    | string destination =>
      refine ⟨fun _ => ⟨destination, rfl⟩, ?_⟩
      have hdestination := nativeWritePath_ok h
      simpa [hrename] using ⟨hsafe, hdestination⟩
    | _ => cases h
  · refine ⟨fun hno => absurd hno hrename, ?_⟩
    simpa [hrename] using hsafe

theorem checkOperator_safe {operator : GoString × Bson}
    (h : checkOperator driver m operator = .ok ()) : SafeOperator m operator := by
  obtain ⟨operator, value⟩ := operator
  unfold checkOperator at h
  split at h
  · cases h
  rename_i hknown
  cases value with
  | document fields =>
    have hfields := fun field hmem => checkOperatorField_safe (checkEach_ok h field hmem)
    refine ⟨by simpa using hknown, ⟨fields, rfl, fun hrename field hmem =>
      (hfields field hmem).1 hrename⟩, ?_⟩
    intro action hmem
    obtain ⟨field, hfield, rfl⟩ := mem_map.mp hmem
    exact (hfields field hfield).2
  | _ => cases h

theorem nativeOperatorUpdate_protects {update : D}
    (hnodup : (update.map Prod.fst).Nodup) (hform : isReplacement update = false)
    (h : nativeOperatorUpdate driver m fresh update = .ok prepared) :
    ∃ revision, fresh = .ok revision ∧
      ProtectedUpdate m revision (.document update) (.document prepared) := by
  obtain ⟨⟨⟩, hchecked, h⟩ := bind_ok h
  obtain ⟨metadata, hmetadata, h⟩ := bind_ok h
  obtain ⟨revision, hfresh, rfl⟩ := nativeRevisionMetadata_ok hmetadata
  have hsafe := fun operator hmem => checkOperator_safe (checkEach_ok hchecked operator hmem)
  refine ⟨revision, hfresh, ?_⟩
  cases hindex : nativeFieldIndex (lit "$set") update with
  | none =>
    rw [hindex] at h
    cases h
    exact .addedSet hform hsafe (nativeFieldIndex_none hindex)
  | some found =>
    obtain ⟨front, value, back⟩ := found
    obtain ⟨rfl, hfront⟩ := nativeFieldIndex_some hindex
    have hback := nativeFieldIndex_only hnodup hindex
    obtain ⟨fields, rfl, -⟩ : ∃ fields, value = .document fields ∧ _ :=
      (hsafe (lit "$set", value) (by simp)).fields
    rw [hindex] at h
    cases h
    exact .extendedSet hform hsafe hfront hback

theorem checkUnsetPath_safe {path : Bson} (h : checkUnsetPath driver m path = .ok ()) :
    ∃ name, path = .string name ∧ ¬ Reserved m name := by
  cases path with
  | string name => exact ⟨name, rfl, nativeWritePath_ok h⟩
  | _ => cases h

theorem checkUnsetPaths_safe {paths : List Bson}
    (h : ∀ path ∈ paths, checkUnsetPath driver m path = .ok ()) :
    ∃ names : List GoString, paths = names.map .string ∧ ∀ name ∈ names, ¬ Reserved m name := by
  induction paths with
  | nil => exact ⟨[], rfl, nofun⟩
  | cons path rest ih =>
    obtain ⟨name, rfl, hname⟩ := checkUnsetPath_safe (h path mem_cons_self)
    obtain ⟨names, rfl, hnames⟩ := ih (forall_mem_cons.mp h).2
    exact ⟨name :: names, rfl, forall_mem_cons.mpr ⟨hname, hnames⟩⟩

theorem checkStage_safe {stage : Bson} (h : checkStage driver m stage = .ok ()) :
    SafeStage m stage := by
  unfold checkStage at h
  split at h
  · rename_i operator value
    split at h
    · rename_i hassign
      cases value with
      | document fields =>
        exact .assign (by simpa using hassign) fun field hmem =>
          nativeWritePath_ok (checkEach_ok h field hmem)
      | _ => cases h
    · split at h
      · rename_i hunset
        subst hunset
        split at h
        · obtain ⟨names, rfl, hnames⟩ := checkUnsetPaths_safe (checkEach_ok h)
          exact .unsetEach hnames
        obtain ⟨name, rfl, hname⟩ :=
          checkUnsetPath_safe (checkEach_ok h value (mem_singleton.mpr rfl))
        exact .unset hname
      · split at h
        · rename_i hroot
          exact .replaceRoot (by simpa using hroot)
        · cases h
  · cases h

theorem nativePipelineUpdate_protects {pipeline prepared : List Bson}
    (h : nativePipelineUpdate driver m fresh pipeline = .ok prepared) :
    ∃ revision, fresh = .ok revision ∧
      ProtectedUpdate m revision (.array pipeline) (.array prepared) := by
  obtain ⟨⟨⟩, hstages, h⟩ := bind_ok h
  obtain ⟨metadata, hmetadata, h⟩ := bind_ok h
  obtain ⟨revision, hfresh, rfl⟩ := nativeRevisionMetadata_ok hmetadata
  cases h
  exact ⟨revision, hfresh, .pipeline fun stage hmem =>
    checkStage_safe (checkEach_ok hstages stage hmem)⟩

variable {name : GoString}

theorem nativeUpdate_protects {value prepared : Bson}
    (hvalid : validateNativeWriteFields driver fuel value = .ok ())
    (h : nativeUpdate driver m name fresh value = .ok prepared) :
    ∃ revision, fresh = .ok revision ∧ ProtectedUpdate m revision value prepared := by
  cases value with
  | document value =>
    simp only [nativeUpdate] at h
    split at h
    · obtain ⟨document, hdocument, rfl⟩ := map_ok h
      obtain ⟨revision, hfresh, hprotected⟩ := nativeReplacement_protects hdocument
      exact ⟨revision, hfresh, .replacement hprotected⟩
    · rename_i hform
      obtain ⟨update, hupdate, rfl⟩ := map_ok h
      exact nativeOperatorUpdate_protects (validate_document hvalid).1
        (Bool.eq_false_iff.mpr hform) hupdate
  | array value =>
    obtain ⟨pipeline, hpipeline, rfl⟩ := map_ok h
    exact nativePipelineUpdate_protects hpipeline
  | _ => cases h

theorem nativeUpdateMember_protects {member : D}
    (hvalid : validateNativeWriteFields driver fuel (.document member) = .ok ())
    (h : nativeUpdateMember driver m name fresh member = .ok prepared) :
    ∃ revision, fresh = .ok revision ∧
      Rewritten name (ProtectedUpdate m revision) member prepared := by
  obtain ⟨hnodup, hfields⟩ := validate_document hvalid
  unfold nativeUpdateMember at h
  split at h
  · cases h
  rename_i front value back hindex
  obtain ⟨update, hupdate, rfl⟩ := map_ok h
  obtain ⟨hmember, hfront⟩ := nativeFieldIndex_some hindex
  have hback := nativeFieldIndex_only hnodup hindex
  obtain ⟨fuel, hvalue⟩ := hfields (name, value) (by rw [hmember]; simp)
  obtain ⟨revision, hfresh, hprotected⟩ := nativeUpdate_protects hvalue hupdate
  exact ⟨revision, hfresh, front, value, update, back, hmember, rfl, hfront, hback, hprotected⟩

end

/-! ## The command -/

variable {P : Revision → D → D → Prop} {target : Bson}

section

variable {driver : Driver} {m : MetadataField} {fresh : Nat → Fallible Revision}
  {prepare : Fallible Revision → D → Fallible D} {field : GoString}

theorem prepareMembers_protects {Valid : D → Prop}
    (hprepare : ∀ {answer document prepared}, Valid document →
      prepare answer document = .ok prepared →
        ∃ revision, answer = .ok revision ∧ P revision document prepared) {first : Nat}
    {members prepared : List Bson}
    (hvalid : ∀ document, Bson.document document ∈ members → Valid document)
    (h : prepareMembers field prepare fresh first members = .ok prepared) :
    prepared.length = members.length ∧
      ∀ i member, members[i]? = some member →
        ∃ document result revision, member = .document document ∧
          prepared[i]? = some (.document result) ∧ fresh (first + i) = .ok revision ∧
            P revision document result := by
  induction members generalizing first prepared with
  | nil =>
    cases h
    exact ⟨rfl, fun i member hmember => nomatch hmember⟩
  | cons member rest ih =>
    cases member with
    | document document =>
      obtain ⟨result, hresult, h⟩ := bind_ok h
      obtain ⟨others, hothers, h⟩ := bind_ok h
      cases h
      obtain ⟨hlength, hrest⟩ :=
        ih (fun other hmem => hvalid other (mem_cons_of_mem _ hmem)) hothers
      refine ⟨congrArg (· + 1) hlength, ?_⟩
      intro i other hother
      cases i with
      | zero =>
        obtain ⟨revision, hfresh, hP⟩ := hprepare (hvalid document mem_cons_self) hresult
        cases hother
        exact ⟨document, result, revision, rfl, rfl, hfresh, hP⟩
      | succ i =>
        have hshift : first + 1 + i = first + (i + 1) := by omega
        rw [← hshift]
        exact hrest i other hother
    | _ => cases h

theorem prepareBatch_protects {command : D}
    (hprepare : ∀ {answer document prepared},
      (∃ fuel, validateNativeWriteFields driver fuel (.document document) = .ok ()) →
        prepare answer document = .ok prepared →
          ∃ revision, answer = .ok revision ∧ P revision document prepared)
    (hvalid : validateNativeWriteFields driver fuel (.document command) = .ok ())
    (h : prepareBatch fresh field prepare command = .ok prepared) :
    Rewritten field (ProtectedMembers fresh P) command prepared := by
  obtain ⟨hnodup, hfields⟩ := validate_document hvalid
  unfold prepareBatch at h
  split at h
  · cases h
  · rename_i front members back hindex
    obtain ⟨members', hmembers, rfl⟩ := map_ok h
    obtain ⟨hcommand, hfront⟩ := nativeFieldIndex_some hindex
    have hback := nativeFieldIndex_only hnodup hindex
    obtain ⟨fuel, hvalue⟩ := hfields (field, .array members) (by rw [hcommand]; simp)
    obtain ⟨hlength, hprotected⟩ := prepareMembers_protects hprepare
      (fun document hmem => validate_array hvalue _ hmem) hmembers
    refine ⟨front, .array members, .array members', back, hcommand, rfl, hfront, hback,
      members, members', rfl, rfl, hlength, ?_⟩
    intro i member hmember
    have hresult := hprotected i member hmember
    rwa [Nat.zero_add] at hresult
  · cases h

theorem prepareModify_protects {name : GoString} {rest : D}
    (hname : name = lit "findAndModify" ∨ name = lit "findandmodify")
    (hvalid : validateNativeWriteFields driver fuel (.document ((name, target) :: rest)) = .ok ())
    (h : prepareModify driver m fresh ((name, target) :: rest) = .ok prepared) :
    Protected m fresh ((name, target) :: rest) prepared := by
  unfold prepareModify at h
  split at h
  · rename_i hremove
    split at h
    · cases h
    rename_i hupdate
    cases h
    obtain ⟨hcommand, -⟩ := nativeFieldIndex_some hremove
    have hmem : (lit "remove", Bson.boolean true) ∈ (name, target) :: rest := by
      rw [hcommand]
      simp
    exact .remove hname hmem (nativeFieldIndex_none (by simpa using hupdate))
  · obtain ⟨revision, hfresh, hrewritten⟩ := nativeUpdateMember_protects hvalid h
    exact .modify hname hfresh hrewritten

end

/-! ## What is written -/

theorem lookup_middle {front back : D} (h : name ∉ front.map Prod.fst) :
    (front ++ (name, value) :: back).lookup name = some value := by
  induction front with
  | nil => simp
  | cons field rest ih =>
    obtain ⟨hkey, hrest⟩ := not_or.mp (mem_cons.not.mp h)
    have hne : (name == field.1) = false := by simpa using hkey
    rw [cons_append, lookup_cons, hne]
    exact ih hrest

variable {R : Bson → Bson → Prop}

theorem Rewritten.lookup (h : Rewritten name R document prepared) :
    ∃ value value', R value value' ∧ prepared.lookup name = some value' := by
  obtain ⟨front, value, value', back, -, rfl, hfront, -, hR⟩ := h
  exact ⟨value, value', hR, lookup_middle hfront⟩

theorem Rewritten.commandKind {field : GoString} {rest : D} (hne : name ≠ field)
    (h : Rewritten field R ((name, target) :: rest) prepared) :
    commandKind prepared = commandKind ((name, target) :: rest) := by
  obtain ⟨front, value, value', back, hcommand, rfl, -, -, -⟩ := h
  cases front with
  | nil => exact absurd (congrArg Prod.fst (cons.inj hcommand).1) hne
  | cons first front =>
    obtain ⟨rfl, -⟩ := cons.inj hcommand
    rfl

theorem ProtectedMembers.member {members' : List Bson} {i : Nat}
    (h : ProtectedMembers fresh P value (.array members'))
    (hi : members'[i]? = some (.document prepared)) :
    ∃ document revision, fresh i = .ok revision ∧ P revision document prepared := by
  obtain ⟨members, prepareds, -, heq, hlength, hmembers⟩ := h
  obtain rfl := Bson.array.inj heq
  obtain ⟨hbound, -⟩ := List.getElem?_eq_some_iff.mp hi
  rw [hlength] at hbound
  obtain ⟨document, result, revision, -, hresult, hfresh, hP⟩ :=
    hmembers i members[i] (getElem?_eq_getElem hbound)
  obtain rfl := Bson.document.inj (some.inj (hresult.symm.trans hi))
  exact ⟨document, revision, hfresh, hP⟩

variable {engine : Engine}

section

variable {m : MetadataField} {revision : Revision}

theorem not_isOperator (m : MetadataField) : isOperator m.name = false := by
  have hplain := m.plain
  unfold isOperator
  cases hname : m.name with
  | nil => rfl
  | cons c rest =>
    have hc : c ∉ lit ".$\x00" := hplain c (by rw [hname]; exact mem_cons_self)
    have hdollar : c ≠ 0x24 := by
      rintro rfl
      exact hc (by decide)
    rw [show lit "$" = [0x24] from rfl, isPrefixOf_cons_cons]
    simp [hdollar.symm]

theorem ProtectedDocument.lookup {document : D}
    (h : ProtectedDocument m revision document prepared) :
    prepared.lookup m.name = some (.document (revisionMetadata revision)) := by
  obtain ⟨hfields, rfl⟩ := h
  apply lookup_middle
  intro hmem
  obtain ⟨field, hfield, hname⟩ := mem_map.mp hmem
  exact (hfields field hfield).2 (.inl hname)

theorem ProtectedDocument.isReplacement {document : D}
    (h : ProtectedDocument m revision document prepared) : isReplacement prepared = true := by
  obtain ⟨hfields, rfl⟩ := h
  cases document with
  | nil =>
    show (!isOperator m.name) = true
    rw [not_isOperator, Bool.not_false]
  | cons first rest =>
    show (!isOperator first.1) = true
    rw [(hfields first mem_cons_self).1, Bool.not_false]

theorem isReplacement_append (front back : D) (key : GoString) (value value' : Bson) :
    isReplacement (front ++ (key, value) :: back) =
      isReplacement (front ++ (key, value') :: back) := by
  cases front <;> rfl

theorem SafeOperator.actions {operators : D} (h : ∀ operator ∈ operators, SafeOperator m operator) :
    ∀ action ∈ operators.flatMap operatorActions, ∀ target ∈ action.targets,
      ¬ Reserved m target := by
  intro action hmem
  obtain ⟨operator, hoperator, haction⟩ := mem_flatMap.mp hmem
  exact (h operator hoperator).targets action haction

/-- An operator update that sets the metadata field in `$set` and is safe
otherwise leaves the revision behind. -/
theorem Engine.Updates.of_set {front fields back found result : D}
    (hform : Mongo.isReplacement (front ++ (lit "$set", .document fields) :: back) = false)
    (hfront : ∀ operator ∈ front, SafeOperator m operator)
    (hfields : ∀ action ∈ operatorActions (lit "$set", .document fields),
      ∀ target ∈ action.targets, ¬ Reserved m target)
    (hback : ∀ operator ∈ back, SafeOperator m operator)
    (h : engine.Updates (.document (front ++
      (lit "$set", .document (fields ++ [metadataEntry m revision])) :: back)) found result) :
    result.lookup m.name = some (.document (revisionMetadata revision)) := by
  cases h with
  | replacement hreplacement _ =>
    rw [isReplacement_append front back _ _ (.document fields), hform] at hreplacement
    cases hreplacement
  | operators _ hperm hrun =>
    have hactions : (front ++ (lit "$set", Bson.document (fields ++ [metadataEntry m revision])) ::
        back).flatMap operatorActions =
          (front.flatMap operatorActions ++ operatorActions (lit "$set", .document fields)) ++
            ⟨lit "$set", m.name, .document (revisionMetadata revision)⟩ ::
              back.flatMap operatorActions := by
      simp [operatorActions, metadataEntry]
    rw [hactions] at hperm
    refine engine.performAll_set m hperm ?_ (SafeOperator.actions hback) hrun
    exact forall_mem_append.mpr ⟨SafeOperator.actions hfront, hfields⟩

theorem ProtectedUpdate.updates {update prepared : Bson} {found result : D}
    (h : ProtectedUpdate m revision update prepared)
    (hrun : engine.Updates prepared found result) :
    result.lookup m.name = some (.document (revisionMetadata revision)) := by
  cases h with
  | replacement hdocument =>
    cases hrun with
    | replacement _ hreplace => exact engine.replace_field m.notID hreplace hdocument.lookup
    | operators hform _ _ =>
      rw [hdocument.isReplacement] at hform
      cases hform
  | extendedSet hform hsafe _ _ =>
    have hset := hsafe _ (mem_append_right _ mem_cons_self)
    exact hrun.of_set hform (forall_mem_append.mp hsafe).1
      hset.targets (fun operator hmem =>
        hsafe operator (mem_append_right _ (mem_cons_of_mem _ hmem)))
  | @addedSet operators hform hsafe _ =>
    have hform' : isReplacement (operators ++ [(lit "$set", .document [])]) = false := by
      cases operators with
      | nil => cases hform
      | cons first rest => exact hform
    have hnone : ∀ action ∈ operatorActions (lit "$set", .document []),
        ∀ target ∈ action.targets, ¬ Reserved m target := nofun
    exact Engine.Updates.of_set hform' hsafe hnone (nofun) hrun
  | pipeline _ =>
    cases hrun with
    | pipeline hpipeline => exact engine.runPipeline_set m hpipeline

end

/-- Every document an accepted command writes has the revision that was drawn
for the member that writes it. -/
theorem Protected.writes {command : D} (h : Protected m fresh command prepared)
    {i : Nat} {result : D} (hwrites : engine.Writes prepared i result) :
    ∃ revision, fresh i = .ok revision ∧
      result.lookup m.name = some (.document (revisionMetadata revision)) := by
  unfold Engine.Writes at hwrites
  cases h with
  | @insert target rest _ hrewritten =>
    have hkind : commandKind prepared = some .insert :=
      (hrewritten.commandKind (by decide)).trans (commandKind_insert target rest)
    rw [hkind] at hwrites
    obtain ⟨members, document, hmembers, hdocument, hinsert⟩ := hwrites
    obtain ⟨_, _, hprotected, hlookup⟩ := hrewritten.lookup
    cases hlookup.symm.trans hmembers
    obtain ⟨_, revision, hfresh, hP⟩ := hprotected.member hdocument
    exact ⟨revision, hfresh, engine.insert_field m.notID hinsert hP.lookup⟩
  | @update target rest _ hrewritten =>
    have hkind : commandKind prepared = some .update :=
      (hrewritten.commandKind (by decide)).trans (commandKind_update target rest)
    rw [hkind] at hwrites
    obtain ⟨members, member, update, found, hmembers, hmember, hupdate, hrun⟩ := hwrites
    obtain ⟨_, _, hprotected, hlookup⟩ := hrewritten.lookup
    cases hlookup.symm.trans hmembers
    obtain ⟨_, revision, hfresh, hP⟩ := hprotected.member hmember
    obtain ⟨_, _, hform, hu⟩ := hP.lookup
    cases hu.symm.trans hupdate
    exact ⟨revision, hfresh, hform.updates hrun⟩
  | @modify name target rest _ revision hname hfresh hrewritten =>
    have hne : name ≠ lit "update" := by
      rcases hname with rfl | rfl <;> decide
    have hkind : commandKind prepared = some .modify :=
      (hrewritten.commandKind hne).trans (commandKind_modify hname target rest)
    rw [hkind] at hwrites
    obtain ⟨rfl, update, found, hupdate, hrun⟩ := hwrites
    obtain ⟨_, _, hform, hu⟩ := hrewritten.lookup
    cases hu.symm.trans hupdate
    exact ⟨revision, hfresh, hform.updates hrun⟩
  | @remove name target rest hname _ hnone =>
    rw [commandKind_modify hname target rest] at hwrites
    obtain ⟨-, update, -, hupdate, -⟩ := hwrites
    have habsent : lookup (lit "update") ((name, target) :: rest) = none := by
      refine lookup_eq_none_iff.mpr fun field hmem => ?_
      have hne : lit "update" ≠ field.1 := fun heq =>
        hnone (mem_map.mpr ⟨field, hmem, heq.symm⟩)
      simpa using hne
    rw [habsent] at hupdate
    cases hupdate

/-! ## Accepted commands -/

def documentCommands : List GoString :=
  ["insert", "update", "findAndModify", "findandmodify"].map lit

theorem prepareNativeWrite_protected {rest : D} (hname : name ∈ documentCommands)
    (h : prepareNativeWrite driver m fresh ((name, target) :: rest) = .ok prepared) :
    Protected m fresh ((name, target) :: rest) prepared := by
  have hcases : name = lit "insert" ∨ name = lit "update" ∨ name = lit "findAndModify" ∨
      name = lit "findandmodify" := by
    simpa [documentCommands] using hname
  have hwrite : (!writeCommands.contains name) = false := by
    rcases hcases with rfl | rfl | rfl | rfl <;> decide
  unfold prepareNativeWrite at h
  simp only [hwrite, Bool.false_eq_true, if_false] at h
  split at h
  · cases h
  obtain ⟨⟨⟩, hvalid, h⟩ := bind_ok h
  split at h
  · rename_i hinsert
    subst hinsert
    exact .insert (prepareBatch_protects (fun _ hdocument =>
      nativeReplacement_protects hdocument) hvalid h)
  · rename_i hinsert
    split at h
    · rename_i hupdate
      subst hupdate
      exact .update (prepareBatch_protects (fun ⟨_, hmember⟩ hprepared =>
        nativeUpdateMember_protects hmember hprepared) hvalid h)
    · rename_i hupdate
      have hmodify : name = lit "findAndModify" ∨ name = lit "findandmodify" :=
        (hcases.resolve_left hinsert).resolve_left hupdate
      rw [if_pos hmodify] at h
      exact prepareModify_protects hmodify hvalid h

/-- An accepted command gives every document, replacement, operator update and
pipeline the revision drawn for its member and no other way to the metadata
field, changes nothing else, and so no document is written without one. -/
theorem prepareNativeWrite_protects {driver : Driver} {m : MetadataField}
    {fresh : Nat → Fallible Revision} {name : GoString} {target : Bson} {rest prepared : D}
    (hname : name ∈ documentCommands)
    (h : prepareNativeWrite driver m fresh ((name, target) :: rest) = .ok prepared) :
    Protected m fresh ((name, target) :: rest) prepared ∧
      ∀ (engine : Engine) (i : Nat) (result : D), engine.Writes prepared i result →
        ∃ revision, fresh i = .ok revision ∧
          result.lookup m.name = some (.document (revisionMetadata revision)) := by
  have hprotected := prepareNativeWrite_protected hname h
  exact ⟨hprotected, fun engine i result hwrites => hprotected.writes hwrites⟩

/-! A store that knows `$set` and `$replaceWith`, and a command with two members. -/

def setField (name : GoString) (value : Bson) (document : D) : D :=
  (name, value) :: document.filter fun field => decide (field.1 ≠ name)

theorem lookup_setField : (setField name value document).lookup name = some value := by
  unfold setField
  rw [lookup_cons, beq_self_eq_true]

theorem lookup_setField_ne {other : GoString} (hne : name ≠ other) :
    (setField other value document).lookup name = document.lookup name := by
  have hother : (name == other) = false := by simpa using hne
  unfold setField
  rw [lookup_cons, hother]
  show lookup name _ = _
  induction document with
  | nil => rfl
  | cons field rest ih =>
    by_cases hfield : field.1 = other
    · have hskip : (name == field.1) = false := by rw [hfield]; exact hother
      rw [filter_cons_of_neg (by simpa using hfield), ih, lookup_cons, hskip]
    · rw [filter_cons_of_pos (by simpa using hfield), lookup_cons, lookup_cons, ih]

def setEngine : Engine where
  insert := some
  replace _ document := some document
  perform action document :=
    if action.operator = lit "$set" then some (setField action.path action.argument document)
    else none
  runStage stage document :=
    match stage with
    | [(_, .document [(name, .document [(_, value)])])] => some (setField name value document)
    | [(_, .document fields)] => some (fields ++ document.filter fun field => field.1 == lit "_id")
    | _ => none
  insert_field _ hinsert hlookup := by
    cases hinsert
    exact hlookup
  replace_field _ hreplace hlookup := by
    cases hreplace
    exact hlookup
  perform_set m _ _ _ hperform := by
    cases hperform
    exact lookup_setField
  perform_frame m action document result hsafe hperform := by
    split at hperform
    · rename_i hset
      cases hperform
      refine lookup_setField_ne fun hname => hsafe action.path ?_ (.inl hname.symm)
      unfold Action.targets
      rw [hset, if_neg (by decide)]
      exact mem_singleton.mpr rfl
    · cases hperform
  runStage_set m _ _ _ hstage := by
    cases hstage
    exact lookup_setField

def plainDriver : Driver where
  quote := id
  parseURI _ := .error (.text [])
  parseMediaType := .ok
  validateBSONDocument _ := .ok ()
  unmarshal _ := .ok []
  marshal _ := .error (.text [])
  elements _ := none
  lookupID _ := none
  elements_marshal _ _ hmarshal := by cases hmarshal

def sinkField : MetadataField where
  name := defaultMetadataField
  nonempty := by decide
  notID := by decide
  plain := by decide +kernel

/-- A first member with a `$set` of its own, and a pipeline. -/
def twoUpdates (first second : Bson) : D :=
  [(lit "update", .string (lit "items")),
   (lit "updates", .array [
     .document [(lit "q", .document []), (lit "u", first)],
     .document [(lit "q", .document []), (lit "u", second)]])]

theorem prepareNativeWrite_protects_two :
    let fresh : Nat → Fallible Revision := fun i => .ok [i.toUInt8]
    let prepared := twoUpdates
      (.document [(lit "$set", .document [(lit "n", .int32 1), metadataEntry sinkField [0]])])
      (.array [.document [(lit "$replaceWith", .document [(lit "n", .int32 2)])],
        .document (metadataStage sinkField (revisionMetadata [1]))])
    let command := twoUpdates (.document [(lit "$set", .document [(lit "n", .int32 1)])])
      (.array [.document [(lit "$replaceWith", .document [(lit "n", .int32 2)])]])
    prepareNativeWrite plainDriver sinkField fresh command = .ok prepared ∧
      Protected sinkField fresh command prepared ∧
      setEngine.Writes prepared 0
        [metadataEntry sinkField [0], (lit "n", .int32 1), (lit "_id", .int32 7)] ∧
      setEngine.Writes prepared 1
        [metadataEntry sinkField [1], (lit "n", .int32 2), (lit "_id", .int32 8)] ∧
      ∀ i result, setEngine.Writes prepared i result →
        result.lookup (lit "__sink") = some (.document (revisionMetadata [i.toUInt8])) := by
  intro fresh prepared command
  have hprepared : prepareNativeWrite plainDriver sinkField fresh command = .ok prepared := rfl
  obtain ⟨hprotected, hwrites⟩ := prepareNativeWrite_protects (by decide) hprepared
  refine ⟨hprepared, hprotected, ?_, ?_, ?_⟩
  · refine ⟨_, _, _, [(lit "_id", .int32 7)], rfl, rfl, rfl, ?_⟩
    exact .operators rfl (Perm.refl _) rfl
  · refine ⟨_, _, _, [(lit "n", .int32 1), (lit "_id", .int32 8)], rfl, rfl, rfl, ?_⟩
    exact .pipeline rfl
  · intro i result hresult
    obtain ⟨revision, hfresh, hlookup⟩ := hwrites setEngine i result hresult
    cases hfresh
    exact hlookup

end Sink.Mongo
