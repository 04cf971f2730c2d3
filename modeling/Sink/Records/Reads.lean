import Sink.Lib.UpdateEach
import Sink.Records.Documents

/-!
# Reads of one collection

`readGroup` of `mongodb/read.go`. One query asks for the ids of all operations;
each returned document goes to the operations whose id has the name of its
`_id`, if the budget of the operation has room for it. What the driver and the
budgets answer is a `GroupWorld`: the documents in the order they come, and for
each document and operation whether `Reserve` refuses.

The results are a map from the index of an operation to its result. At most one
returned document is an operation's, so the loop treats each operation as if it
were alone (`readDocuments_spec`).
-/

namespace Sink.Records

open BsonWire Interact List

variable {work : ReadWork} {raw : List UInt8} {results : Results} {found : List (List UInt8)}
  {id : RawValue}

/-- An operation of the group; its budget is in `GroupWorld.refusal`. -/
structure ReadWork where
  index : Nat
  id : MongoID
deriving Repr, DecidableEq

def ReadWork.idKey (work : ReadWork) : List UInt8 := rawValueKey (rawValue work.id)

/-- `results` of the request. -/
abbrev Results := Nat → Storage.ReadResult

def unspecified : Storage.ReadStatus := .unsupported 0

structure GroupWorld where
  /-- What `acquireWireMemory` fails with. -/
  wire : Option GoError
  /-- What `Find` fails with. -/
  find : Option GoError
  documents : List (List UInt8)
  /-- What `Reserve` of an operation fails with for the document of the position. -/
  refusal : Nat → Nat → Option GoError
  /-- What a document without an `_id` fails with. -/
  lookupError : List UInt8 → GoError
  /-- `cursor.Err()`. -/
  cursorErr : Option GoError

variable (driver : MongoDriver) (metadataField : GoString) (world : GroupWorld)
  (operations : List ReadWork)

def setReadError (result : Storage.ReadResult) (err : GoError) : Storage.ReadResult :=
  { result with status := .failed, err := some err }

def setReadGroupError (results : Results) (err : GoError) : Results :=
  updateEach ReadWork.index
    (fun _ result => if result.status = unspecified then setReadError result err else result)
    operations results

/-- `budgets[index].Reserve(len(raw))` for each operation of the id. -/
def reserveEach (position : Nat) (matching : List ReadWork) (results : Results) : Results :=
  updateEach ReadWork.index
    (fun work result =>
      match world.refusal position work.index with
      | some err => setReadError result err
      | none => result)
    matching results

def admitted (position : Nat) (matching : List ReadWork) : List ReadWork :=
  matching.filter fun work => (world.refusal position work.index).isNone

def documentResult (raw : List UInt8) (result : Storage.ReadResult) : Storage.ReadResult :=
  match userDocument driver metadataField raw with
  | .error err => setReadError result err
  | .ok (document, revision) => { status := .found, document, revision, err := none }

/-- One turn of the loop over the cursor. -/
def attach (position : Nat) (raw idKey : List UInt8) (results : Results)
    (found : List (List UInt8)) : Results × List (List UInt8) :=
  let matching := operations.filter fun work => work.idKey = idKey
  let reserved := reserveEach world position matching results
  let admitted := admitted world position matching
  if admitted.isEmpty then (reserved, found)
  else
    (updateEach ReadWork.index (fun _ => documentResult driver metadataField raw) admitted reserved,
      idKey :: found)

/-- The loop over the cursor, from the document of the position; it stops early
if a document has no `_id`. -/
def readDocuments : Nat → List (List UInt8) → Results → List (List UInt8) →
    Except Results (Results × List (List UInt8))
  | _, [], results, found => .ok (results, found)
  | position, raw :: rest, results, found =>
    match lookup raw (lit "_id") with
    | none =>
      let err := world.lookupError raw
      .error (setReadGroupError operations results
        (.wrapped (lit "read MongoDB _id: " ++ err.message) err))
    | some id =>
      let (results, found) :=
        attach driver metadataField world operations position raw (rawValueKey id) results found
      readDocuments (position + 1) rest results found

def readGroup (results : Results) : Results :=
  match world.wire with
  | some err => setReadGroupError operations results (resourceExhaustedError err)
  | none =>
    match world.find with
    | some err => setReadGroupError operations results (backendError (some err))
    | none =>
      match readDocuments driver metadataField world operations 0 world.documents results []
        with
      | .error results => results
      | .ok (results, found) =>
        match world.cursorErr with
        | some err => setReadGroupError operations results (backendError (some err))
        | none =>
          updateEach ReadWork.index
            (fun work result =>
              if result.status ≠ unspecified then result
              else if found.contains work.idKey then result
              else { result with status := .notFound })
            operations results

/-! ## One document -/

variable {driver metadataField world operations}

/-- What a document of its own does to the result of an operation. -/
def answer (driver : MongoDriver) (metadataField : GoString) (world : GroupWorld)
    (position : Nat) (raw : List UInt8) (work : ReadWork) (result : Storage.ReadResult) :
    Storage.ReadResult :=
  match world.refusal position work.index with
  | some err => setReadError result err
  | none => documentResult driver metadataField raw result

section

variable (distinct : (operations.map ReadWork.index).Nodup)

include distinct

theorem nodup_filter (p : ReadWork → Bool) : ((operations.filter p).map ReadWork.index).Nodup :=
  distinct.sublist (Sublist.map _ filter_sublist)

theorem index_injective {other : ReadWork} (hwork : work ∈ operations)
    (hother : other ∈ operations) (h : work.index = other.index) : work = other :=
  inj_on_of_nodup_map distinct hwork hother h

variable {position : Nat}

omit distinct in
theorem attach_found {idKey key : List UInt8}
    (h : key ∈ (attach driver metadataField world operations position raw idKey results found).2) :
    key ∈ found ∨ key = idKey := by
  rw [attach] at h
  split at h
  · exact .inl h
  · exact (mem_cons.mp h).symm

theorem attach_other (hwork : work ∈ operations) {idKey : List UInt8} (hkey : work.idKey ≠ idKey) :
    (attach driver metadataField world operations position raw idKey results found).1 work.index =
      results work.index := by
  have hindex : ∀ other ∈ operations.filter fun work => work.idKey = idKey,
      other.index ≠ work.index := by
    intro other hmem hsame
    obtain ⟨hother, hmatch⟩ := mem_filter.mp hmem
    rw [index_injective distinct hother hwork hsame] at hmatch
    exact hkey (of_decide_eq_true hmatch)
  have hreserved : reserveEach world position
      (operations.filter fun work => work.idKey = idKey) results work.index =
        results work.index := updateEach_of_notMem hindex
  rw [attach]
  split
  · exact hreserved
  have hadmitted : ∀ other ∈ admitted world position
      (operations.filter fun work => work.idKey = idKey), other.index ≠ work.index :=
    fun other hmem => hindex other (mem_of_mem_filter hmem)
  exact (updateEach_of_notMem hadmitted).trans hreserved

/-- The operations of the document's id get its answer. -/
theorem attach_matching (hwork : work ∈ operations) :
    (attach driver metadataField world operations position raw work.idKey results found).1
        work.index =
      answer driver metadataField world position raw work (results work.index) := by
  have hmatching : work ∈ operations.filter fun other => other.idKey = work.idKey :=
    mem_filter.mpr ⟨hwork, decide_eq_true rfl⟩
  have hreserved : reserveEach world position
      (operations.filter fun other => other.idKey = work.idKey) results work.index =
        match world.refusal position work.index with
        | some err => setReadError (results work.index) err
        | none => results work.index :=
    updateEach_of_mem (nodup_filter distinct _) hmatching
  rw [attach, answer]
  cases hrefusal : world.refusal position work.index with
  | some err =>
    rw [hrefusal] at hreserved
    have hindex : ∀ other ∈ admitted world position
        (operations.filter fun other => other.idKey = work.idKey), other.index ≠ work.index := by
      intro other hmem hsame
      obtain ⟨_, hnone⟩ := mem_filter.mp hmem
      rw [hsame, hrefusal] at hnone
      cases hnone
    split
    · exact hreserved
    · exact (updateEach_of_notMem hindex).trans hreserved
  | none =>
    rw [hrefusal] at hreserved
    have hadmitted : work ∈ admitted world position
        (operations.filter fun other => other.idKey = work.idKey) :=
      mem_filter.mpr ⟨hmatching, by rw [hrefusal]; rfl⟩
    have hdistinct : ((admitted world position
        (operations.filter fun other => other.idKey = work.idKey)).map ReadWork.index).Nodup :=
      nodup_filter (nodup_filter distinct _) _
    rw [if_neg (by rw [List.isEmpty_iff]; exact ne_nil_of_mem hadmitted)]
    refine (updateEach_of_mem hdistinct hadmitted).trans ?_
    rw [hreserved]

end

theorem answer_status (position : Nat) (raw : List UInt8) (work : ReadWork)
    (result : Storage.ReadResult) :
    (answer driver metadataField world position raw work result).status = .failed ∨
      world.refusal position work.index = none ∧
        ∃ document revision, userDocument driver metadataField raw = .ok (document, revision) ∧
          answer driver metadataField world position raw work result =
            { status := .found, document, revision, err := none } := by
  rw [answer]
  cases hrefusal : world.refusal position work.index with
  | some err => exact .inl rfl
  | none =>
    rw [documentResult]
    cases hdocument : userDocument driver metadataField raw with
    | error err => exact .inl rfl
    | ok read => exact .inr ⟨rfl, read.1, read.2, rfl, rfl⟩

/-! ## All documents -/

/-- The document has the `_id`. -/
def Identifies (raw : List UInt8) (id : RawValue) : Prop := lookup raw (lit "_id") = some id

/-- Documents that the query can return: each has a well formed `_id`, and no two
have one that MongoDB takes for the same. -/
structure Returned (documents : List (List UInt8)) : Prop where
  identified : ∀ raw ∈ documents, ∃ id, Identifies raw id ∧ WellFormed id
  distinct : documents.Pairwise fun raw other => ∀ id id', Identifies raw id →
    Identifies other id' → recordIDsEqual id id' = false

variable {rest : List (List UInt8)}

theorem Returned.tail (h : Returned (raw :: rest)) : Returned rest :=
  ⟨(forall_mem_cons.mp h.identified).2, (pairwise_cons.mp h.distinct).2⟩

theorem Identifies.eq {id' : RawValue} (h : Identifies raw id) (h' : Identifies raw id') :
    id = id' := Option.some.inj (h.symm.trans h')

theorem Returned.key_ne {other : List UInt8} {id' : RawValue} (h : Returned (raw :: rest))
    (hmem : other ∈ rest) (hid : Identifies raw id) (hid' : Identifies other id') :
    rawValueKey id' ≠ rawValueKey id := by
  obtain ⟨_, hread, hformed⟩ := h.identified raw mem_cons_self
  obtain ⟨_, hread', hformed'⟩ := h.identified other (mem_cons_of_mem _ hmem)
  obtain rfl := hread.eq hid
  obtain rfl := hread'.eq hid'
  intro hkey
  have hequal := (rawValueKey_eq_iff hformed hformed').mp hkey.symm
  rw [(pairwise_cons.mp h.distinct).1 other hmem _ _ hid hid'] at hequal
  cases hequal

/-- Each operation keeps its result if no document is its own, and has the answer
of its document otherwise. -/
theorem readDocuments_spec (distinct : (operations.map ReadWork.index).Nodup)
    {documents : List (List UInt8)} (h : Returned documents) (position : Nat)
    (results : Results) (found : List (List UInt8)) :
    ∃ results' found', readDocuments driver metadataField world operations position documents
        results found = .ok (results', found') ∧
      (∀ key ∈ found', key ∈ found ∨
        ∃ raw ∈ documents, ∃ id, Identifies raw id ∧ rawValueKey id = key) ∧
      ∀ work ∈ operations,
        (∀ raw ∈ documents, ∀ id, Identifies raw id → rawValueKey id ≠ work.idKey) ∧
            results' work.index = results work.index ∨
          ∃ i raw id, documents[i]? = some raw ∧ Identifies raw id ∧ rawValueKey id = work.idKey ∧
            results' work.index = answer driver metadataField world (position + i) raw work
              (results work.index) := by
  induction documents generalizing position results found with
  | nil =>
    refine ⟨results, found, rfl, fun key hmem => .inl hmem, ?_⟩
    intro work _
    exact .inl ⟨fun raw hmem => absurd hmem not_mem_nil, rfl⟩
  | cons raw rest ih =>
    obtain ⟨id, hid, _⟩ := h.identified raw mem_cons_self
    obtain ⟨results', found', hread, hfound, hworks⟩ := ih h.tail (position + 1)
      (attach driver metadataField world operations position raw (rawValueKey id) results found).1
      (attach driver metadataField world operations position raw (rawValueKey id) results found).2
    refine ⟨results', found', ?_, ?_, ?_⟩
    · rw [readDocuments, show lookup raw (lit "_id") = some id from hid]
      exact hread
    · intro key hmem
      rcases hfound key hmem with hkey | ⟨other, hother, hnamed⟩
      · rcases attach_found hkey with hkey | rfl
        · exact .inl hkey
        · exact .inr ⟨raw, mem_cons_self, id, hid, rfl⟩
      · exact .inr ⟨other, mem_cons_of_mem _ hother, hnamed⟩
    · intro work hwork
      by_cases hkey : rawValueKey id = work.idKey
      · rcases hworks work hwork with ⟨_, hsame⟩ | ⟨i, other, id', hother, hid', hkey', _⟩
        · refine .inr ⟨0, raw, id, rfl, hid, hkey, ?_⟩
          rw [hsame, hkey, attach_matching distinct hwork]
          rfl
        · exact absurd (hkey'.trans hkey.symm) (h.key_ne (mem_of_getElem? hother) hid hid')
      · have hsame : (attach driver metadataField world operations position raw
            (rawValueKey id) results found).1 work.index = results work.index :=
          attach_other distinct hwork (Ne.symm hkey)
        rcases hworks work hwork with ⟨hnone, hkept⟩ | ⟨i, other, id', hother, hid', hkey', hres⟩
        · refine .inl ⟨?_, hkept.trans hsame⟩
          intro other hmem id' hid'
          rcases mem_cons.mp hmem with rfl | hmem
          · rw [hid'.eq hid]
            exact hkey
          · exact hnone other hmem id' hid'
        · refine .inr ⟨i + 1, other, id', hother, hid', hkey', ?_⟩
          rw [hres, hsame]
          congr 1
          omega

/-! ## The group -/

theorem wellFormed_rawValue (id : MongoID) : WellFormed (rawValue id) := by
  cases id with
  | string text => exact .string
  | int64 value => exact .int64 (Bytes.length_toLittleEndian _ _)
  | binary data => exact .binary
  | objectID data => exact .objectID

/-- The name of an operation is that of an `_id` that MongoDB takes for its id. -/
theorem idKey_eq_iff (h : WellFormed id) :
    rawValueKey id = work.idKey ↔ recordIDsEqual id (rawValue work.id) = true :=
  rawValueKey_eq_iff h (wellFormed_rawValue work.id)

/-- The last loop of `readGroup`. -/
theorem readGroup_eq {results' : Results} (hwire : world.wire = none) (hfind : world.find = none)
    (hcursor : world.cursorErr = none) (distinct : (operations.map ReadWork.index).Nodup)
    (hread : readDocuments driver metadataField world operations 0 world.documents results [] =
      .ok (results', found)) (hwork : work ∈ operations) :
    readGroup driver metadataField world operations results work.index =
      if (results' work.index).status ≠ unspecified then results' work.index
      else if found.contains work.idKey then results' work.index
      else { results' work.index with status := .notFound } := by
  rw [readGroup, hwire]
  rw [hfind]
  rw [hread]
  rw [hcursor]
  exact updateEach_of_mem distinct hwork

theorem readGroup_spec (hwire : world.wire = none) (hfind : world.find = none)
    (hcursor : world.cursorErr = none) (distinct : (operations.map ReadWork.index).Nodup)
    (returned : Returned world.documents) (hwork : work ∈ operations)
    (fresh : (results work.index).status = unspecified) :
    (readGroup driver metadataField world operations results work.index).status = .notFound ∧
        (∀ raw ∈ world.documents, ∀ id, Identifies raw id →
          recordIDsEqual id (rawValue work.id) = false) ∨
      ∃ position raw id, world.documents[position]? = some raw ∧ Identifies raw id ∧
        recordIDsEqual id (rawValue work.id) = true ∧
        readGroup driver metadataField world operations results work.index =
          answer driver metadataField world position raw work (results work.index) := by
  obtain ⟨results', found, hread, hfound, hworks⟩ :=
    readDocuments_spec distinct returned 0 results []
  have hformed : ∀ raw ∈ world.documents, ∀ id, Identifies raw id → WellFormed id := by
    intro raw hmem id hid
    obtain ⟨id', hid', hok⟩ := returned.identified raw hmem
    rw [hid.eq hid']
    exact hok
  have hgroup := readGroup_eq hwire hfind hcursor distinct hread hwork
  rcases hworks work hwork with ⟨hnone, hsame⟩ | ⟨i, raw, id, hget, hid, hkey, hanswer⟩
  · left
    have hunfound : work.idKey ∉ found := by
      intro hmem
      rcases hfound work.idKey hmem with hmem | ⟨raw, hraw, id, hid, hkey⟩
      · cases hmem
      · exact hnone raw hraw id hid hkey
    rw [hsame, fresh, if_neg (not_not.mpr rfl),
      if_neg (by rw [contains_iff_mem]; exact hunfound)] at hgroup
    refine ⟨by rw [hgroup], ?_⟩
    intro raw hraw id hid
    rw [← Bool.not_eq_true, ← idKey_eq_iff (hformed raw hraw id hid)]
    exact hnone raw hraw id hid
  · right
    have hraw := mem_of_getElem? hget
    refine ⟨i, raw, id, hget, hid, (idKey_eq_iff (hformed raw hraw id hid)).mp hkey, ?_⟩
    rw [Nat.zero_add] at hanswer
    have hfinal : (results' work.index).status ≠ unspecified := by
      rw [hanswer]
      rcases answer_status i raw work (results work.index) with hfailed | ⟨_, _, _, _, hdone⟩
      · rw [hfailed]
        decide
      · rw [hdone]
        exact (by decide : Storage.ReadStatus.found ≠ unspecified)
    rw [hgroup, if_pos hfinal, hanswer]

/-- Reads attach each document to the operations that asked for it: integers and
decimals are compared by their exact values, the names of two ids agree exactly
if MongoDB takes them for one, and every operation of a group ends as the
document of its id and its own budget say. -/
theorem reads_attach_documents (driver : MongoDriver) (metadataField : GoString)
    (world : GroupWorld) (operations : List ReadWork) (results : Results)
    (distinct : (operations.map ReadWork.index).Nodup)
    (fresh : ∀ work ∈ operations, (results work.index).status = unspecified)
    (returned : Returned world.documents) (hwire : world.wire = none)
    (hfind : world.find = none) (hcursor : world.cursorErr = none) :
    (∀ raw n, WellFormed raw → (exactInteger raw = some n ↔ exactValue raw = some (n.toInt : ℚ))) ∧
    (∀ raw other, WellFormed raw → WellFormed other →
      (rawValueKey raw = rawValueKey other ↔ recordIDsEqual raw other = true)) ∧
    ∀ work ∈ operations,
      let result := readGroup driver metadataField world operations results work.index
      (result.status = .found ∨ result.status = .notFound ∨ result.status = .failed) ∧
      (result.status = .found → ∃ position raw id, world.documents[position]? = some raw ∧
        Identifies raw id ∧ recordIDsEqual id (rawValue work.id) = true ∧
        world.refusal position work.index = none ∧
        userDocument driver metadataField raw = .ok (result.document, result.revision)) ∧
      (result.status = .notFound ↔ ∀ raw ∈ world.documents, ∀ id, Identifies raw id →
        recordIDsEqual id (rawValue work.id) = false) := by
  refine ⟨fun raw n h => exactInteger_eq_some h, fun raw other h h' => rawValueKey_eq_iff h h', ?_⟩
  intro work hwork
  dsimp only
  rcases readGroup_spec hwire hfind hcursor distinct returned hwork (fresh work hwork) with
    ⟨hstatus, hnone⟩ | ⟨position, raw, id, hget, hid, hequal, hanswer⟩
  · rw [hstatus]
    exact ⟨.inr (.inl rfl), fun h => (nomatch h), fun _ => hnone, fun _ => rfl⟩
  · have hsome : ¬∀ raw ∈ world.documents, ∀ id, Identifies raw id →
        recordIDsEqual id (rawValue work.id) = false := by
      intro hnone
      rw [hnone raw (mem_of_getElem? hget) id hid] at hequal
      cases hequal
    rw [hanswer]
    rcases answer_status position raw work (results work.index) with
      hfailed | ⟨hrefusal, document, revision, hdocument, hdone⟩
    · rw [hfailed]
      exact ⟨.inr (.inr rfl), fun h => (nomatch h), fun h => (nomatch h),
        fun h => absurd h hsome⟩
    · rw [hdone]
      exact ⟨.inl rfl, fun _ => ⟨position, raw, id, hget, hid, hequal, hrefusal, hdocument⟩,
        fun h => (nomatch h), fun h => absurd h hsome⟩

/-- The decimal 7.0, which is an id of the key 7. -/
def sevenID : RawValue :=
  ⟨typeDecimal128, [70, 0, 0, 0, 0, 0, 0, 0, 0, 0, 0, 0, 0, 0, 0x3E, 0x30]⟩

theorem sevenID_wellFormed : WellFormed sevenID := by
  refine .decimal128 rfl fun coefficient exponent hparts => ?_
  have hseven : decimalParts sevenID.value = some (70, -1) := by decide +kernel
  cases hseven.symm.trans hparts
  decide

/-- A query that returns a document with that id and the revision 1; the second
operation has no room for it. -/
def smallWorld : GroupWorld where
  wire := none
  find := none
  documents := [[54, 0, 0, 0, 0x13, 95, 105, 100, 0] ++ sevenID.value ++ [3, 95, 115, 105, 110, 107,
    0, 21, 0, 0, 0, 5, 114, 101, 118, 105, 115, 105, 111, 110, 0, 1, 0, 0, 0, 0, 1, 0, 0]]
  refusal := fun _ index => if index = 1 then some (.text (lit "no room")) else none
  lookupError := fun _ => .text (lit "element not found")
  cursorErr := none

theorem smallWorld_identifies (hmem : raw ∈ smallWorld.documents) : Identifies raw sevenID := by
  obtain rfl := mem_singleton.mp hmem
  show lookup _ (lit "_id") = _
  decide +kernel

theorem reads_attach_documents_small :
    let results := readGroup plainDriver (lit "_sink") smallWorld
      [⟨0, .int64 7⟩, ⟨1, .int64 7⟩, ⟨2, .string (lit "7")⟩]
      fun _ => ⟨unspecified, .empty, [], none⟩
    results 0 = ⟨.found, ⟨.bson, [26, 0, 0, 0, 0x13, 95, 105, 100, 0] ++ sevenID.value ++ [0]⟩, [1],
        none⟩ ∧
      (results 1).status = .failed ∧ (results 2).status = .notFound := by
  have hall := reads_attach_documents plainDriver (lit "_sink") smallWorld
    [⟨0, .int64 7⟩, ⟨1, .int64 7⟩, ⟨2, .string (lit "7")⟩]
    (fun _ => ⟨unspecified, .empty, [], none⟩) (by decide) (fun _ _ => rfl)
    ⟨fun _ hmem => ⟨sevenID, smallWorld_identifies hmem, sevenID_wellFormed⟩,
      pairwise_singleton _ _⟩ rfl rfl rfl
  refine ⟨by decide +kernel, by decide +kernel, ?_⟩
  refine ((hall.2.2 ⟨2, .string (lit "7")⟩ (by decide)).2.2).mpr fun raw hmem id hid => ?_
  rw [hid.eq (smallWorld_identifies hmem)]
  decide +kernel

end Sink.Records
