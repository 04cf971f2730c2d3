import Sink.Lib.UpdateEach
import Sink.Search.Client

/-!
# Search writes

`search/write.go`. Writes to one record go into waves, one after the other; a
wave is one bulk request. A bulk action cannot demand that a record exists, so
a Replace is made conditional: a multi-get finds the record's numbers, and the
action is sent with them. If somebody else changed the record in between the
action is refused, and the Replace alone is tried again, three times in all.

`wave`, `eligible` and `results` are slices that the check writes into; here it
takes and returns them (`Check`). The results are a function of the operation's
index.
-/

namespace Sink.SearchStore

open Interact Function

abbrev Results := Nat → Storage.WriteResult

def zeroResult : Storage.WriteResult := ⟨.unsupported 0, [], none⟩

def setWriteError (result : Storage.WriteResult) (err : GoError) : Storage.WriteResult :=
  { result with status := .failed, err := some (backendError (some err)) }

def setPreconditionFailed (result : Storage.WriteResult) : Storage.WriteResult :=
  { result with status := .preconditionFailed }

/-- `setWriteError` for every one of the works. -/
def failAll (results : Results) (works : List WriteWork) (err : GoError) : Results :=
  updateEach WriteWork.resultIndex (fun _ result => setWriteError result err) works results

variable (s : Store)

/-! ## Preparing -/

def validatePrecondition : Storage.Precondition → Fallible Unit
  | .none | .recordExists | .recordNotExists | .revisionAbsent => .ok ()
  | .revisionMatches revision => (decodeRevision revision).map fun _ => ()

def prepareWrite (index : Nat) (operation : Storage.WriteOperation) : Fallible WriteWork := do
  let document ← s.resolve operation.address
  if operation.document.encoding ≠ .json then
    .error (invalidArgumentError (.text (lit "search storage requires JSON document encoding")))
  else
    (s.validateDocument operation.document).mapError invalidArgumentError
    (validatePrecondition operation.precondition).mapError invalidArgumentError
    .ok {
      resultIndex := index
      routingKey := operation.address.uri
      document
      source := operation.document.payload
      precondition := operation.precondition
      existsOnly := operation.precondition = .recordExists }

/-- The loop of `Write` over the operations, from index `i` on. -/
def prepareWrites : Nat → List Storage.WriteOperation → Results → List WriteWork × Results
  | _, [], results => ([], results)
  | i, operation :: rest, results =>
    match prepareWrite s i operation with
    | .error err =>
      prepareWrites (i + 1) rest (update results i (setWriteError (results i) err))
    | .ok work =>
      let (prepared, results) := prepareWrites (i + 1) rest results
      (work :: prepared, results)

/-- `waves[i] = append(waves[i], work)`, with the waves up to `i` made. -/
def appendToWave : List (List WriteWork) → Nat → WriteWork → List (List WriteWork)
  | [], 0, work => [[work]]
  | [], i + 1, work => [] :: appendToWave [] i work
  | wave :: waves, 0, work => (wave ++ [work]) :: waves
  | wave :: waves, i + 1, work => wave :: appendToWave waves i work

/-- The loop of `buildWriteWaves`; `earlier` are the routing keys so far. -/
def buildWriteWavesFrom : List GoString → List (List WriteWork) → List WriteWork →
    List (List WriteWork)
  | _, waves, [] => waves
  | earlier, waves, work :: rest =>
    buildWriteWavesFrom (work.routingKey :: earlier)
      (appendToWave waves (earlier.count work.routingKey) work) rest

def buildWriteWaves (prepared : List WriteWork) : List (List WriteWork) :=
  buildWriteWavesFrom [] [] prepared

/-! ## The existence check -/

/-- `existingWriteCheck`. -/
structure Check where
  wave : List WriteWork
  results : Results
  eligible : List Bool

/-- How `prepareExistingWrite` decides about a write. -/
inductive Existing where
  | absent
  | fails (err : GoError)
  | found (revision : Revision)

/-- `prepareExistingWrite`, up to the places it writes to. -/
def judgeExisting (document : MultiGetDocument) : Existing :=
  match document.error with
  | some detail => if detail.isIndexNotFound then .absent else .fails detail.error
  | none =>
    match document.found with
    | none => .fails (.text (lit "search document has no found flag"))
    | some false => .absent
    | some true =>
      match document.sequence, document.primaryTerm with
      | some sequence, some primaryTerm =>
        match encodeRevision sequence primaryTerm with
        | .error err => .fails err
        | .ok revision => .found revision
      | _, _ => .fails (.text (lit "search document has no sequence number or primary term"))

namespace Check

variable (check : Check) (position : Nat)

def setResult (f : Storage.WriteResult → Storage.WriteResult) : Check :=
  match check.wave[position]? with
  | none => check
  | some work =>
    { check with
      results := update check.results work.resultIndex
        (f (check.results work.resultIndex)) }

/-- What a decision changes at a position. -/
def settle : Existing → Check
  | .absent => check.setResult position setPreconditionFailed
  | .fails err => check.setResult position (setWriteError · err)
  | .found revision =>
    { check with
      wave := check.wave.modify position fun work =>
        { work with precondition := .revisionMatches revision }
      eligible := check.eligible.set position true }

def prepareExistingWrite (document : MultiGetDocument) : Check :=
  check.settle position (judgeExisting document)

end Check

/-- The loop of `checkExistingWrites` after a multi-get that failed. -/
def failReads (works : List ReadWork) (err : GoError) (check : Check) : Check :=
  works.foldl (fun check read => check.settle read.resultIndex (.fails err)) check

/-- The same loop after one that brought documents. -/
def prepareReads (works : List ReadWork) (documents : List MultiGetDocument) (check : Check) :
    Check :=
  (works.zip documents).foldl
    (fun check (read, document) => check.prepareExistingWrite read.resultIndex document) check

/-- `checkExistingWrites`. An answer that is too large is asked for in halves,
so as many levels as there are works are enough. -/
def checkExistingWrites : Nat → List ReadWork → Check → Prog Call Reply Check
  | 0, _, _ => .diverge
  | fuel + 1, works, check =>
    (multiGet s works false).bind fun
      | .ok documents => .ret (prepareReads works documents check)
      | .error failure =>
        if failure.tooLarge ∧ works.length > 1 then
          .call .ctxErr fun ctx =>
            match (ctx : Option ContextErr) with
            | some _ => .ret (failReads works failure.err check)
            | none =>
              let middle := works.length / 2
              (checkExistingWrites fuel (works.take middle) check).bind fun check =>
                checkExistingWrites fuel (works.drop middle) check
        else .ret (failReads works failure.err check)

/-! ## The bulk request -/

/-- `precondition kind %d cannot use a search bulk write`. -/
def unusableKind (kind : Int) : GoError :=
  .text (lit "precondition kind " ++ decimal kind ++ lit " cannot use a search bulk write")

/-- The action of a work: its name and the numbers it demands. -/
def bulkAction : Storage.Precondition → Fallible (GoString × Option (Int64 × Int64))
  | .none => .ok (lit "index", none)
  | .recordNotExists => .ok (lit "create", none)
  | .revisionMatches revision => (decodeRevision revision).map fun values =>
    (lit "index", some values)
  | .recordExists => .error (unusableKind 1)
  | .revisionAbsent => .error (unusableKind 4)

/-- One turn of the loop of `buildWriteBulk`. -/
def bulkLine (work : WriteWork) : Fallible BulkLine := do
  let (name, numbers) ← bulkAction work.precondition
  let source ← (s.compact work.source).mapError fun err =>
    .wrapped (lit "encode search bulk document: " ++ err.message) err
  .ok ⟨name, ⟨work.document, numbers.map Prod.fst, numbers.map Prod.snd⟩, source⟩

def buildWriteBulk : List WriteWork → Fallible (List BulkLine)
  | [] => .ok []
  | work :: rest => do
    let line ← bulkLine s work
    (buildWriteBulk rest).map (line :: ·)

section

variable {s : Store}

theorem bulkLine_ok {work : WriteWork} {line : BulkLine} (h : bulkLine s work = .ok line) :
    ∃ name numbers source, bulkAction work.precondition = .ok (name, numbers) ∧
      s.compact work.source = .ok source ∧
      line = ⟨name, ⟨work.document, numbers.map Prod.fst, numbers.map Prod.snd⟩, source⟩ := by
  obtain ⟨⟨name, numbers⟩, haction, h⟩ := bind_ok h
  obtain ⟨source, hsource, h⟩ := coded_ok h
  exact ⟨name, numbers, source, haction, hsource, (Except.ok.inj h).symm⟩

theorem buildWriteBulk_lines {works payload} (h : buildWriteBulk s works = .ok payload) :
    List.Forall₂ (fun work line => bulkLine s work = .ok line) works payload := by
  induction works generalizing payload with
  | nil =>
    cases h
    exact .nil
  | cons work rest ih =>
    obtain ⟨line, hline, h⟩ := bind_ok h
    obtain ⟨lines, hrest, rfl⟩ := map_ok h
    exact .cons hline (ih hrest)

end

def classifySearchStatus (statusCode : Int) (cause : GoError) (detail : Option ErrorDetail) :
    GoError :=
  let rejected := detail.any fun detail =>
    (["mapper_parsing_exception", "document_parsing_exception",
      "strict_dynamic_mapping_exception"].map lit).contains detail.type
  if statusCode = 400 ∧ rejected then invalidArgumentError cause
  else if statusCode = 413 ∨ statusCode = 429 then resourceExhaustedError cause
  else backendError (some cause)

def applyWriteItem (result : Storage.WriteResult) (item : BulkItem) : Storage.WriteResult :=
  if item.status = 409 ∧
      item.error.all (fun detail => detail.type == lit "version_conflict_engine_exception") then
    setPreconditionFailed result
  else if !succeeded item.status ∨ item.error.isSome then
    match item.error with
    | some detail =>
      setWriteError result (classifySearchStatus item.status detail.error (some detail))
    | none =>
      let err := GoError.text (lit "search bulk write returned HTTP " ++ decimal item.status)
      setWriteError result (classifySearchStatus item.status err none)
  else
    match item.sequence, item.primaryTerm with
    | some sequence, some primaryTerm =>
      match encodeRevision sequence primaryTerm with
      | .error err => setWriteError result err
      | .ok revision => { result with status := .applied, revision }
    | _, _ =>
      setWriteError result
        (.text (lit "search bulk write returned no sequence number or primary term"))

/-! ## Waves -/

/-- The first loop of `writeWaveAttempt`: the check it starts, and what it has
to read. -/
def startCheck : List WriteWork → Nat → Results → List Bool × List ReadWork × Results
  | [], _, results => ([], [], results)
  | work :: rest, index, results =>
    match work.precondition with
    | .revisionAbsent =>
      let (eligible, reads, results) := startCheck rest (index + 1)
        (update results work.resultIndex
          (setPreconditionFailed (results work.resultIndex)))
      (false :: eligible, reads, results)
    | .recordExists =>
      let (eligible, reads, results) := startCheck rest (index + 1) results
      (false :: eligible, ⟨index, work.document⟩ :: reads, results)
    | _ =>
      let (eligible, reads, results) := startCheck rest (index + 1) results
      (true :: eligible, reads, results)

/-- The works that are eligible, in the order of the wave. -/
def readyWorks (check : Check) : List WriteWork :=
  (check.wave.zip check.eligible).filterMap fun (work, eligible) =>
    if eligible then some work else none

/-- The last loop of `writeWaveAttempt`: the results and the works that are
pending again. -/
def applyItems : List (WriteWork × BulkItem) → Results → Results × List WriteWork
  | [], results => (results, [])
  | (work, item) :: rest, results =>
    if item.status = 409 ∧ work.existsOnly then
      let (results, pending) := applyItems rest results
      (results, { work with precondition := .recordExists } :: pending)
    else
      applyItems rest (update results work.resultIndex
        (applyWriteItem (results work.resultIndex) item))

def writeWaveAttempt (wave : List WriteWork) (results : Results) (waitUntilVisible : Bool) :
    Prog Call Reply (Results × List WriteWork) :=
  let (eligible, reads, results) := startCheck wave 0 results
  let check : Check := ⟨wave, results, eligible⟩
  let checked := if reads = [] then .ret check else checkExistingWrites s reads.length reads check
  checked.bind fun check =>
    let ready := readyWorks check
    if ready = [] then .ret (check.results, [])
    else
      match buildWriteBulk s ready with
      | .error err => .ret (failAll check.results ready err, [])
      | .ok payload =>
        (performBulk s ready ⟨payload, waitUntilVisible⟩).bind fun
          | .error err => .ret (failAll check.results ready err, [])
          | .ok items => .ret (applyItems (ready.zip items) check.results)

def maxExistingWriteAttempts : Nat := 3

def recordChanged : GoError :=
  .operation .conflict true (.text (lit "record changed during search replace"))

/-- The loop of `writeWave`, with so many attempts left. -/
def writeWaveFrom (visible : Bool) : Nat → List WriteWork → Results → Prog Call Reply Results
  | 0, pending, results => .ret (failAll results pending recordChanged)
  | left + 1, pending, results =>
    if pending = [] then .ret results
    else
      (writeWaveAttempt s pending results visible).bind fun (results, pending) =>
        writeWaveFrom visible left pending results

def writeWave (wave : List WriteWork) (results : Results) (visible : Bool) :
    Prog Call Reply Results :=
  writeWaveFrom s visible maxExistingWriteAttempts wave results

/-- The loop of `Write` over the waves. -/
def writeWaves (visible : Bool) : List (List WriteWork) → Results → Prog Call Reply Results
  | [], results => .ret results
  | wave :: waves, results =>
    (writeWave s wave results visible).bind fun results => writeWaves visible waves results

def write (operations : List Storage.WriteOperation) (waitUntilVisible : Bool) :
    Prog Call Reply Results :=
  let (prepared, results) := prepareWrites s 0 operations fun _ => zeroResult
  writeWaves s waitUntilVisible (buildWriteWaves prepared) results

end Sink.SearchStore
