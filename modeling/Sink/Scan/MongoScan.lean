import Sink.Scan.Commands
import Sink.Scan.MongoCommand
import Sink.Scan.Pages

/-!
# MongoDB scans

The second half of `mongodb/scan.go`: one page is a find command for one
document more than the page may hold, and the documents of its answer up to
the page's size and byte limit. The position of the next page is the `_id` of
the last document that was kept.

A reader who follows the cursors gets every matching document once and in
order, or an error (`scan_pages`). The server's part is `Answers`: it returns
the matching documents strictly behind the literal position, in the order of
`_id`, up to the limit.
-/

namespace Sink.Mongo

open Sink.Scan List

/-! ## One page -/

/-- What goes on around one call of `Scan`. -/
structure ScanEnv where
  /-- The error of acquiring memory for the wire buffers. -/
  wire : Option GoError
  /-- The error of sending the command. -/
  command : Option GoError
  /-- The answer breaks off after some documents. -/
  stops : Option (Nat × GoError)
  /-- What the scope answers when the response grows. -/
  memory : List (Option GoError)
  /-- The context's error at the end. -/
  ctxErr : Option ContextErr

structure Store where
  name : GoString
  lib : GoLib
  driver : Driver
  /-- The documents with which the server answers a command. -/
  find : GoString → D → List (List UInt8)

section Page

variable (driver : Driver)

/-- A document of the answer as the caller sees it. -/
def shown (hideID : Bool) (raw : List UInt8) : Fallible (List UInt8) :=
  if hideID then do
    let document ← driver.unmarshal raw
    driver.marshal (document.filter fun field => decide (field.1 ≠ lit "_id"))
  else .ok raw

/-- The position of a document of the answer. -/
def marker (raw : List UInt8) : Fallible (List UInt8) :=
  match driver.lookupID raw with
  | none => refuse "Scan result omitted _id"
  | some id => driver.marshal [(lit "_id", id)]

/-- What `Scan` makes of a document of the answer. -/
def readDocument (hideID : Bool) (raw : List UInt8) : Fallible (Document × List UInt8) := do
  let next ← marker driver raw
  .ok (⟨.bson, (← shown driver hideID raw)⟩, next)

end Page

def Store.scan (s : Store) (env : ScanEnv) (req : ScanRequest) : Fallible ScanResponse :=
  match env.wire with
  | some err => .error (resourceExhaustedError err)
  | none => do
  let seek ← req.resume s.lib
  let (database, command) ←
    (validateNativeCommand s.driver s.name req.request).mapError invalidArgumentError
  let (command, hideID) ←
    (scanFind s.driver command req seek.position).mapError invalidArgumentError
  match env.command with
  | some err => .error (backendError (some err))
  | none =>
    let reply := s.find database command
    let (reply, cursorErr) :=
      match env.stops with
      | none => (reply, none)
      | some (n, err) => (reply.take n, some err)
    let page ← collect (fun _ _ => .ok ()) (readDocument s.driver hideID) req.batchSize cursorErr
      reply [] [] [] (responseState req.request.maxBytes env.memory)
    match env.ctxErr with
    | some err => .error err.raw
    | none => seek.page s.lib page.documents (if page.more then page.position else [])

/-! ## What a document becomes -/

/-- A matching document and what the caller gets of it: the document itself or,
where `_id` is hidden, a document that reads back as its other fields. -/
structure Shows (driver : Driver) (hideID : Bool) (raw : List UInt8) (document : Document) :
    Prop where
  encoding : document.encoding = .bson
  whole : hideID = false → document.payload = raw
  others : hideID = true → ∃ fields, driver.unmarshal raw = .ok fields ∧
    driver.elements document.payload =
      some (fields.filter fun field => decide (field.1 ≠ lit "_id"))

variable {driver : Driver} {hideID : Bool} {raw position : List UInt8} {document : Document}

theorem shown_shows {payload : List UInt8} (h : shown driver hideID raw = .ok payload) :
    Shows driver hideID raw ⟨.bson, payload⟩ := by
  unfold shown at h
  cases hideID with
  | false =>
    cases h
    exact ⟨rfl, fun _ => rfl, nofun⟩
  | true =>
    obtain ⟨fields, hfields, h⟩ := bind_ok h
    exact ⟨rfl, nofun, fun _ => ⟨fields, hfields, (driver.elements_marshal _ _ h).2⟩⟩

/-- A document that was read is shown, and its position holds its `_id`. -/
theorem readDocument_ok (h : readDocument driver hideID raw = .ok (document, position)) :
    Shows driver hideID raw document ∧ ∃ id, driver.lookupID raw = some id ∧
      driver.marshal [(lit "_id", id)] = .ok position := by
  obtain ⟨next, hmarker, h⟩ := bind_ok h
  obtain ⟨payload, hshown, h⟩ := bind_ok h
  cases h
  unfold marker at hmarker
  split at hmarker
  · cases hmarker
  · rename_i id hid
    exact ⟨shown_shows hshown, id, hid, hmarker⟩

/-! ## Following the cursors -/

def Before {κ : Type} [LinearOrder κ] (direction : Int) (a b : κ) : Prop :=
  if direction < 0 then b < a else a < b

instance {κ : Type} [LinearOrder κ] (direction : Int) (a b : κ) :
    Decidable (Before direction a b) :=
  inferInstanceAs (Decidable (if direction < 0 then b < a else a < b))

section Following

variable {κ : Type} [LinearOrder κ]
variable {cursor : List UInt8} {docs : List Document} {next : Option (List UInt8)}

/-- The documents behind a position. `rank` is the place of a value in BSON's
order, `key` the place of a document's `_id`. -/
def behind (direction : Int) (rank : Bson → κ) (key : List UInt8 → κ)
    (matching : List (List UInt8)) : Option Bson → List (List UInt8)
  | none => matching
  | some last => matching.filter fun raw => decide (Before direction (rank last) (key raw))

/-- What is assumed of the server: an unchanging collection whose matching
documents have distinct `_id`s, and find commands that return those strictly
behind the literal position, in order and up to the limit. -/
structure Answers (s : Store) (database : GoString) (opts : FindOptions) (rank : Bson → κ)
    (key : List UInt8 → κ) (matching : List (List UInt8)) : Prop where
  sorted : matching.Pairwise fun a b => Before opts.direction (key a) (key b)
  honest : ∀ raw ∈ matching, ∀ id, s.driver.lookupID raw = some id → rank id = key raw
  find : ∀ last limit, s.find database (findCommand opts last limit) =
    (behind opts.direction rank key matching last).take limit.toNat

abbrev Store.nextPage (s : Store) := Scan.nextPage s.scan

variable {s : Store} {req : ScanRequest} {database : GoString} {command : D} {opts : FindOptions}
  {rank : Bson → κ} {key : List UInt8 → κ} {matching : List (List UInt8)}
  {pages : Nat → PageRequest ScanEnv}

/-- Behind a document's own position stands what comes after it. -/
theorem Answers.behind_of_split (h : Answers s database opts rank key matching)
    {front tail a} (hsplit : matching = front ++ a :: tail)
    {id : Bson} (hid : s.driver.lookupID a = some id) :
    behind opts.direction rank key matching (some id) = tail := by
  have hrank := h.honest a (by simp [hsplit]) id hid
  have hsorted := h.sorted
  rw [hsplit] at hsorted ⊢
  have hnext : ∀ b ∈ tail.head?, Before opts.direction (key a) (key b) := fun b hb =>
    (pairwise_cons.mp (pairwise_append.mp hsorted).2.1).1 b (mem_of_mem_head? hb)
  simp only [behind, hrank]
  by_cases hdesc : opts.direction < 0
  · simp only [Before, if_pos hdesc] at hsorted hnext ⊢
    exact Paging.behind_of_split (fun raw => OrderDual.toDual (key raw)) (hsorted.imp le_of_lt)
      fun b hb => (hnext b hb).ne'
  · simp only [Before, if_neg hdesc] at hsorted hnext ⊢
    exact Paging.behind_of_split key (hsorted.imp le_of_lt) fun b hb => (hnext b hb).ne

theorem scan_ok {env : ScanEnv} {response : ScanResponse} (h : s.scan env req = .ok response) :
    ∃ seek database command opts last page reply cursorErr, req.resume s.lib = .ok seek ∧
      validateNativeCommand s.driver s.name req.request = .ok (database, command) ∧
      findOptions s.driver command req.projection = .ok opts ∧
      seekID s.driver seek.position = .ok last ∧
      reply <+: s.find database (findCommand opts last (req.batchSize + 1)) ∧
      (cursorErr = none → reply = s.find database (findCommand opts last (req.batchSize + 1))) ∧
      collect (fun _ _ => .ok ()) (readDocument s.driver opts.hideID) req.batchSize cursorErr
        reply [] [] [] (responseState req.request.maxBytes env.memory) = .ok page ∧
      seek.page s.lib page.documents (if page.more then page.position else []) =
        .ok response := by
  unfold Store.scan at h
  split at h
  · cases h
  obtain ⟨seek, hresume, h⟩ := bind_ok h
  obtain ⟨⟨database, command⟩, hcommand, h⟩ := coded_ok h
  obtain ⟨⟨find, hideID⟩, hfind, h⟩ := coded_ok h
  dsimp only at h
  split at h
  · cases h
  obtain ⟨opts, hopts, hfind⟩ := bind_ok hfind
  obtain ⟨last, hlast, hfind⟩ := bind_ok hfind
  cases hfind
  obtain ⟨page, hcollect, h⟩ := bind_ok h
  split at h
  · cases h
  cases hstops : env.stops with
  | none =>
    rw [hstops] at hcollect
    exact ⟨seek, database, command, opts, last, page, _, none, hresume, hcommand, hopts, hlast,
      prefix_refl _, fun _ => rfl, hcollect, h⟩
  | some stop =>
    rw [hstops] at hcollect
    exact ⟨seek, database, command, opts, last, page, _, some stop.2, hresume, hcommand, hopts,
      hlast, take_prefix _ _, (fun hnone => nomatch hnone), hcollect, h⟩

/-- A position holds the `_id` of a document, and this is what lies behind it. -/
def Behind (s : Store) (direction : Int) (rank : Bson → κ) (key : List UInt8 → κ)
    (matching : List (List UInt8)) (position : List UInt8) (rest : List (List UInt8)) : Prop :=
  ∃ id, s.driver.marshal [(lit "_id", id)] = .ok position ∧
    rest = behind direction rank key matching (some id)

variable {rest : List (List UInt8)}

theorem Behind.seek {direction : Int} {last : Option Bson}
    (h : Behind s direction rank key matching position rest)
    (hlast : seekID s.driver position = .ok last) :
    rest = behind direction rank key matching last := by
  obtain ⟨id, hmarshal, rfl⟩ := h
  obtain ⟨hne, helements⟩ := s.driver.elements_marshal _ _ hmarshal
  unfold seekID at hlast
  rw [if_neg hne] at hlast
  split at hlast
  · cases hlast
  · rw [helements] at hlast
    rw [Except.ok.inj hlast]

theorem nextPage_serves
    (hcommand : validateNativeCommand s.driver s.name req.request = .ok (database, command))
    (hopts : findOptions s.driver command req.projection = .ok opts)
    (hserver : Answers s database opts rank key matching) {i : Nat}
    (hat : Standing s.lib req (Behind s opts.direction rank key matching) matching cursor rest)
    (hpage : s.nextPage req pages i cursor = .ok (docs, next)) :
    Paging.Serves (Standing s.lib req (Behind s opts.direction rank key matching) matching)
      (Shows s.driver opts.hideID) rest docs next := by
  obtain ⟨response, hscan, rfl, rfl⟩ := nextPage_ok hpage
  obtain ⟨seek, database', command', opts', last, page, reply, cursorErr, hresume, hcommand',
    hopts', hlast, hstarts, hwhole, hcollect, hresult⟩ := scan_ok hscan
  obtain ⟨rfl, rfl⟩ : database = database' ∧ command = command' :=
    Prod.mk.inj (Except.ok.inj (hcommand.symm.trans hcommand'))
  obtain rfl : opts = opts' := Except.ok.inj (hopts.symm.trans hopts')
  have hrest : rest = behind opts.direction rank key matching last := by
    rcases hat.position hresume with ⟨hfirst, rfl⟩ | hbehind
    · rw [hfirst] at hlast
      cases hlast
      rfl
    · exact hbehind.seek hlast
  have hbatch : 1 ≤ (pages i).batchSize := (resume_ok hresume).1
  obtain ⟨n, hn⟩ : ∃ n : Nat, (pages i).batchSize = n :=
    ⟨_, (Int.toNat_of_nonneg (by omega)).symm⟩
  rw [show (pageRequest req (pages i) cursor).batchSize = n from hn] at *
  have hfind : s.find database (findCommand opts last (n + 1)) = rest.take (n + 1) := by
    rw [hserver.find, ← hrest]
    rfl
  rw [hfind] at hstarts hwhole
  have hcut := (collect_cut (by omega) hstarts hwhole hcollect).imp fun _ _ ⟨_, hread⟩ =>
    (readDocument_ok hread).1
  refine hat.serves hresume hcut hresult fun front a tail hmatching kept hkept => ?_
  obtain ⟨document, hread⟩ := hkept.1 a (by simp)
  obtain ⟨-, id, hid, hmarshal⟩ := readDocument_ok hread
  exact ⟨(s.driver.elements_marshal _ _ hmarshal).1, id, hmarshal,
    (hserver.behind_of_split hmatching hid).symm⟩

theorem nextPage_bounded {i : Nat} (hpage : s.nextPage req pages i cursor = .ok (docs, next)) :
    (docs.length : Int) ≤ (pages i).batchSize ∧ cost docs ≤ byteLimit (pages i).maxBytes := by
  obtain ⟨response, hscan, rfl, rfl⟩ := nextPage_ok hpage
  obtain ⟨seek, _, _, _, _, page, _, _, hresume, -, -, -, -, -, hcollect, hresult⟩ := scan_ok hscan
  obtain ⟨hbatch, encoded, -, hquery, -⟩ := resume_ok hresume
  rw [(page_ok (by rw [hquery, s.lib.sha256_length]) hresult).1]
  constructor
  · exact (collect_split hbatch (by rw [length_nil]; exact Int.le_trans (by decide) hbatch)
      hcollect).length
  · have hroom : 0 ≤ byteLimit (pages i).maxBytes := byteLimit_nonneg _
    have hcost := collect_cost hroom hcollect
    rw [responseState_remaining, show cost [] = 0 from rfl, Int.zero_add] at hcost
    exact hcost

/-- Following the cursors of a scan ends. If no page fails, the pages together
are the matching documents in the order of the scan, each once. -/
theorem scan_pages_complete
    (hcommand : validateNativeCommand s.driver s.name req.request = .ok (database, command))
    (hopts : findOptions s.driver command req.projection = .ok opts)
    (hserver : Answers s database opts rank key matching) (pages : Nat → PageRequest ScanEnv) :
    ∃ r, Paging.follow (s.nextPage req pages) (matching.length + 1) 0 [] = some r ∧
      ∀ got, r = .ok got → Forall₂ (Shows s.driver opts.hideID) matching got.flatten ∧
        (∀ docs ∈ got.dropLast, docs ≠ []) ∧
        ∀ k docs, got[k]? = some docs →
          (docs.length : Int) ≤ (pages k).batchSize ∧ cost docs ≤ byteLimit (pages k).maxBytes := by
  have hstart : Standing s.lib req (Behind s opts.direction rank key matching) matching []
      matching := ⟨suffix_refl _, fun _ => rfl, fun hne => absurd rfl hne⟩
  obtain ⟨r, hfollow, hpages⟩ := Paging.follow_serves
    (fun _ _ _ _ _ hat hpage => nextPage_serves hcommand hopts hserver hat hpage)
    hstart (Nat.lt_succ_self _) (i := 0)
  refine ⟨r, hfollow, fun got hgot => ?_⟩
  obtain ⟨hall, hfull⟩ := hpages got hgot
  refine ⟨hall, hfull, fun k docs hk => ?_⟩
  rw [hgot] at hfollow
  obtain ⟨t, next, hpage⟩ := Paging.follow_answers hfollow hk
  rw [Nat.zero_add] at hpage
  exact nextPage_bounded hpage

end Following

/-! ## A collection of three documents -/

/-- BSON of an `_id` and a field `n`, both the 32 bit integer. -/
def numbered (n : UInt8) : List UInt8 :=
  [0x15, 0, 0, 0, 0x10, 0x5F, 0x69, 0x64, 0, n, 0, 0, 0, 0x10, 0x6E, 0, n, 0, 0, 0, 0]

def collection : List (List UInt8) := [1, 2, 3].map numbered

/-- BSON of a single 32 bit integer. -/
def single (key : GoString) (n : UInt8) : List UInt8 :=
  UInt8.ofNat (key.length + 11) :: 0 :: 0 :: 0 :: 0x10 :: (key ++ [0, n, 0, 0, 0, 0])

/-- What the driver makes of the documents here; it writes single integers only. -/
def smallDriver : Driver where
  quote text := 0x22 :: (text ++ [0x22])
  parseURI text := if text = lit "m/d/c" then .ok (lit "m", [lit "d", lit "c"])
    else refuse "unknown address"
  parseMediaType _ := refuse "mime: no media type"
  validateBSONDocument bytes :=
    if bytes.head? = some (UInt8.ofNat bytes.length) ∧ bytes.getLast? = some 0 then .ok ()
    else refuse "malformed document"
  unmarshal raw :=
    match [1, 2, 3].find? fun n => raw = numbered n with
    | some n => .ok [(lit "_id", .int32 n.toNat), (lit "n", .int32 n.toNat)]
    | none => refuse "malformed document"
  marshal
    | [(key, .int32 value)] =>
      if 0 ∉ key ∧ 0 ≤ value ∧ value < 256 then .ok (single key value.toNat.toUInt8)
      else refuse "unknown document"
    | _ => refuse "unknown document"
  elements
    | _ :: _ :: _ :: _ :: _ :: rest =>
      match rest.dropWhile (· ≠ 0) with
      | [_, n, _, _, _, _] => some [(rest.takeWhile (· ≠ 0), .int32 n.toNat)]
      | _ => none
    | _ => none
  lookupID raw := ([1, 2, 3].find? fun n => raw = numbered n).map fun n => .int32 n.toNat
  elements_marshal d bytes hmarshal := by
    split at hmarshal
    · rename_i key value
      split at hmarshal
      · rename_i hbyte
        cases hmarshal
        have hkey : ∀ b ∈ key, (!decide (b = 0)) = true := fun b hb => by
          rw [decide_eq_false (ne_of_mem_of_not_mem hb hbyte.1), Bool.not_false]
        refine ⟨cons_ne_nil _ _, ?_⟩
        simp [single, takeWhile_append_of_pos hkey, dropWhile_append_of_pos hkey]
        omega
      · cases hmarshal
    · cases hmarshal

/-- The place of an integer in the order of `_id`. -/
def smallRank : Bson → Int
  | .int32 value => value
  | _ => -1

def smallKey (raw : List UInt8) : Int := (raw.getD 9 0).toNat

/-- All documents, two on a page, without their `_id`. -/
def smallRequest : ScanRequest :=
  ⟨⟨lit "m/d/c", [], [], [], [], [], [], 0⟩, 0, [], some ⟨[lit "_id"], true⟩⟩

def smallPages : Nat → PageRequest ScanEnv := fun _ => ⟨2, 0, ⟨none, none, none, [], none⟩⟩

/-- A server with the collection. -/
def smallStore : Store where
  name := lit "m"
  lib := goLib ⟨1, Sha256.digest smallRequest.commandText, single (lit "_id") 2⟩
  driver := smallDriver
  find _ command :=
    match command with
    | [_, _, (_, .document filter), _, _, (_, .int64 limit), _] =>
      let last :=
        match filter with
        | [(_, .array [_, .document [(_, .document [(_, .array [_, .document [(_, last)]])])]])] =>
          some last
        | _ => none
      (behind 1 smallRank smallKey collection last).take limit.toNat
    | _ => []

def smallOptions : FindOptions :=
  ⟨[(lit "find", .string (lit "c")), (lit "projection", .document [])], [], 1, true⟩

theorem smallStore_answers :
    Answers smallStore (lit "d") smallOptions smallRank smallKey collection where
  sorted := by decide
  honest := by
    intro raw hraw id hid
    simp only [collection, map_cons, map_nil, mem_cons, not_mem_nil, or_false] at hraw
    rcases hraw with rfl | rfl | rfl <;> cases hid <;> rfl
  find last limit := by
    cases last with
    | none => rfl
    | some last => rfl

theorem scan_pages_complete_hidden :
    ∃ got, Paging.follow (smallStore.nextPage smallRequest smallPages) 4 0 [] = some (.ok got) ∧
      got = [[⟨.bson, single (lit "n") 1⟩, ⟨.bson, single (lit "n") 2⟩],
        [⟨.bson, single (lit "n") 3⟩]] ∧
      Forall₂ (Shows smallDriver true) collection got.flatten := by
  have hrun : Paging.follow (smallStore.nextPage smallRequest smallPages) 4 0 [] =
      some (.ok [[⟨.bson, single (lit "n") 1⟩, ⟨.bson, single (lit "n") 2⟩],
        [⟨.bson, single (lit "n") 3⟩]]) := by decide +kernel
  have hcommand : validateNativeCommand smallStore.driver smallStore.name smallRequest.request =
      .ok (lit "d", [(lit "find", .string (lit "c"))]) := rfl
  have hopts : findOptions smallStore.driver [(lit "find", .string (lit "c"))]
      smallRequest.projection = .ok smallOptions := rfl
  obtain ⟨r, hr, hgot⟩ := scan_pages_complete hcommand hopts smallStore_answers smallPages
  have hok := Option.some.inj (hr.symm.trans hrun)
  exact ⟨_, hrun, rfl, (hgot _ hok).1⟩

end Sink.Mongo
