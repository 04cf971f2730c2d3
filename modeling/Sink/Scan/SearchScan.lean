import Sink.Scan.Commands
import Sink.Scan.Pages
import Sink.Scan.SearchQuery

/-!
# Search scans

The rest of `search/scan.go`. A page asks the backend for one hit more than it
may hold; a response that is too large is asked for again with half the size.
The hits are kept up to the fetch size and the byte limit, and the sort values
of the last one kept are the position of the next page.

`search_after` drops hits that are tied with the position. That none is lost
rests on the tie check of the loop, which always reaches the first hit that is
not kept: a reader who follows the cursors gets every hit once and in order,
and if two neighbours are tied some page fails (`scan_skips_nothing`).
-/

namespace Sink.Search

open JsonText Sink.Scan SearchStore List Option

/-! ## One page -/

/-- How an attempt at a query ends. -/
inductive Attempt where
  | complete
  /-- The response exceeded the buffer; the context may be done as well. -/
  | tooLarge (err : GoError) (ctxDone : Bool)
  | fails (err : GoError)

/-- What goes on around one call of `Scan`. -/
structure ScanEnv where
  now : Int
  cache : ScanSizeCache
  /-- How the attempts end; the last one listed is followed by a complete one. -/
  attempts : List Attempt
  /-- What the scope answers when the response grows. -/
  memory : List (Option GoError)
  ctxErr : Option ContextErr

structure Store where
  lib : GoLib
  json : RawJson
  /-- `%q`. -/
  quote : GoString → GoString
  /-- `json.Marshal` of the request that names a fetch size. -/
  marshalRequest : ScanRequest → Fallible (List UInt8)
  nativeOptions : NativeRequest → Fallible RequestOptions
  /-- `mime.ParseMediaType`. -/
  mediaType : GoString → GoString
  marshalBody : Body → Fallible (List UInt8)
  /-- The hits with which the backend answers a query. -/
  search : RequestOptions → Body → List (List UInt8)

def Store.pageOptions (s : Store) : NativeRequest → Fallible (RequestOptions × Body) :=
  Search.pageOptions s.json s.quote s.nativeOptions s.mediaType

/-- The body of a query for `size` hits. -/
def sized (body : Body) (size : Int) : Body := body.set (lit "size") (decimal size)

/-- `scanQuery`: the hits and the fetch size that got them. -/
def Store.scanQuery (s : Store) (opts : RequestOptions) (body : Body) :
    List Attempt → Int → Fallible (List (List UInt8) × Int)
  | attempts, pageSize =>
    match s.marshalBody (sized body (pageSize + 1)) with
    | .error err => .error (invalidArgumentError err)
    | .ok _ =>
      match attempts with
      | [] | .complete :: _ => .ok (s.search opts (sized body (pageSize + 1)), pageSize)
      | .fails err :: _ => .error err
      | .tooLarge err ctxDone :: rest =>
        if pageSize = 1 ∨ ctxDone then .error err
        else s.scanQuery opts body rest (max 1 (pageSize / 2))

section Page

variable (json : RawJson) (count : Nat)

def hitValues (hit : List UInt8) : Fallible (List UInt8) := do
  let raw ← json.sortOf hit
  scanSortValues json raw count

def notUnique : GoError :=
  .text (lit "Scan sort is not unique; add a unique immutable tie-breaker field")

/-- The check of a hit against the sort values before it. -/
def checkHit (previous hit : List UInt8) : Fallible Unit := do
  let next ← hitValues json count hit
  if previous = next then .error notUnique else .ok ()

/-- What `Scan` makes of a hit. -/
def readHit (hit : List UInt8) : Fallible (Document × List UInt8) :=
  (hitValues json count hit).map fun next => (⟨.json, hit⟩, next)

def seekBody (body : Body) (position : List UInt8) : Fallible Body :=
  if position = [] then .ok body
  else (scanSortValues json position count).map fun values =>
    body.set (lit "search_after") values

end Page

/-- `Store.Scan`, with the cache it leaves behind. -/
def Store.scan (s : Store) (env : ScanEnv) (req : ScanRequest) :
    Fallible (ScanResponse × ScanSizeCache) := do
  let seek ← req.resume s.lib
  let encoded ←
    (s.marshalRequest { req with cursor := [], batchSize := 0 }).mapError invalidArgumentError
  let sizingKey := s.lib.sha256 encoded
  -- the byte limit in these options is replaced below
  let (opts, body) ←
    (s.pageOptions { req.request with maxBytes := 0 }).mapError invalidArgumentError
  let (opts, body, count) ←
    (prepare s.json s.quote opts body req.projection).mapError invalidArgumentError
  let body ← (seekBody s.json count body seek.position).mapError invalidArgumentError
  let opts := { opts with maxBytes := scanBackendBytes req.request.maxBytes }
  let (pageSize, cache) := env.cache.suggest env.now sizingKey req.batchSize
  let (hits, pageSize) ← s.scanQuery opts body env.attempts pageSize
  if (hits.length : Int) > pageSize + 1 then
    refuse "search Scan exceeded its requested result count"
  else
    let page ← collect (checkHit s.json count) (readHit s.json count) pageSize none hits []
      seek.position [] (responseState req.request.maxBytes env.memory)
    match env.ctxErr with
    | some err => .error err.raw
    | none =>
      let cache :=
        if page.more ∧ (page.documents.length : Int) < req.batchSize then
          cache.remember env.now sizingKey page.documents.length
        else cache
      .ok (← seek.page s.lib page.documents (if page.more then page.position else []), cache)

/-! ## What the loop keeps -/

/-- Neighbours whose sort values differ. -/
def Untied (json : RawJson) (count : Nat) (a b : List UInt8) : Prop :=
  ∃ va vb, hitValues json count a = .ok va ∧ hitValues json count b = .ok vb ∧ va ≠ vb

/-- A hit and the document it becomes. -/
def Shows (hit : List UInt8) (document : Document) : Prop := document = ⟨.json, hit⟩

variable {json : RawJson} {count : Nat} {previous hit : List UInt8} {hits : List (List UInt8)}
  {documents : List Document}

theorem shows_map (h : Forall₂ Shows hits documents) :
    documents = hits.map fun hit => ⟨.json, hit⟩ := by
  induction h with
  | nil => rfl
  | cons hfirst _ ih => rw [map_cons, ← ih, hfirst]

theorem checkHit_ok (h : checkHit json count previous hit = .ok ()) :
    ∃ next, hitValues json count hit = .ok next ∧ previous ≠ next := by
  obtain ⟨next, hnext, h⟩ := bind_ok h
  split at h
  · cases h
  · exact ⟨next, hnext, ‹_›⟩

theorem readHit_ok {document : Document} {next : List UInt8}
    (h : readHit json count hit = .ok (document, next)) :
    Shows hit document ∧ hitValues json count hit = .ok next := by
  obtain ⟨values, hvalues, heq⟩ := map_ok h
  cases heq
  exact ⟨rfl, hvalues⟩

/-- Hits that were checked one after the other are not tied with their neighbours. -/
theorem linked_chain (h : Linked (checkHit json count) (readHit json count) previous hits) :
    hits.IsChain (Untied json count) := by
  induction hits generalizing previous with
  | nil => exact .nil
  | cons hit rest ih =>
    obtain ⟨next, hnext, -⟩ := checkHit_ok h.1
    have hrest := h.2 ⟨.json, hit⟩ next (by rw [readHit, hnext]; rfl)
    refine (ih hrest).cons fun b hb => ?_
    cases rest with
    | nil => cases hb
    | cons first rest =>
      cases hb
      obtain ⟨values, hvalues, hne⟩ := checkHit_ok hrest.1
      exact ⟨next, values, hnext, hvalues, hne⟩

/-! ## Following the cursors -/

section Following

variable {κ : Type} [LinearOrder κ]

/-- What is assumed of the backend: an unchanging set of matching hits in sort
order, of which a query returns the first ones strictly behind `search_after`.
`rank` is the place of sort values in that order, `key` the place of a hit;
hits are tied exactly when their compact sort values are equal. -/
structure Answers (s : Store) (opts : RequestOptions) (body : Body) (count : Nat)
    (rank key : List UInt8 → κ) (matching : List (List UInt8)) : Prop where
  sorted : matching.Pairwise fun a b => key a ≤ key b
  ranked : ∀ hit ∈ matching, ∀ values, hitValues s.json count hit = .ok values →
    rank values = key hit
  tied : ∀ a ∈ matching, ∀ b ∈ matching, ∀ va vb, hitValues s.json count a = .ok va →
    hitValues s.json count b = .ok vb → (key a = key b ↔ va = vb)
  first : ∀ maxBytes size, 1 ≤ size → s.search { opts with maxBytes } (sized body size) =
    matching.take size.toNat
  after : ∀ maxBytes size values, 1 ≤ size →
    s.search { opts with maxBytes } (sized (body.set (lit "search_after") values) size) =
      (Paging.behind key (rank values) matching).take size.toNat

def Store.nextPage (s : Store) := Scan.nextPage fun env req => (s.scan env req).map Prod.fst

variable {s : Store} {req : ScanRequest} {opts₀ opts : RequestOptions} {body₀ body : Body}
  {i : Nat} {rank key : List UInt8 → κ} {matching : List (List UInt8)}
  {pages : Nat → PageRequest ScanEnv} {cursor : List UInt8} {docs : List Document}

theorem Answers.differ (h : Answers s opts body count rank key matching) {a b : List UInt8}
    (ha : a ∈ matching) (hb : b ∈ matching) (huntied : Untied s.json count a b) :
    key a ≠ key b := by
  obtain ⟨va, vb, hva, hvb, hne⟩ := huntied
  exact fun heq => hne ((h.tied a ha b hb va vb hva hvb).mp heq)

theorem scanQuery_ok {attempts : List Attempt} {pageSize pageSize' : Int} (hsize : 1 ≤ pageSize)
    (h : s.scanQuery opts body attempts pageSize = .ok (hits, pageSize')) :
    1 ≤ pageSize' ∧ hits = s.search opts (sized body (pageSize' + 1)) := by
  induction attempts generalizing pageSize with
  | nil =>
    unfold Store.scanQuery at h
    split at h
    · cases h
    · cases h
      exact ⟨hsize, rfl⟩
  | cons attempt rest ih =>
    unfold Store.scanQuery at h
    split at h
    · cases h
    cases attempt with
    | complete =>
      cases h
      exact ⟨hsize, rfl⟩
    | fails err => cases h
    | tooLarge err ctxDone =>
      dsimp only at h
      split at h
      · cases h
      · exact ih (by omega) h

theorem scan_ok {env response cache} (h : s.scan env req = .ok (response, cache)) :
    ∃ seek opts₀ body₀ opts body count body' pageSize page, req.resume s.lib = .ok seek ∧
      s.pageOptions { req.request with maxBytes := 0 } = .ok (opts₀, body₀) ∧
      prepare s.json s.quote opts₀ body₀ req.projection = .ok (opts, body, count) ∧
      seekBody s.json count body seek.position = .ok body' ∧
      1 ≤ pageSize ∧
      collect (checkHit s.json count) (readHit s.json count) pageSize none
        (s.search { opts with maxBytes := scanBackendBytes req.request.maxBytes }
          (sized body' (pageSize + 1))) [] seek.position []
        (responseState req.request.maxBytes env.memory) = .ok page ∧
      seek.page s.lib page.documents (if page.more then page.position else []) =
        .ok response := by
  obtain ⟨seek, hresume, h⟩ := bind_ok h
  obtain ⟨encoded, -, h⟩ := coded_ok h
  obtain ⟨⟨opts₀, body₀⟩, hoptions, h⟩ := coded_ok h
  obtain ⟨⟨opts, body, count⟩, hprepare, h⟩ := coded_ok h
  obtain ⟨body', hseek, h⟩ := coded_ok h
  obtain ⟨⟨hits, pageSize⟩, hquery, h⟩ := bind_ok h
  dsimp only at h
  split at h
  · cases h
  obtain ⟨page, hcollect, h⟩ := bind_ok h
  split at h
  · cases h
  obtain ⟨response', hpage, h⟩ := bind_ok h
  cases h
  have hbounds := (env.cache.suggest_bounds env.now (s.lib.sha256 encoded) (resume_ok hresume).1).1
  obtain ⟨hsize, rfl⟩ := scanQuery_ok hbounds hquery
  refine ⟨seek, opts₀, body₀, opts, body, count, body', pageSize, page, hresume, hoptions,
    hprepare, hseek, hsize, hcollect, hpage⟩

theorem hitValues_ok {values : List UInt8} (h : hitValues json count hit = .ok values) :
    ∃ raw, scanSortValues json raw count = .ok values := by
  obtain ⟨raw, -, h⟩ := bind_ok h
  exact ⟨raw, h⟩

/-- A position holds the sort values of a hit, and this is what lies behind it. -/
def Behind (s : Store) (count : Nat) (rank key : List UInt8 → κ) (matching : List (List UInt8))
    (position : List UInt8) (rest : List (List UInt8)) : Prop :=
  ∃ raw, scanSortValues s.json raw count = .ok position ∧
    rest = Paging.behind key (rank position) matching

theorem Answers.searched (hbackend : Answers s opts body count rank key matching)
    {rest position body'}
    (hat : (position = [] ∧ rest = matching) ∨ Behind s count rank key matching position rest)
    (hseek : seekBody s.json count body position = .ok body') (maxBytes : Int) {size : Int}
    (hsize : 1 ≤ size) :
    s.search { opts with maxBytes } (sized body' size) = rest.take size.toNat := by
  rcases hat with ⟨rfl, rfl⟩ | ⟨raw, hvalues, rfl⟩
  · cases hseek
    exact hbackend.first maxBytes size hsize
  unfold seekBody at hseek
  rw [if_neg (scanSortValues_ne_nil s.json hvalues)] at hseek
  obtain ⟨values, hagain, rfl⟩ := map_ok hseek
  rw [scanSortValues_idem s.json hvalues hagain]
  exact hbackend.after maxBytes size position hsize

/-- One page serves what its cursor stands for, and no two neighbours up to
the first hit behind it are tied. -/
theorem nextPage_serves
    (hoptions : s.pageOptions { req.request with maxBytes := 0 } = .ok (opts₀, body₀))
    (hprepare : prepare s.json s.quote opts₀ body₀ req.projection = .ok (opts, body, count))
    (hbackend : Answers s opts body count rank key matching) {rest next}
    (hat : Standing s.lib req (Behind s count rank key matching) matching cursor rest)
    (hpage : s.nextPage req pages i cursor = .ok (docs, next)) :
    Paging.Serves (Standing s.lib req (Behind s count rank key matching) matching) Shows rest
        docs next ∧
      (rest.take (docs.length + 1)).IsChain fun a b => key a ≠ key b := by
  obtain ⟨response, hfirst, rfl, rfl⟩ := nextPage_ok hpage
  obtain ⟨⟨response, cache⟩, hscan, rfl⟩ := map_ok hfirst
  obtain ⟨seek, opts₁, body₁, opts', body', count', body'', pageSize, page, hresume, hoptions',
    hprepare', hseek, hsize, hcollect, hresult⟩ := scan_ok hscan
  obtain ⟨rfl, rfl⟩ : opts₀ = opts₁ ∧ body₀ = body₁ :=
    Prod.mk.inj (Except.ok.inj (hoptions.symm.trans hoptions'))
  obtain ⟨rfl, hprepared⟩ : opts = opts' ∧ (body, count) = (body', count') :=
    Prod.mk.inj (Except.ok.inj (hprepare.symm.trans hprepare'))
  cases hprepared
  obtain ⟨n, rfl⟩ : ∃ n : Nat, pageSize = n := ⟨_, (Int.toNat_of_nonneg (by omega)).symm⟩
  rw [hbackend.searched (hat.position hresume) hseek _ (by omega)] at hcollect
  have hcut := (collect_cut (by omega) (prefix_refl _) (fun _ => rfl) hcollect).imp
    fun _ _ ⟨_, hread⟩ => (readHit_ok hread).1
  constructor
  · refine hat.serves hresume hcut hresult fun front a tail hmatching kept hkept => ?_
    obtain ⟨⟨document, hread⟩, hlinked⟩ := hkept.imp_left fun h => h a (by simp)
    obtain ⟨-, hvalues⟩ := readHit_ok hread
    obtain ⟨raw, hraw⟩ := hitValues_ok hvalues
    refine ⟨scanSortValues_ne_nil s.json hraw, raw, hraw, ?_⟩
    have hsorted := hbackend.sorted
    rw [hbackend.ranked a (by simp [hmatching]) _ hvalues]
    rw [hmatching] at hsorted ⊢
    refine (Paging.behind_of_split key hsorted fun b hb => ?_).symm
    cases tail with
    | nil => cases hb
    | cons first tail =>
      cases hb
      have hchain := linked_chain hlinked
      rw [append_assoc] at hchain
      exact hbackend.differ (by simp [hmatching]) (by simp [hmatching])
        (isChain_cons_cons.mp hchain.right_of_append).1
  · rw [(page_ok (by rw [(resume_ok hresume).2.choose_spec.2.1, s.lib.sha256_length]) hresult).1]
    obtain ⟨kept, behind, ⟨-, hlinked⟩, htake⟩ := hcut.examined
    rw [htake]
    refine (linked_chain hlinked).imp_of_mem_imp fun a b ha hb huntied => ?_
    rw [← htake] at ha hb
    exact hbackend.differ (hat.1.subset (mem_of_mem_take ha)) (hat.1.subset (mem_of_mem_take hb))
      huntied

/-- Following the cursors of a scan ends. If no page fails, the pages together
are all hits in order, each once; if two neighbours are tied, a page fails. -/
theorem scan_skips_nothing
    (hoptions : s.pageOptions { req.request with maxBytes := 0 } = .ok (opts₀, body₀))
    (hprepare : prepare s.json s.quote opts₀ body₀ req.projection = .ok (opts, body, count))
    (hbackend : Answers s opts body count rank key matching) (pages : Nat → PageRequest ScanEnv) :
    ∃ r, Paging.follow (s.nextPage req pages) (matching.length + 1) 0 [] = some r ∧
      (∀ got, r = .ok got → got.flatten = matching.map fun hit => ⟨.json, hit⟩) ∧
      ∀ front a b tail, matching = front ++ a :: b :: tail → key a = key b →
        ∃ err, r = .error err := by
  have hstart : Standing s.lib req (Behind s count rank key matching) matching [] matching :=
    ⟨suffix_refl _, fun _ => rfl, fun hne => absurd rfl hne⟩
  have hpage : ∀ i cursor rest docs next,
      Standing s.lib req (Behind s count rank key matching) matching cursor rest →
      s.nextPage req pages i cursor = .ok (docs, next) →
      Paging.Serves (Standing s.lib req (Behind s count rank key matching) matching) Shows rest
        docs next :=
    fun _ _ _ _ _ hat hask => (nextPage_serves hoptions hprepare hbackend hat hask).1
  obtain ⟨r, hfollow, hpages⟩ :=
    Paging.follow_serves hpage hstart (Nat.lt_succ_self _) (i := 0)
  refine ⟨r, hfollow, fun got hgot => ?_, fun front a b tail hmatching htie => ?_⟩
  · exact shows_map (hpages got hgot).1
  · cases hr : r with
    | error err => exact ⟨err, rfl⟩
    | ok got =>
      rw [hr] at hfollow
      have hchain := Paging.follow_chained hpage
        (fun _ _ _ _ _ hat hask => (nextPage_serves hoptions hprepare hbackend hat hask).2)
        hstart hfollow
      rw [hmatching] at hchain
      exact absurd htie (isChain_cons_cons.mp hchain.right_of_append).1

end Following

/-! ## Three hits -/

/-- A hit whose only sort value is the digit. -/
def sortedHit (digit : UInt8) : List UInt8 :=
  lit "\x7b\"_id\":\"x\",\"sort\":[" ++ digit :: lit "]\x7d"

def sortedHits : List (List UInt8) := [0x31, 0x32, 0x33].map sortedHit

def sortQuery : List UInt8 := lit "\x7b\"sort\":[\"n\"],\"size\":5\x7d"

/-- What `encoding/json` makes of the texts here. -/
def smallJson : RawJson where
  array
    | [0x5B, digit, 0x5D] => if isDigit digit then some [[digit]] else none
    | text => if text = lit "[\"n\"]" then some [lit "\"n\""] else none
  string text := if text = lit "\"n\"" then some (lit "n") else none
  object text := if text = sortQuery then
    some [(lit "sort", lit "[\"n\"]"), (lit "size", lit "5")] else none
  scalar
    | [digit] => if isDigit digit then .ok true else refuse "invalid character"
    | _ => refuse "unknown value"
  sortOf hit :=
    match [0x31, 0x32, 0x33].find? fun digit => decide (hit = sortedHit digit) with
    | some digit => .ok [0x5B, digit, 0x5D]
    | none => refuse "unknown hit"
  compact
    | [[digit]] => if isDigit digit then .ok [0x5B, digit, 0x5D]
      else refuse "invalid character"
    | _ => refuse "unknown values"
  names _ _ := refuse "unknown names"
  compact_ne_nil values text h := by
    split at h
    · split at h <;> cases h
      exact cons_ne_nil _ _
    · cases h
  compact_idem values values' text h harray := by
    split at h
    · split at h <;> cases h
      rename_i hdigit
      cases (if_pos hdigit).symm.trans harray
      exact if_pos hdigit
    · cases h

def digitAt (k : Nat) (text : List UInt8) : Nat := (text.getD (text.length - k) 0).toNat

/-- The backend reads the size and the place to start from in the body. -/
def smallSearch (body : Body) : List (List UInt8) :=
  let left :=
    match body (lit "search_after") with
    | none => sortedHits
    | some values => Paging.behind (digitAt 3) (digitAt 2 values) sortedHits
  let short := [1, 2].find? fun size => decide (body (lit "size") = some (decimal size))
  (short.map fun size => left.take size.toNat).getD left

/-- The request names neither a path nor a method, and a size that is replaced. -/
def smallRequest : ScanRequest := ⟨⟨lit "s", [], [], [], [], [], sortQuery, 0⟩, 0, [], none⟩

def smallStore : Store where
  lib := goLib ⟨1, Sha256.digest smallRequest.commandText, lit "[1]"⟩
  json := smallJson
  quote text := 0x22 :: (text ++ [0x22])
  marshalRequest req := .ok (encodeObject [(lit "Request", encodeCommand req.request none)])
  nativeOptions req :=
    if req.uri = lit "s" then
      .ok ⟨req.method, req.path, req.path, [], [], req.contentType, req.payload, false, 0⟩
    else refuse "search Store does not match native URI"
  mediaType _ := []
  marshalBody body := .ok (encodeObject ((["search_after", "size", "sort", "track_total_hits"].map
    lit).filterMap fun name => (body name).map fun value => (name, value)))
  search _ := smallSearch

def smallOptions : RequestOptions where
  method := lit "POST"
  path := lit "/_search"
  rawPath := lit "/_search"
  query := []
  headers := [(lit "Accept", [lit "application/json"])]
  contentType := lit "application/json"
  payload := sortQuery
  retrySafe := true
  maxBytes := 0

def smallBody : Body := fun name =>
  if name = lit "from" ∨ name = lit "size" then none
  else ([(lit "sort", lit "[\"n\"]"), (lit "size", lit "5")].find? fun field =>
    decide (field.1 = name)).map Prod.snd

theorem smallSearch_sized {body : Body} {size : Int} (hsize : 1 ≤ size)
    (hlength : (smallSearch (sized body 3)).length ≤ 3) :
    smallSearch (sized body size) = (smallSearch (sized body 3)).take size.toNat := by
  rcases (by omega : size = 1 ∨ size = 2 ∨ 3 ≤ size) with rfl | rfl | hlarge
  · rfl
  · rfl
  · have hnone : ∀ n ∈ [1, 2], ¬decide (some (decimal size) = some (decimal n)) = true := by
      intro n hn heq
      have hne := decimal_injective (some.inj (of_decide_eq_true heq))
      simp only [mem_cons, not_mem_nil, or_false] at hn
      omega
    have hall : smallSearch (sized body size) = smallSearch (sized body 3) := by
      show (([1, 2].find? fun n =>
        decide (some (decimal size) = some (decimal n))).map _).getD _ = _
      rw [find?_eq_none.mpr hnone]
      rfl
    rw [hall, take_of_length_le (by omega)]

theorem smallStore_answers : Answers smallStore smallOptions
    (smallBody.set (lit "track_total_hits") (lit "false")) 1 (digitAt 2) (digitAt 3)
    sortedHits where
  sorted := by decide
  ranked := by
    intro hit hhit values hvalues
    simp only [sortedHits, map_cons, map_nil, mem_cons, not_mem_nil, or_false] at hhit
    rcases hhit with rfl | rfl | rfl <;> cases hvalues <;> rfl
  tied := by
    intro a ha b hb va vb hva hvb
    simp only [sortedHits, map_cons, map_nil, mem_cons, not_mem_nil, or_false] at ha hb
    rcases ha with rfl | rfl | rfl <;> rcases hb with rfl | rfl | rfl <;>
      cases hva <;> cases hvb <;> decide
  first _ size hsize := smallSearch_sized hsize (by decide)
  after _ size values hsize := smallSearch_sized hsize (length_filter_le _ _)

/-- The first response is too large for two hits. -/
def smallPages (i : Nat) : PageRequest ScanEnv where
  batchSize := 2
  maxBytes := 0
  env :=
    { now := 0
      cache := ⟨[], fun _ hmem => absurd hmem not_mem_nil⟩
      attempts := if i = 0 then [.tooLarge (.text (lit "too large")) false] else []
      memory := []
      ctxErr := none }

theorem scan_skips_nothing_sorted :
    ∃ got, Paging.follow (smallStore.nextPage smallRequest smallPages) 4 0 [] = some (.ok got) ∧
      got.map length = [1, 2] ∧
      got.flatten = sortedHits.map fun hit => ⟨.json, hit⟩ := by
  have hrun : Paging.follow (smallStore.nextPage smallRequest smallPages) 4 0 [] =
      some (.ok [[⟨.json, sortedHit 0x31⟩],
        [⟨.json, sortedHit 0x32⟩, ⟨.json, sortedHit 0x33⟩]]) := by
    decide +kernel
  have hoptions : smallStore.pageOptions { smallRequest.request with maxBytes := 0 } =
      .ok (smallOptions, smallBody) := rfl
  have hprepare : prepare smallStore.json smallStore.quote smallOptions smallBody
      smallRequest.projection = .ok (smallOptions,
        smallBody.set (lit "track_total_hits") (lit "false"), 1) := rfl
  obtain ⟨r, hr, hgot, -⟩ := scan_skips_nothing hoptions hprepare smallStore_answers smallPages
  have hok := some.inj (hr.symm.trans hrun)
  exact ⟨_, hrun, rfl, hgot _ hok⟩

end Sink.Search
