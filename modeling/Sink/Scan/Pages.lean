import Sink.Lib.Paging
import Sink.Scan.Cursor

/-!
# Pages of a scan

What the scans of both stores have in common. The answer of a backend is read
item by item (`collect`): an item is checked against the one before it, the loop
stops in front of an item that has no room on the page, and every other item
becomes a document and a position behind it. A reader follows the cursors from
page to page (`nextPage`), and a cursor stands for what lies behind the position
that it carries (`Standing`).
-/

namespace Sink.Scan

open List

/-- The documents of a page, the position of the last one, and whether there
are more behind it. -/
structure Collected where
  documents : List Document
  position : List UInt8
  more : Bool

section Loop

variable (check : List UInt8 → List UInt8 → Fallible Unit)
  (read : List UInt8 → Fallible (Document × List UInt8)) (size : Int)
  (cursorErr : Option GoError)

/-- The loop of `Scan` over an answer, which may end with an error. -/
def collect : List (List UInt8) → List Document → List UInt8 → List UInt8 → ReserveState →
    Fallible Collected
  | [], documents, _, position, _ =>
    match cursorErr with
    | some err => .error (backendError (some err))
    | none => .ok ⟨documents, position, false⟩
  | item :: rest, documents, previous, position, budget => do
    check previous item
    if (documents.length : Int) = size then .ok ⟨documents, position, true⟩
    else
      let (document, next) ← read item
      match responseBudget.reserve document.size budget with
      | (some err, _) =>
        if documents.isEmpty then .error err else .ok ⟨documents, position, true⟩
      | (none, budget) => collect rest (documents ++ [document]) next next budget

/-- Items of which each was checked against the one before it. -/
def Linked : List UInt8 → List (List UInt8) → Prop
  | _, [] => True
  | previous, item :: rest => check previous item = .ok () ∧
      ∀ document next, read item = .ok (document, next) → Linked next rest

/-- An item becomes a document. -/
def Becomes (item : List UInt8) (document : Document) : Prop :=
  ∃ next, read item = .ok (document, next)

/-- The loop ends in front of `tail`, having kept what is in front of it and
checked everything up to the first item of `tail`. -/
structure Split (items : List (List UInt8)) (documents : List Document)
    (previous position : List UInt8) (page : Collected) : Prop where
  split : ∃ front tail kept, items = front ++ tail ∧ page.documents = documents ++ kept ∧
    Forall₂ (Becomes read) front kept ∧
    (∀ last ∈ front.getLast?, ∃ document, read last = .ok (document, page.position)) ∧
    (front = [] → page.position = position) ∧
    Linked check read previous (front ++ tail.head?.toList) ∧
    (page.more = false → tail = [] ∧ cursorErr = none) ∧ (page.more = true → tail ≠ [])
  length : (page.documents.length : Int) ≤ size
  nonempty : page.more = true → page.documents ≠ []

variable {check read size cursorErr} {items : List (List UInt8)} {documents : List Document}
  {previous position : List UInt8} {budget : ReserveState} {page : Collected}

theorem collect_split (hsize : 1 ≤ size) (hlength : (documents.length : Int) ≤ size)
    (h : collect check read size cursorErr items documents previous position budget = .ok page) :
    Split check read size cursorErr items documents previous position page := by
  induction items generalizing documents previous position budget with
  | nil =>
    unfold collect at h
    split at h
    · cases h
    cases h
    exact ⟨⟨[], [], [], rfl, by simp, .nil, by simp, fun _ => rfl, trivial,
      fun _ => ⟨rfl, rfl⟩, nofun⟩, hlength, nofun⟩
  | cons item rest ih =>
    unfold collect at h
    obtain ⟨⟨⟩, hcheck, h⟩ := bind_ok h
    have hstop : documents ≠ [] → Split check read size cursorErr (item :: rest) documents previous
        position ⟨documents, position, true⟩ := fun hne =>
      ⟨⟨[], item :: rest, [], rfl, by simp, .nil, by simp, fun _ => rfl,
        ⟨hcheck, fun _ _ _ => trivial⟩, nofun, fun _ => cons_ne_nil _ _⟩, hlength, fun _ => hne⟩
    split at h
    · rename_i hfull
      cases h
      refine hstop ?_
      rintro rfl
      have hzero : (0 : Int) = size := hfull
      omega
    obtain ⟨⟨document, next⟩, hread, h⟩ := bind_ok h
    dsimp only at h
    split at h
    · split at h
      · cases h
      rename_i hne
      cases h
      exact hstop (by simpa using hne)
    · have hlength' : (((documents ++ [document]).length : Nat) : Int) ≤ size := by
        rw [length_append, length_singleton]
        omega
      obtain ⟨⟨front, tail, kept, rfl, hkept, hall, hlast, hnone, hlinked, hend⟩, hlen, hne⟩ :=
        ih hlength' h
      refine ⟨⟨item :: front, tail, document :: kept, rfl, ?_, .cons ⟨next, hread⟩ hall, ?_, nofun,
        ⟨hcheck, fun document' next' hread' => ?_⟩, hend⟩, hlen, hne⟩
      · rw [hkept, append_assoc, singleton_append]
      · intro last hmem
        cases front with
        | nil =>
          obtain rfl : item = last := Option.some.inj hmem
          exact ⟨document, by rw [hread, hnone rfl]⟩
        | cons first front => exact hlast last hmem
      · rw [hread] at hread'
        cases hread'
        exact hlinked

theorem collect_cost (hroom : 0 ≤ (budget.cells 0).remaining)
    (h : collect check read size cursorErr items documents previous position budget = .ok page) :
    cost page.documents ≤ cost documents + (budget.cells 0).remaining := by
  induction items generalizing documents previous position budget with
  | nil =>
    unfold collect at h
    split at h
    · cases h
    · cases h
      exact Int.le_add_of_nonneg_right hroom
  | cons item rest ih =>
    unfold collect at h
    obtain ⟨-, -, h⟩ := bind_ok h
    split at h
    · cases h
      exact Int.le_add_of_nonneg_right hroom
    obtain ⟨⟨document, next⟩, -, h⟩ := bind_ok h
    dsimp only at h
    split at h
    · split at h
      · cases h
      · cases h
        exact Int.le_add_of_nonneg_right hroom
    · rename_i budget' hreserve
      obtain ⟨hfits, hleft⟩ := reserve_response hreserve
      have hcost := ih (by omega) h
      have happend : cost (documents ++ [document]) =
          cost documents + (document.size + readOverhead) := by
        simp [cost]
      omega

/-- The loop cuts a page off an answer with one item more than it may hold. -/
theorem collect_cut {n : Nat} {left reply : List (List UInt8)} (hn : 1 ≤ n)
    (hstarts : reply <+: left.take (n + 1))
    (hwhole : cursorErr = none → reply = left.take (n + 1))
    (h : collect check read n cursorErr reply [] previous [] budget = .ok page) :
    Paging.Cut (Becomes read)
      (fun kept next => (∀ last ∈ kept.getLast?, ∃ document, read last =
          .ok (document, page.position)) ∧ Linked check read previous (kept ++ next.toList))
      n left page.documents page.more := by
  obtain ⟨⟨front, tail, kept, rfl, hkept, hall, hlast, -, hlinked, hend, hgoes⟩, hlength, hne⟩ :=
    collect_split (by omega) (by rw [length_nil]; omega) h
  have hleft := hstarts.trans ( take_prefix _ _)
  have hfront : front = left.take front.length :=
    prefix_iff_eq_take.mp ((prefix_append front tail).trans hleft)
  refine ⟨⟨front.length, ?_, fun hmore => ?_, fun hmore => ?_⟩, by omega, hne⟩
  · rw [← hfront, hkept]
    exact hall
  · obtain ⟨rfl, herr⟩ := hend hmore
    rw [← hwhole herr, append_nil, ← hfront]
    exact ⟨rfl, hlast, hlinked⟩
  · obtain ⟨item, tail, rfl⟩ := exists_cons_of_ne_nil (hgoes hmore)
    obtain ⟨rest, hrest⟩ := hleft
    rw [← hfront, ← hrest, append_assoc, drop_left]
    exact ⟨hlast, hlinked⟩

end Loop

/-! ## Following the cursors -/

/-- What a reader may choose for each page, and what goes on around it. -/
structure PageRequest (Env : Type) where
  batchSize : Int
  maxBytes : Int
  env : Env

section Following

variable {Env : Type} {lib : GoLib} {req : ScanRequest} {cursor : List UInt8}

def pageRequest (req : ScanRequest) (page : PageRequest Env) (cursor : List UInt8) : ScanRequest :=
  { req with
    request := { req.request with maxBytes := page.maxBytes }
    batchSize := page.batchSize
    cursor := cursor }

/-- The documents of page `i`, and the cursor of the next one. -/
def nextPage (scan : Env → ScanRequest → Fallible ScanResponse) (req : ScanRequest)
    (pages : Nat → PageRequest Env) (i : Nat) (cursor : List UInt8) :
    Fallible (List Document × Option (List UInt8)) :=
  (scan (pages i).env (pageRequest req (pages i) cursor)).map fun response =>
    (response.documents, if response.nextCursor = [] then none else some response.nextCursor)

theorem nextPage_ok {scan : Env → ScanRequest → Fallible ScanResponse}
    {pages : Nat → PageRequest Env} {i : Nat} {docs : List Document} {next : Option (List UInt8)}
    (h : nextPage scan req pages i cursor = .ok (docs, next)) :
    ∃ response, scan (pages i).env (pageRequest req (pages i) cursor) = .ok response ∧
      docs = response.documents ∧
      next = if response.nextCursor = [] then none else some response.nextCursor := by
  obtain ⟨response, hscan, heq⟩ := map_ok h
  cases heq
  exact ⟨response, hscan, rfl, rfl⟩

/-- A cursor stands for the items behind the position it carries. -/
def Standing (lib : GoLib) (req : ScanRequest) (Behind : List UInt8 → List (List UInt8) → Prop)
    (matching : List (List UInt8)) (cursor : List UInt8) (rest : List (List UInt8)) : Prop :=
  rest <:+ matching ∧ (cursor = [] → rest = matching) ∧
    (cursor ≠ [] → ∃ position, Behind position rest ∧
      ∀ encoded, lib.marshalCommand { req.request with maxBytes := 0 } req.projection =
        .ok encoded →
        readCursor lib (lib.sha256 encoded) cursor = .ok ⟨position, lib.sha256 encoded⟩)

variable {Behind : List UInt8 → List (List UInt8) → Prop} {matching rest : List (List UInt8)}
  {page : PageRequest Env} {seek : ScanCursor}

theorem Standing.position (h : Standing lib req Behind matching cursor rest)
    (hresume : (pageRequest req page cursor).resume lib = .ok seek) :
    (seek.position = [] ∧ rest = matching) ∨ Behind seek.position rest := by
  obtain ⟨-, hfirst, hnext⟩ := h
  obtain ⟨-, encoded, hencoded, -, hempty, hread⟩ := resume_ok hresume
  by_cases hnil : cursor = []
  · exact .inl ⟨hempty hnil, hfirst hnil⟩
  obtain ⟨position, hbehind, hcarried⟩ := hnext hnil
  have hseek := hread hnil
  rw [show (pageRequest req page cursor).cursor = cursor from rfl, hcarried encoded hencoded]
    at hseek
  cases hseek
  exact .inr hbehind

/-- A page that was cut off what its cursor stands for serves it, if its position
has behind it what comes after the last item kept. -/
theorem Standing.serves {R : List UInt8 → Document → Prop}
    {L : List (List UInt8) → Option (List UInt8) → Prop} {n : Nat} {collected : Collected}
    {response : ScanResponse} (h : Standing lib req Behind matching cursor rest)
    (hresume : (pageRequest req page cursor).resume lib = .ok seek)
    (hcut : Paging.Cut R L n rest collected.documents collected.more)
    (hresult : seek.page lib collected.documents
      (if collected.more then collected.position else []) = .ok response)
    (hbehind : ∀ front a tail, matching = front ++ a :: tail → ∀ kept,
      L (kept ++ [a]) tail.head? → collected.position ≠ [] ∧ Behind collected.position tail) :
    Paging.Serves (Standing lib req Behind matching) R rest response.documents
      (if response.nextCursor = [] then none else some response.nextCursor) := by
  obtain ⟨-, encoded, hencoded, hquery, -⟩ := resume_ok hresume
  obtain ⟨hdocs, hcursor, hread⟩ := page_ok (by rw [hquery, lib.sha256_length]) hresult
  rw [hdocs]
  cases hmore : collected.more with
  | false =>
    rw [hmore] at hcut hcursor
    rw [if_pos (hcursor.mpr rfl)]
    exact hcut.whole.1
  | true =>
    rw [hmore] at hcut hcursor hread
    obtain ⟨front, a, tail, rfl, hshows, hlast⟩ := hcut.split
    obtain ⟨before, hsuffix⟩ := h.1
    obtain ⟨hpos, htail⟩ := hbehind (before ++ front) a tail (by simp [← hsuffix]) front hlast
    have hgoes : response.nextCursor ≠ [] := fun hnil => hpos (hcursor.mp hnil)
    rw [if_neg hgoes]
    refine ⟨hcut.nonempty rfl, front ++ [a], tail, by simp, hshows,
      ⟨before ++ front ++ [a], by simp [← hsuffix]⟩, fun hnil => absurd hnil hgoes,
      fun _ => ⟨collected.position, htail, fun encoded' hencoded' => ?_⟩⟩
    obtain rfl : encoded = encoded' := Except.ok.inj (hencoded.symm.trans hencoded')
    have hposition := hread hpos
    rwa [hquery] at hposition

end Following

end Sink.Scan
