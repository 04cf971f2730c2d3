import Mathlib.Data.List.Forall2
import Mathlib.Data.List.GetD
import Sink.Server

/-!
# Combining write requests

`BatchingServer.Write` and `combinedWriteRequest` of `batching_server.go`. The
operations of several RPCs are executed as one request without declarations of
Lua programs. Before that, each operation's reference to a program is replaced
by the program its own RPC declares for it.

A reference that is replaced carries source and digest, so it resolves without
any declaration; one that is not replaced fails with the same error in either
request.
-/

namespace Sink

open List

/-! ## The batching server -/

def normalizeSynchronousWriteOperation (operation : Option WriteOperation)
    (programs : LuaPrograms) : Option WriteOperation :=
  match operation with
  | some ⟨uri, .merge (some merge), returnDocument⟩ =>
    match merge.luaProgram with
    | none => operation
    | some reference =>
      if !reference.source.isEmpty || reference.sha256.length != 32 then operation
      else
        match programs reference.sha256 with
        | none => operation
        | some resolved => some ⟨uri, .merge (some { merge with
            luaProgram := some ⟨resolved.source, resolved.sha256⟩ }), returnDocument⟩
  | _ => operation

def normalizeSynchronousWriteRequest (req : WriteRequest) (programs : LuaPrograms) :
    WriteRequest where
  operations := req.operations.map fun op => normalizeSynchronousWriteOperation op programs
  completionMode := req.completionMode
  luaPrograms := []

def combinedWriteRequest (calls : List WriteRequest) : WriteRequest where
  operations := calls.flatMap (·.operations)
  completionMode := calls.head?.elim .unspecified (·.completionMode)
  luaPrograms := []

/-- What `BatchingServer.Write` does with a request it accepts. -/
inductive Submission where
  /-- An asynchronous request is executed by the server as it is. -/
  | alone (req : WriteRequest)
  | batched (normalized : WriteRequest)
deriving Repr, DecidableEq

namespace Server

variable (srv : Server)

/-- The checks of `BatchingServer.Write`, and what it submits. -/
def submitWrite (req : WriteRequest) : Fallible Submission :=
  match srv.checkStore (req.operations.map WriteOperation.getUri) <|>
      srv.checkMutations "write" req.operations.length req.completionMode with
  | some err => .error err
  | none =>
    if req.completionMode = .returnAfterAccepted then .ok (.alone req)
    else
      match srv.codec.parseLuaPrograms req.luaPrograms with
      | .error err => .error (.status .invalidArgument
          (lit "write request Lua programs: " ++ err.message))
      | .ok programs => .ok (.batched (normalizeSynchronousWriteRequest req programs))

theorem submitWrite_batched {req normalized : WriteRequest}
    (h : srv.submitWrite req = .ok (.batched normalized)) :
    ∃ programs, srv.codec.parseLuaPrograms req.luaPrograms = .ok programs ∧
      normalized = normalizeSynchronousWriteRequest req programs := by
  unfold submitWrite at h
  split at h
  · cases h
  split at h
  · cases h
  split at h
  · cases h
  rename_i programs hprograms
  cases h
  exact ⟨programs, hprograms, rfl⟩

end Server

/-! ## What an operation is parsed to -/

/-- All that parsing makes of an operation but its place in the request. -/
structure Resolution where
  address : Address
  returnDocument : Bool
  action : Action
  program : Option LuaProgram

def AcceptedWrite.resolution (write : AcceptedWrite) : Resolution :=
  ⟨write.parsed.address, write.parsed.returnDocument, write.parsed.action, write.program⟩

namespace Codec

variable (codec : Codec)
variable {programs : List (Option LuaProgram)} {reference : LuaProgram}
  {decls : List (Option LuaProgram)}

/-- What `Server.write` resolves for one operation of a request, or its error. -/
def resolve (req : WriteRequest) (index : Nat) : Fallible Resolution :=
  match codec.parseLuaPrograms req.luaPrograms with
  | .error err =>
    .error (.status .invalidArgument (lit "write request Lua programs: " ++ err.message))
  | .ok programs =>
    (codec.parseWrite index (req.operations.getD index none) programs).map
      AcceptedWrite.resolution

/-- A declaration is kept under the digest of its source. -/
structure Declared (program : LuaProgram) : Prop where
  source : program.source.isEmpty = false
  digest : program.sha256 = codec.sum256 program.source

theorem validateLuaDeclarations_sources {index seen}
    (h : codec.validateLuaDeclarations index seen programs = none) :
    ∀ program ∈ programs, (LuaProgram.getSource program).isEmpty = false := by
  induction programs generalizing index seen with
  | nil => simp
  | cons program rest ih =>
    cases program with
    | none => cases h
    | some program =>
      simp only [validateLuaDeclarations] at h
      split at h
      · cases h
      rename_i hsource
      split at h
      · cases h
      split at h
      · cases h
      exact forall_mem_cons.mpr ⟨Bool.eq_false_iff.mpr hsource, ih h⟩

variable {declared : LuaPrograms}

theorem foldl_declare
    (hsources : ∀ program ∈ programs, (LuaProgram.getSource program).isEmpty = false)
    (hdeclared : ∀ digest p, declared digest = some p → codec.Declared p) :
    ∀ digest p, programs.foldl codec.declare declared digest = some p → codec.Declared p := by
  induction programs generalizing declared with
  | nil => exact hdeclared
  | cons program rest ih =>
    refine ih (forall_mem_cons.mp hsources).2 fun digest p hp => ?_
    by_cases hdigest : digest = codec.sum256 (LuaProgram.getSource program)
    · subst hdigest
      simp only [declare, Function.update_self, Option.some.injEq] at hp
      subst hp
      exact ⟨hsources program mem_cons_self, rfl⟩
    · simp only [declare, Function.update_of_ne hdigest] at hp
      exact hdeclared digest p hp

theorem parseLuaPrograms_declared (h : codec.parseLuaPrograms programs = .ok declared)
    {digest : GoString} {p : LuaProgram} (hp : declared digest = some p) : codec.Declared p := by
  unfold parseLuaPrograms at h
  split at h
  · cases h
  rename_i hvalid
  cases h
  refine codec.foldl_declare (codec.validateLuaDeclarations_sources hvalid) ?_ digest p hp
  intro _ _ hnone
  cases hnone

/-! ## Normalized operations -/

def noPrograms : LuaPrograms := fun _ => none

theorem resolveLuaProgram_declared {p : LuaProgram} (h : codec.Declared p) :
    codec.resolveLuaProgram ⟨p.source, p.sha256⟩ noPrograms = .ok p := by
  obtain ⟨source, sha256⟩ := p
  obtain ⟨hsource, rfl⟩ : source.isEmpty = false ∧ sha256 = codec.sum256 source :=
    ⟨h.source, h.digest⟩
  simp [resolveLuaProgram, hsource, codec.sum256_length]

/-- A source is resolved without looking at the declarations, and so is a
reference that cannot be a digest. -/
theorem resolveLuaProgram_local (programs programs' : LuaPrograms)
    (h : (!reference.source.isEmpty || reference.sha256.length != 32) = true) :
    codec.resolveLuaProgram reference programs = codec.resolveLuaProgram reference programs' := by
  unfold resolveLuaProgram
  split
  · rfl
  rename_i hsource
  have hlength : (reference.sha256.length != 32) = true := by simpa [hsource] using h
  rw [if_pos hlength, if_pos hlength]

/-- The program of a merge after normalization. -/
def normalizeReference (programs : LuaPrograms) (reference : LuaProgram) : LuaProgram :=
  if !reference.source.isEmpty || reference.sha256.length != 32 then reference
  else
    match programs reference.sha256 with
    | none => reference
    | some resolved => ⟨resolved.source, resolved.sha256⟩

variable {programs : LuaPrograms}

section

variable (hprograms : codec.parseLuaPrograms decls = .ok programs)

include hprograms

/-- A normalized reference resolves without declarations as the original does
with those of its RPC. -/
theorem resolveLuaProgram_normalized (reference : LuaProgram) :
    codec.resolveLuaProgram (normalizeReference programs reference) noPrograms =
      codec.resolveLuaProgram reference programs := by
  unfold normalizeReference
  split
  · rename_i hlocal
    exact codec.resolveLuaProgram_local _ _ hlocal
  rename_i hreference
  rw [Bool.or_eq_true, not_or] at hreference
  obtain ⟨hsource, hlength⟩ := hreference
  have hresolve : ∀ declared : LuaPrograms, codec.resolveLuaProgram reference declared =
      match declared reference.sha256 with
      | none => .error (.text
          (lit "lua program SHA-256 reference was not declared in the write request"))
      | some p => .ok p := by
    intro declared
    exact (if_neg hsource).trans (if_neg hlength)
  rw [hresolve programs]
  cases hdeclared : programs reference.sha256 with
  | none => exact hresolve noPrograms
  | some p =>
    exact codec.resolveLuaProgram_declared (codec.parseLuaPrograms_declared hprograms hdeclared)

theorem parseMerge_normalized (merge : MergeOperation) (href : merge.luaProgram = some reference) :
    codec.parseMerge (some { merge with
        luaProgram := some (normalizeReference programs reference) }) noPrograms =
      codec.parseMerge (some merge) programs := by
  unfold parseMerge
  simp only [href, codec.resolveLuaProgram_normalized hprograms]

omit hprograms in
theorem normalizeSynchronousWriteOperation_merge (uri : GoString) (merge : MergeOperation)
    (returnDocument : Bool) (programs : LuaPrograms) (href : merge.luaProgram = some reference) :
    normalizeSynchronousWriteOperation (some ⟨uri, .merge (some merge), returnDocument⟩) programs =
      some ⟨uri, .merge (some { merge with
        luaProgram := some (normalizeReference programs reference) }), returnDocument⟩ := by
  have hsame : merge = { merge with luaProgram := some reference } := by rw [← href]
  simp only [normalizeSynchronousWriteOperation, href, normalizeReference]
  split
  · rw [← hsame]
  split
  · rw [← hsame]
  · rfl

/-- What parsing makes of a normalized operation does not depend on where it
is, nor on any declaration but those of its own RPC. -/
theorem parseWrite_normalized (index index' : Nat) (operation : Option WriteOperation) :
    (codec.parseWrite index (normalizeSynchronousWriteOperation operation programs)
        noPrograms).map AcceptedWrite.resolution =
      (codec.parseWrite index' operation programs).map AcceptedWrite.resolution := by
  -- operations that parse alike, whatever their place
  have halike : ∀ op op' : WriteOperation, op.uri = op'.uri →
      op.returnDocument = op'.returnDocument →
      codec.parseAction op.action noPrograms = codec.parseAction op'.action programs →
      (codec.parseWrite index (some op) noPrograms).map AcceptedWrite.resolution =
        (codec.parseWrite index' (some op') programs).map AcceptedWrite.resolution := by
    intro op op' huri hreturn haction
    simp only [parseWrite, huri, hreturn, haction]
    cases codec.parseRecord op'.uri with
    | error err => rfl
    | ok address =>
      cases codec.parseAction op'.action programs with
      | error err => rfl
      | ok parsed => rfl
  cases operation with
  | none => rfl
  | some op =>
    obtain ⟨uri, action, returnDocument⟩ := op
    cases action with
    | none => exact halike _ _ rfl rfl rfl
    | put operation => exact halike _ _ rfl rfl rfl
    | merge operation =>
      cases operation with
      | none => exact halike _ _ rfl rfl rfl
      | some merge =>
        cases href : merge.luaProgram with
        | none =>
          have hsame : normalizeSynchronousWriteOperation
              (some ⟨uri, .merge (some merge), returnDocument⟩) programs =
              some ⟨uri, .merge (some merge), returnDocument⟩ := by
            simp only [normalizeSynchronousWriteOperation, href]
          rw [hsame]
          refine halike _ _ rfl rfl ?_
          simp only [parseAction, parseMerge, href]
        | some reference =>
          rw [normalizeSynchronousWriteOperation_merge uri merge returnDocument programs href]
          refine halike _ _ rfl rfl ?_
          simp only [parseAction, codec.parseMerge_normalized hprograms merge href]

end

end Codec

/-! ## Combined requests -/

def Server.Batched (srv : Server) (calls normalized : List WriteRequest) : Prop :=
  Forall₂ (fun req n => srv.submitWrite req = .ok (.batched n)) calls normalized

/-- Where an operation stands in the combined request. -/
theorem Server.Batched.operation {srv : Server} {req : WriteRequest}
    {before after normalized : List WriteRequest}
    (h : srv.Batched (before ++ req :: after) normalized) {j : Nat}
    (hj : j < req.operations.length) :
    ∃ programs, srv.codec.parseLuaPrograms req.luaPrograms = .ok programs ∧
      (combinedWriteRequest normalized).operations.getD
          ((before.map (·.operations.length)).sum + j) none =
        normalizeSynchronousWriteOperation (req.operations.getD j none) programs := by
  induction before generalizing normalized with
  | nil =>
    obtain ⟨n, rest, hn, -, rfl⟩ := forall₂_cons_left_iff.mp h
    obtain ⟨programs, hprograms, rfl⟩ := srv.submitWrite_batched hn
    refine ⟨programs, hprograms, ?_⟩
    have hlength : j < (normalizeSynchronousWriteRequest req programs).operations.length := by
      simpa [normalizeSynchronousWriteRequest] using hj
    simp only [map_nil, sum_nil, Nat.zero_add, combinedWriteRequest,
      flatMap_cons, getD_append _ _ _ _ hlength]
    simp [normalizeSynchronousWriteRequest, hj]
  | cons call before ih =>
    obtain ⟨n, rest, hn, hrest, rfl⟩ := forall₂_cons_left_iff.mp h
    obtain ⟨programs, hprograms, hoperation⟩ := ih hrest
    obtain ⟨others, -, rfl⟩ := srv.submitWrite_batched hn
    refine ⟨programs, hprograms, ?_⟩
    have hlength : (normalizeSynchronousWriteRequest call others).operations.length =
        call.operations.length := by
      simp [normalizeSynchronousWriteRequest]
    have hskip : (normalizeSynchronousWriteRequest call others).operations.length ≤
        ((call :: before).map (·.operations.length)).sum + j := by
      rw [hlength, map_cons, sum_cons]
      omega
    rw [← hoperation]
    simp only [combinedWriteRequest, flatMap_cons, getD_append_right _ _ _ _ hskip]
    congr 1
    rw [hlength, map_cons, sum_cons]
    omega

/-- Whatever other RPCs it is combined with, an operation resolves to the same
program, or fails with the same error, as in its own RPC. -/
theorem combinedWriteRequest_resolve (srv : Server) (req : WriteRequest)
    (before after normalized : List WriteRequest)
    (hbatched : srv.Batched (before ++ req :: after) normalized) (j : Nat)
    (hj : j < req.operations.length) :
    srv.codec.resolve (combinedWriteRequest normalized)
        ((before.map (·.operations.length)).sum + j) =
      srv.codec.resolve req j := by
  obtain ⟨programs, hprograms, hoperation⟩ := hbatched.operation hj
  have hnone : srv.codec.parseLuaPrograms (combinedWriteRequest normalized).luaPrograms =
      .ok Codec.noPrograms := rfl
  simp only [Codec.resolve, hnone, hprograms, hoperation]
  exact srv.codec.parseWrite_normalized hprograms _ _ _

/-- A digest that only another RPC of the batch declares is not resolved. -/
theorem combinedWriteRequest_resolve_undeclared :
    let merge : WriteOperation := ⟨[97],
      .merge (some ⟨some ⟨.json, [1]⟩, some ⟨[], Sha256.digest [7]⟩⟩), false⟩
    let declaring : WriteRequest := ⟨[some merge], .waitUntilApplied, [some ⟨[7], []⟩]⟩
    let other : WriteRequest := ⟨[some merge], .waitUntilApplied, []⟩
    ∃ normalized, Server.small.Batched [declaring, other] normalized ∧
      (∃ op, Server.small.codec.resolve (combinedWriteRequest normalized) 0 = .ok op) ∧
      Server.small.codec.resolve (combinedWriteRequest normalized) 1 = .error (.text
        (lit "lua program SHA-256 reference was not declared in the write request")) := by
  intro merge declaring other
  have hbatched : ∃ n n', Server.small.Batched [declaring, other] [n, n'] :=
    ⟨_, _, .cons rfl (.cons rfl .nil)⟩
  obtain ⟨n, n', hbatched⟩ := hbatched
  refine ⟨[n, n'], hbatched, ?_, ?_⟩
  · exact ⟨_, (combinedWriteRequest_resolve _ _ [] [other] _ hbatched 0 Nat.one_pos).trans rfl⟩
  · exact combinedWriteRequest_resolve _ other [declaring] [] _ hbatched 0 Nat.one_pos

end Sink
