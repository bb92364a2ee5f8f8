import Conic.Exchange.Scope

/-!
# Runs with an output

An exchange prints a summary of a checkout when it is asked to. Where the text goes, and whether
there is one, can be changed at any time.

* `Redirect` — where the output is sent.
* `Exchange.Operation` — a call, the output sent elsewhere, or the summaries switched on or off.
* `Exchange.Step`, `Exchange.steps`, `Exchange.run` — operations one after the other, up to the
  first one that is out of range.
* `Exchange.answers` — what is answered to the calls of a run, printed text aside.
* `Step.text` — the summary of the dual that a step derived.
-/

namespace Conic

/-- Where the output of an exchange is sent. -/
inductive Redirect where
  | console
  | buffer
  | stream (writer : Writer)
  | sink

/-- The target of the output at the start. -/
def Redirect.target : Redirect → Target
  | .console => .console
  | .buffer => .buffer ""
  | .stream writer => .stream writer
  | .sink => .sink

namespace Exchange

variable {α : Type}

/-- What can be done with an exchange and its output. -/
inductive Operation (α : Type) where
  | call (c : Call α)
  | redirect (place : Redirect)
  /-- Switch the summaries on or off. -/
  | verbose (on : Bool)

/-- An operation that was carried out, or declined for a cause. A borrower tells what he read. -/
structure Step (α : Type) where
  operation : Operation α
  before : Exchange α
  result : Except Refusal (Option (Cycle.Seen α))
  after : Exchange α

section

variable [Scalar α]

namespace Operation

/-- One operation. -/
def perform : Operation α → InPlace α (Option (Cycle.Seen α))
  | .call (.borrow elapsed changes returned) => some <$> Cycle.borrowed elapsed changes returned
  | .call c => do
    InPlace.perform c
    return none
  | .redirect place => do
    modify fun x => { x with target := place.target }
    return none
  | .verbose on => do
    modify fun x => { x with settings := { x.settings with verbose := on } }
    return none

/-- The step that an operation comes to, unless it is out of range. -/
def step? (op : Operation α) (x : Exchange α) : Option (Step α) :=
  (Cycle.outcome op.perform x).map fun (result, after) => ⟨op, x, result, after⟩

end Operation

/-- The steps of a run. -/
def steps (x : Exchange α) : List (Operation α) → List (Step α)
  | [] => []
  | op :: ops =>
    match op.step? x with
    | some s => s :: s.after.steps ops
    | none => []

/-- The exchange after a run in which nothing was out of range. -/
def run (x : Exchange α) : List (Operation α) → Option (Exchange α)
  | [] => some x
  | op :: ops => do (← op.step? x).after.run ops

end

/-! ## Answers -/

/-- What a call is answered, and what can be read after it. -/
structure Answer (α : Type) where
  result : Except Refusal (Option (Cycle.Seen α))
  view : View α
  summary : Summary

namespace Step

/-- The answer to a call. The time that the last derivation took is not part of it. -/
def answer? (s : Step α) : Option (Answer α) :=
  match s.operation with
  | .call _ => some ⟨s.result, s.after.view, { s.after.summary with elapsed := 0 }⟩
  | _ => none

/-- The dual that was derived, as it was handed out, and how long it took. -/
def derived? (s : Step α) : Option (Dual α × Nat) :=
  match s.operation, s.result with
  | .call (.checkOut elapsed), .ok _ => s.after.dual.toOption.map (·, elapsed)
  | .call (.borrow elapsed _ _), .ok (some seen) => seen.out.dual.toOption.map (·, elapsed)
  | _, _ => none

/-- The summary of the dual that was derived, if summaries are switched on. -/
def text (s : Step α) : String :=
  match s.derived? with
  | some (dual, elapsed) =>
    if s.before.settings.verbose then
      String.join ((s.before.summary.afterCheckout dual elapsed).lines s.before.primal)
    else ""
  | none => ""

end Step

/-- What is answered to the calls of a run. -/
def answers [Scalar α] (x : Exchange α) (ops : List (Operation α)) : List (Answer α) :=
  (x.steps ops).filterMap Step.answer?

end Exchange

end Conic
