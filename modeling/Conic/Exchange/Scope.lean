import Conic.Exchange.Run

/-!
# Two ways through a cycle

A dual that is checked out is kept by the exchange. A dual that is borrowed is kept by the borrower,
and the exchange it came from stays checked in; it is gone as soon as the borrower is done.

* `View` — what can be read while a dual is out, from the exchange or from the borrower.
* `Borrowed.InPlace` — what a borrower does, write after write.
* `Cycle.watched` — changes of a dual one after the other, with what is read in between.
* `Cycle.checkedOut`, `Cycle.borrowed` — a whole cycle in either way.
* `Cycle.outcome` — what a cycle comes to.
-/

namespace Conic

/-! ## Reading -/

/-- What can be read while a dual is out. -/
structure View (α : Type) where
  primal : Program α
  dual : Except Exchange.Error (Dual α)
  program : Except Exchange.Error (Program α)
  constraintOf? : VarId → Except Exchange.Error (Option ConstraintId)
  slackVarOf? : VarId → Except Exchange.Error (Option VarId)
  signedMultiplier? : ConstraintId → Except Exchange.Error (Option VarId)
  freeMultiplier? : ConstraintId → Except Exchange.Error (Option FreeMultiplier)
  multiplier? : ConstraintId → Except Exchange.Error (Option VarId)

variable {α : Type}

/-- What can be read from an exchange. -/
def Exchange.view (x : Exchange α) : View α where
  primal := x.primal
  dual := x.dual
  program := x.dualProgram
  constraintOf? := x.constraintOf?
  slackVarOf? := x.slackVarOf?
  signedMultiplier? := x.signedMultiplier?
  freeMultiplier? := x.freeMultiplier?
  multiplier? := x.multiplier?

namespace Borrowed

/-- What a borrower can read; the dual is in his hands. -/
def view (b : Borrowed α) : View α where
  primal := b.owner.primal
  dual := .ok b.dual
  program := .ok b.dual.program
  constraintOf? v := .ok (b.dual.constraintOf? v)
  slackVarOf? v := .ok (b.dual.slackVarOf? v)
  signedMultiplier? c := .ok (b.dual.signedMultiplier? c)
  freeMultiplier? c := .ok (b.dual.freeMultiplier? c)
  multiplier? c := .ok (b.dual.multiplier? c)

/-! ## The hands of a borrower -/

/-- A computation that changes a borrowed dual, and through it the exchange, in place. What it has
written stays when it fails. -/
abbrev InPlace (α β : Type) : Type := EStateM (Fault Exchange.Refusal) (Borrowed α) β

namespace InPlace

/-- Changes the dual. -/
def change [Scalar α] (c : Change α) : InPlace α Unit := do
  match (← get).dual.program.change c with
  | .ok program => modify fun b => { b with dual := { b.dual with program } }
  | .error fault => throw (fault.map .program)

/-- Returns the dual: its solution is written into the primal, then the return is counted. -/
def checkIn : InPlace α Unit := do
  let b ← get
  match b.dual.writeBack? b.owner.primal with
  | none => throw .outOfRange
  | some primal =>
    modify fun b => { b with owner := { b.owner with primal } }
    modify fun b => { b with owner := { b.owner with summary := b.owner.summary.afterCheckin } }

end InPlace

end Borrowed

/-! ## Cycles -/

namespace Cycle

open Exchange (Refusal)

/-- The cause for which a computation is declined, if it is; that it was out of range is passed
on. -/
def cause? {σ : Type} (m : EStateM (Fault Refusal) σ Unit) :
    EStateM (Fault Refusal) σ (Option Refusal) :=
  tryCatch (do m; return none) fun
    | .refused cause => return some cause
    | .outOfRange => throw .outOfRange

/-- What is read in a cycle. -/
structure Seen (α : Type) where
  /-- Once the dual is out. -/
  out : View α
  /-- After each change, with the cause if it was declined. -/
  later : List (Option Refusal × View α)

section

variable {σ : Type} (view : σ → View α) (change : Change α → EStateM (Fault Refusal) σ Unit)

/-- One change, and what is read after it. One that is declined is passed over. -/
def watchedChange (c : Change α) : EStateM (Fault Refusal) σ (Option Refusal × View α) := do
  let cause ← cause? (change c)
  return (cause, view (← get))

/-- Changes one after the other, and what is read in between. -/
def watched (changes : List (Change α)) : EStateM (Fault Refusal) σ (Seen α) := do
  let out := view (← get)
  let later ← changes.mapM (watchedChange view change)
  return ⟨out, later⟩

end

/-- Lends a dual. The exchange gets back what the borrower leaves of it, and the dual is gone. -/
def lend {β : Type} (dual : Dual α) (m : Borrowed.InPlace α β) : Exchange.InPlace α β := fun x =>
  match m.run ⟨dual, x⟩ with
  | .ok b s => .ok b s.owner
  | .error fault s => .error fault s.owner

open Exchange.InPlace (ask derive perform)

variable [Scalar α]

/-- Changes of a dual that is checked out. -/
def changesOut (changes : List (Change α)) : Exchange.InPlace α (Seen α) :=
  watched Exchange.view (fun c => perform (.changeDual c)) changes

/-- Changes of a borrowed dual. -/
def changesLent (changes : List (Change α)) : Borrowed.InPlace α (Seen α) :=
  watched Borrowed.view Borrowed.InPlace.change changes

/-- The dual is checked out, changed, and checked in. -/
def checkedOut (elapsed : Nat) (changes : List (Change α)) : Exchange.InPlace α (Seen α) := do
  perform (.checkOut elapsed)
  let seen ← changesOut changes
  perform .checkIn
  return seen

/-- The dual is borrowed, changed, and then returned or let go. -/
def borrowed (elapsed : Nat) (changes : List (Change α)) (returned : Bool) :
    Exchange.InPlace α (Seen α) := do
  ask (← get).verifyCheckedIn
  let dual ← derive elapsed
  lend dual do
    let seen ← changesLent changes
    if returned then
      Borrowed.InPlace.checkIn
    return seen

omit [Scalar α] in
/-- What a computation comes to, and the exchange after it. Nothing is left when it was out of
range. -/
def outcome {β : Type} (m : Exchange.InPlace α β) (x : Exchange α) :
    Option (Except Refusal β × Exchange α) :=
  match m.run x with
  | .ok b y => some (.ok b, y)
  | .error (.refused cause) y => some (.error cause, y)
  | .error .outOfRange _ => none

end Cycle

end Conic
