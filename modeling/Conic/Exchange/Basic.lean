import Conic.Dual.Construction
import Conic.Exchange.Event
import Conic.Exchange.Summary
import Conic.Output.Target
import Conic.Program.Consistency

/-!
# Exchanging a primal for its dual

An exchange owns a primal program. Its dual is checked out, solved by somebody, and checked in,
which turns the solution of the dual into the point of the primal. In between the primal is not to
be changed.

* `Exchange.checkOut`, `Exchange.checkIn` — the two halves of a cycle.
* `Exchange.constraintOf?` and its siblings — the tables of the dual that is out.
* `Exchange.borrow`, `Borrowed.checkIn` — the same with the dual in the hands of the borrower; a
  dual that is not returned leaves no trace but the count.
* `Exchange.Error` — the causes for which an exchange declines. Two of them say that the halves were
  used out of turn.
-/

namespace Conic

/-- Is a primal with cones of this kind supported? -/
def Cone.Kind.supported : Cone.Kind → Bool
  | .nonneg => true
  | .secondOrder => false

/-- Are primals with cones of these kinds supported? -/
def Cone.Kind.allSupported (kinds : List Cone.Kind) : Bool :=
  kinds.all supported

/-- Is a dual checked out? -/
inductive Exchange.State (α : Type) where
  | checkedIn
  | checkedOut (dual : Dual α)

/-- A primal program and, while it is checked out, its dual. -/
structure Exchange (α : Type) where
  primal : Program α
  state : Exchange.State α
  settings : Settings α
  summary : Summary
  target : Target

/-- A dual in the hands of a borrower, and the exchange it came from. -/
structure Borrowed (α : Type) where
  dual : Dual α
  owner : Exchange α

namespace Exchange

/-- The causes for which an exchange declines. -/
inductive Error where
  | notCheckedOut
  | notCheckedIn
  | unsupportedCone (kind : Cone.Kind)
  | program (error : Program.Error)
  | settings (error : Settings.Error)
  deriving DecidableEq, Repr

/-- The wording of a cause. -/
def Error.message : Error → String
  | .notCheckedOut => "Dual program is not checked out."
  | .notCheckedIn => "Dual program is not checked in."
  | .unsupportedCone kind => s!"Primal program contains unsupported {kind.name} cones"
  | .program error => s!"Malformed primal program: {error.message}"
  | .settings error => s!"Invalid settings: {error.message}"

/-- Were checking out and checking in used out of turn? -/
def Error.outOfTurn : Error → Bool
  | .notCheckedOut => true
  | .notCheckedIn => true
  | _ => false

/-- Does the exchange hold a dual? -/
def State.isCheckedOut {α : Type} : State α → Bool
  | .checkedIn => false
  | .checkedOut _ => true

/-- A computation that an exchange reports on. -/
abbrev Reported (α β : Type) : Type := Traced (Event α) (Fault Error) β

variable {α : Type}

/-- An exchange for a primal, nothing checked. -/
def new (primal : Program α) (settings : Settings α) : Exchange α :=
  ⟨primal, .checkedIn, settings, .initial, .console⟩

/-- Declines settings without meaning. -/
def checkSettings [Scalar α] (settings : Settings α) : Except Error Unit :=
  match settings.fault? with
  | some error => .error (.settings error)
  | none => .ok ()

/-- Declines a program with cones that are not supported. -/
def checkCones (primal : Program α) : Except Error Unit :=
  match primal.coneKinds.find? (!·.supported) with
  | some kind => .error (.unsupportedCone kind)
  | none => .ok ()

/-- Declines a program whose records contradict each other. -/
def checkRecords (primal : Program α) : Except Error Unit :=
  match primal.inconsistency? with
  | some error => .error (.program error)
  | none => .ok ()

/-- An exchange for a primal that can be checked out. -/
def tryNew [Scalar α] (primal : Program α) (settings : Settings α) : Except Error (Exchange α) := do
  checkSettings settings
  checkRecords primal
  checkCones primal
  return new primal settings

/-! ## Turns -/

/-- The dual that is checked out. -/
def dual (x : Exchange α) : Except Error (Dual α) :=
  match x.state with
  | .checkedOut dual => .ok dual
  | .checkedIn => .error .notCheckedOut

/-- Declines while nothing is checked out. -/
def verifyCheckedOut (x : Exchange α) : Except Error Unit :=
  x.dual.map fun _ => ()

/-- Declines while a dual is checked out. -/
def verifyCheckedIn (x : Exchange α) : Except Error Unit :=
  match x.state with
  | .checkedIn => .ok ()
  | .checkedOut _ => .error .notCheckedIn

/-- Reads the dual; declined while nothing is checked out. -/
def readDual {β : Type} (x : Exchange α) (read : Dual α → β) : Except Error β :=
  x.dual.map read

/-- The dual program. -/
def dualProgram (x : Exchange α) : Except Error (Program α) :=
  x.readDual (·.program)

/-- The dual constraint of a primal variable. -/
def constraintOf? (x : Exchange α) (v : VarId) : Except Error (Option ConstraintId) :=
  x.readDual (·.constraintOf? v)

/-- The dual variable of a slack. -/
def slackVarOf? (x : Exchange α) (v : VarId) : Except Error (Option VarId) :=
  x.readDual (·.slackVarOf? v)

/-- The nonnegative multiplier of a primal constraint. -/
def signedMultiplier? (x : Exchange α) (c : ConstraintId) : Except Error (Option VarId) :=
  x.readDual (·.signedMultiplier? c)

/-- The free multiplier of a primal constraint. -/
def freeMultiplier? (x : Exchange α) (c : ConstraintId) : Except Error (Option FreeMultiplier) :=
  x.readDual (·.freeMultiplier? c)

/-- The multiplier of a primal constraint, of either kind. -/
def multiplier? (x : Exchange α) (c : ConstraintId) : Except Error (Option VarId) :=
  x.readDual (·.multiplier? c)

/-- Changes the primal; declined while a dual is checked out. -/
def editPrimal {ε β : Type} (x : Exchange α) (edit : Program α → Except ε (Program α × β)) :
    Except Error (Except ε (Exchange α × β)) :=
  x.verifyCheckedIn.map fun _ =>
    (edit x.primal).map fun (primal, b) => ({ x with primal }, b)

/-- Changes the dual; declined while nothing is checked out. -/
def editDual {ε β : Type} (x : Exchange α) (edit : Program α → Except ε (Program α × β)) :
    Except Error (Except ε (Exchange α × β)) :=
  x.dual.map fun dual =>
    (edit dual.program).map fun (program, b) =>
      ({ x with state := .checkedOut { dual with program } }, b)

/-! ## Checking out -/

/-- Prints the summary. A failure is reported and otherwise ignored. -/
def printSummary (x : Exchange α) : Reported α (Exchange α) :=
  let printed := x.target.print (x.summary.lines x.primal)
  let console := if printed.console.isEmpty then [] else [Event.console printed.console]
  let failure := printed.failure.toList.map Event.summaryFailed
  ⟨console ++ failure, .ok { x with target := printed.target }⟩

/-- Derives the dual of the primal, counts it and, when asked to, prints the summary. `elapsed` is
how long the derivation took. -/
def derive [Scalar α] (x : Exchange α) (elapsed : Nat) : Reported α (Borrowed α) := do
  Traced.quiet (Checked.accepted (checkSettings x.settings))
  if x.settings.checkCones then
    Traced.quiet (Checked.accepted (checkCones x.primal))
  let dual ← (x.primal.dual x.settings).translate .construction (Fault.map .program)
  let program := dual.program
  Traced.report
    (.checkedOut program.vars.size program.constraints.size program.cones.size)
  let x := { x with summary := x.summary.afterCheckout dual elapsed }
  let owner ← if x.settings.verbose then x.printSummary else pure x
  return { dual, owner }

/-- Hands the dual to a borrower; the exchange itself stays checked in. -/
def borrow [Scalar α] (x : Exchange α) (elapsed : Nat) : Reported α (Borrowed α) := do
  Traced.quiet (Checked.accepted x.verifyCheckedIn)
  x.derive elapsed

/-- Checks the dual out. -/
def checkOut [Scalar α] (x : Exchange α) (elapsed : Nat) : Reported α (Exchange α) := do
  let borrowed ← x.borrow elapsed
  return { borrowed.owner with state := .checkedOut borrowed.dual }

/-! ## Checking in -/

/-- Takes a solved dual back: its solution becomes the point of the primal. -/
def settle (x : Exchange α) (dual : Dual α) : Reported α (Exchange α) := do
  let primal ← Traced.quiet (Checked.found (dual.writeBack? x.primal))
  Traced.report .checkedIn
  return { x with primal, summary := x.summary.afterCheckin }

/-- Checks the dual in. -/
def checkIn (x : Exchange α) : Reported α (Exchange α) := do
  let dual ← Traced.quiet (Checked.accepted x.dual)
  { x with state := .checkedIn }.settle dual

end Exchange

/-- Returns a borrowed dual. -/
def Borrowed.checkIn {α : Type} (b : Borrowed α) : Exchange.Reported α (Exchange α) :=
  b.owner.settle b.dual

/-- Changes a borrowed dual. -/
def Borrowed.edit {α ε β : Type} (b : Borrowed α) (edit : Program α → Except ε (Program α × β)) :
    Except ε (Borrowed α × β) :=
  (edit b.dual.program).map fun (program, r) => ({ b with dual := { b.dual with program } }, r)

end Conic
