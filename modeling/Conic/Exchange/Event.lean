import Conic.Dual.Construction
import Conic.Decimal.Layout

/-!
# What an exchange reports

* `Event` — decisions of the construction, checkouts and check-ins, a summary that could not be
  printed, and text that went to the console.
* `Event.record?` — the entry of an event in the log.
-/

namespace Conic

/-- How important an entry in the log is. -/
inductive Level where
  | trace
  | debug
  | info
  | warn
  | error
  deriving DecidableEq, Repr

/-- The name of a level. -/
def Level.name : Level → String
  | .trace => "TRACE"
  | .debug => "DEBUG"
  | .info => "INFO"
  | .warn => "WARN"
  | .error => "ERROR"

/-- What an exchange reports. -/
inductive Event (α : Type) where
  | construction (note : Dual.Note α)
  | checkedOut (vars constraints cones : Nat)
  | checkedIn
  | summaryFailed (reason : String)
  | console (text : String)
  deriving Repr

/-- Numbers in the log: the fewest digits that read back, all places written out. -/
def logLayout : Decimal.Layout :=
  ⟨.upward, fun _ => true, false⟩

/-- The text of a number in the log. -/
def logNumber (x : Float) : String :=
  match logLayout.text? x with
  | some text => String.ofList text
  | none => if x.isNaN then "NaN" else if x < 0 then "-inf" else "inf"

/-- The entry of a decision of the construction in the log. -/
def Dual.Note.record : Dual.Note Float → Level × String
  | .slackChosen c slack y =>
    (.trace, s!"constraint {c.label}: slack {slack.label}, dual variable {y.label}")
  | .noSlack c cone => (.trace, s!"constraint {c.label}: no slack, dual cone {cone.label}")
  | .zeroCoefficient slack =>
    (.warn, s!"slack {slack.label} has a zero coefficient; dual program will not be finite")
  | .rescaled slack y k =>
    (.trace, s!"slack {slack.label}: rescaled dual variable {y.label} by 1/{logNumber k}")

/-- The entry of an event in the log, if it has one. -/
def Event.record? : Event Float → Option (Level × String)
  | .construction note => some note.record
  | .checkedOut vars constraints cones =>
    some (.debug, s!"checked out dual program: {vars} variables, {constraints} constraints, " ++
      s!"{cones} cones")
  | .checkedIn => some (.debug, "checked in dual program")
  | .summaryFailed reason => some (.warn, s!"failed to print checkout summary: {reason}")
  | .console _ => none

end Conic
