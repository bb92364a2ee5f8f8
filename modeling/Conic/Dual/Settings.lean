import Conic.Json.Codec
import Conic.Scalar

/-!
# Settings of the dual construction

* `Settings` — which slack is chosen, which coefficients count as one, whether the kinds of cones
  are checked first, and whether a summary is printed.
* `Settings.fault?` — the tolerance has to be an actual number and not negative.
* `Settings.codec` — settings as text; a member that is left out has its default.
-/

namespace Conic

/-- Which of several slacks of a constraint is chosen. -/
inductive SlackChoice where
  | first
  | last
  deriving DecidableEq, Repr

/-- The settings of a dual construction. -/
structure Settings (α : Type) where
  /-- Print a summary of every checkout. -/
  verbose : Bool
  slackChoice : SlackChoice
  /-- Decline programs with cones that are not supported. -/
  checkCones : Bool
  /-- A coefficient this close to one is left as it is. -/
  unitTolerance : α
  deriving BEq, Repr

namespace Settings

/-- The settings that hold unless others are given. -/
def standard {α : Type} [Zero α] : Settings α :=
  ⟨false, .first, true, 0⟩

/-- A setting that has no meaning. -/
inductive Error where
  | badTolerance
  deriving DecidableEq, Repr

/-- The wording of a cause. -/
def Error.message : Error → String
  | .badTolerance => "Bad value for field \"unit_coefficient_tolerance\""

/-- The tolerance is finite and not negative. -/
def fault? {α : Type} [Scalar α] (s : Settings α) : Option Error :=
  if Scalar.isFinite s.unitTolerance && decide (0 ≤ s.unitTolerance) then none
  else some .badTolerance

/-- The settings, declined when one of them has no meaning. -/
def checked {α : Type} [Scalar α] (s : Settings α) : Except Error (Settings α) :=
  match s.fault? with
  | some error => .error error
  | none => .ok s

end Settings

open Json

/-- A choice is written as its name. -/
def SlackChoice.codec : Codec SlackChoice :=
  let named (name : String) : Option SlackChoice :=
    if name = "First" then some .first else if name = "Last" then some .last else none
  { write := fun
      | .first => Quoted.write "First"
      | .last => Quoted.write "Last"
    read := Codec.tagged
      (fun name => (named name).map fun choice => Codec.null >>= fun _ => pure choice) named }

/-- The members of settings. -/
def Settings.codec {α : Type} [Zero α] (number : Codec α) : Codec (Settings α) :=
  let standard : Settings α := .standard
  (Codec.record <|
    .field "verbose" .bool (some standard.verbose) <|
    .field "slack_selection" SlackChoice.codec (some standard.slackChoice) <|
    .field "check_cone_support" .bool (some standard.checkCones) <|
    .field "unit_coefficient_tolerance" number (some standard.unitTolerance) .done).map
    (fun (verbose, slackChoice, checkCones, unitTolerance, ()) =>
      ⟨verbose, slackChoice, checkCones, unitTolerance⟩)
    (fun s => (s.verbose, s.slackChoice, s.checkCones, s.unitTolerance, ()))

end Conic
