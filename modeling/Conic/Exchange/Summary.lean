import Conic.Dual.Basic
import Conic.Decimal.Layout

/-!
# Summary of the checkouts

* `Summary` — how often a dual was checked out and in, and the sizes of the last one.
* `Summary.lines` — the summary as it is printed.

The two counters are 32 bits wide.
-/

namespace Conic

/-- How often a dual was checked out and in, and the sizes of the last one. -/
structure Summary where
  checkouts : UInt32
  checkins : UInt32
  signedMultipliers : Nat
  freeMultipliers : Nat
  rescaled : Nat
  vars : Nat
  constraints : Nat
  cones : Nat
  /-- How long the last derivation took, in nanoseconds. -/
  elapsed : Nat
  deriving DecidableEq, Repr

namespace Summary

/-- Before the first checkout. -/
def initial : Summary := ⟨0, 0, 0, 0, 0, 0, 0, 0, 0⟩

variable {α : Type}

/-- The summary after one more dual was derived. -/
def afterCheckout (s : Summary) (d : Dual α) (elapsed : Nat) : Summary :=
  { checkouts := s.checkouts + 1
    checkins := s.checkins
    signedMultipliers := d.signedCount
    freeMultipliers := d.freeCount
    rescaled := d.rescaled
    vars := d.program.vars.size
    constraints := d.program.constraints.size
    cones := d.program.cones.size
    elapsed }

/-- The summary after one more dual was checked in. -/
def afterCheckin (s : Summary) : Summary :=
  { s with checkins := s.checkins + 1 }

/-- A duration in seconds, with four digits. -/
def seconds (elapsed : Nat) : String :=
  String.ofList (Decimal.scientific 3 ⟨elapsed, 1000000000⟩) ++ "s"

/-- The summary as it is printed, each piece a line. -/
def lines (s : Summary) (primal : Program α) : List String :=
  [ s!"\nconicdual v0.1.0: dual checkout {s.checkouts.toNat}\n",
    s!"  primal variables    = {primal.vars.size}\n",
    s!"  primal constraints  = {primal.constraints.size}\n",
    s!"  primal cones        = {primal.cones.size}\n",
    s!"  dual variables      = {s.vars}\n",
    s!"  dual constraints    = {s.constraints}\n",
    s!"  dual cones          = {s.cones}\n",
    s!"  multipliers         = {s.signedMultipliers} slack ({s.rescaled} rescaled), " ++
      s!"{s.freeMultipliers} soc\n",
    s!"  checkout time       = {seconds s.elapsed}\n" ]

end Summary

end Conic
