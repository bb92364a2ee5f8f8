import Conic.Program.InPlace
import Conic.Program.StandardForm

/-!
# Storing a solution in place

A solution of a standard form is written into a program number after number: the point, the
multipliers, the dual values. The program need not be the one that was exported, so that the lengths
are looked at first. Nothing takes back what was written.

* `StandardForm.store` — the checks and the writes, in their order.
-/

namespace Conic.StandardForm

open Program (InPlace)
open Program.InPlace (writeConstraint writeVariable)

variable {α : Type}

/-- Declines unless the lengths of the solution and the sizes of the program are those of the form. -/
def verify (f : StandardForm α) (x z : List α) : InPlace α Unit := do
  let p ← get
  if x.length ≠ f.cost.length ∨ p.vars.size ≠ f.cost.length then
    throw (.refused (.pointDimension f.cost.length x.length))
  else if z.length ≠ f.rhs.length ∨ p.constraints.size ≠ f.equalities then
    throw (.refused (.pointDimension f.rhs.length z.length))
  else return

/-- Writes over the point, which must have as many coordinates. -/
def overwritePoint (x : List α) : InPlace α Unit := do
  let p ← get
  if p.point.size ≠ x.length then throw .outOfRange
  else set { p with point := x.toArray }

/-- The entries of `z` for the equality rows and for the rows below, of which there must be as many as
there are equalities. -/
def splitRows (f : StandardForm α) (z : List α) : InPlace α (List α × List α) :=
  if z.length < f.equalities then throw .outOfRange
  else return z.splitAt f.equalities

/-- Writes a solution into a program: `x` over the point, then the entries of the equality rows,
negated, as multipliers, then those of the other rows as dual values of the variables that they stand
for. -/
def store [Neg α] (f : StandardForm α) (x z : List α) : InPlace α Unit := do
  f.verify x z
  overwritePoint x
  let (rows, cones) ← f.splitRows z
  rows.zipIdx.forM fun (zi, i) => writeConstraint ⟨i⟩ fun row => { row with multiplier := -zi }
  (f.coneRows.zip cones).forM fun (v, zi) => writeVariable v fun y => { y with reducedCost := zi }

end Conic.StandardForm
