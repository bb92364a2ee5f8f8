import Conic.Program.Basic

/-!
# Building and changing programs

Variables are created together with the cone that owns them. A term is entered in its constraint
and in the membership list of its variable, and leaves both together. An operation that is declined
leaves the program as it was.

* `Program.addNonnegCone`, `Program.addSecondOrderCone`, `Program.addConstraint`
* `Program.addTerm`, `Program.removeTerm`
* `Program.setCost?` and its siblings — without an answer when the handle does not exist.
* `Edit`, `Program.edit` — the same operations as values.
-/

namespace Conic.Program

variable {α : Type}

/-- The handle that the next variable will have. -/
def nextVar (p : Program α) : VarId := ⟨p.vars.size⟩

/-- The handle that the next cone will have. -/
def nextCone (p : Program α) : ConeId := ⟨p.cones.size⟩

/-- The handle that the next constraint will have. -/
def nextConstraint (p : Program α) : ConstraintId := ⟨p.constraints.size⟩

/-- `n` fresh variables of cone `k`, with their coordinates. -/
def addVariables [Zero α] (p : Program α) (k : ConeId) (n : Nat) : Program α :=
  { p with
    vars := p.vars ++ Array.replicate n ⟨k, 0, 0, []⟩
    point := p.point ++ Array.replicate n 0 }

/-- A fresh variable in a cone of its own. -/
def addNonnegCone [Zero α] (p : Program α) : Program α × ConeId :=
  let q := p.addVariables p.nextCone 1
  ({ q with cones := q.cones.push (.nonneg p.nextVar) }, p.nextCone)

/-- A second-order cone of `n` fresh variables, the first of which is the apex. -/
def addSecondOrderCone [Zero α] (p : Program α) (n : Nat) : Checked Error (Program α × ConeId) :=
  if n < 2 then .error (.refused (.coneDimension n))
  else if maxLength < n then .error .outOfRange
  else
    let q := p.addVariables p.nextCone n
    let members := (List.range' p.vars.size n).map VarId.mk
    .ok ({ q with cones := q.cones.push (.secondOrder members) }, p.nextCone)

/-- A constraint without terms and with right-hand side zero. -/
def addConstraint [Zero α] (p : Program α) : Program α × ConstraintId :=
  ({ p with constraints := p.constraints.push ⟨.empty, 0, 0⟩ }, p.nextConstraint)

/-- Changes the variable `v`, if it exists. -/
def modifyVariable (p : Program α) (v : VarId) (f : Variable α → Variable α) : Program α :=
  { p with vars := p.vars.modify v.index f }

/-- Changes the constraint `c`, if it exists. -/
def modifyConstraint (p : Program α) (c : ConstraintId) (f : Constraint α → Constraint α) :
    Program α :=
  { p with constraints := p.constraints.modify c.index f }

/-- Enters the term `a·v` at the end of constraint `c`, and `c` at the end of the membership list of
`v`. -/
def addTerm (p : Program α) (c : ConstraintId) (v : VarId) (a : α) :
    Checked Error (Program α) :=
  match p.constraint? c with
  | none => .error .outOfRange
  | some row =>
    if row.terms.contains v then .error (.refused (.duplicateTerm c v))
    else match p.var? v with
      | none => .error .outOfRange
      | some _ => .ok <|
        (p.modifyConstraint c fun row => { row with terms := row.terms.put v a }).modifyVariable v
          fun x => { x with constraints := x.constraints ++ [c] }

/-- Removes the term on `v` from constraint `c`, and `c` from the membership list of `v`. Answers
the coefficient that the term had. -/
def removeTerm (p : Program α) (c : ConstraintId) (v : VarId) :
    Checked Error (Program α × α) :=
  match p.constraint? c with
  | none => .error .outOfRange
  | some row =>
    match row.terms.coefficient? v with
    | none => .error (.refused (.missingTerm c v))
    | some a =>
      match p.var? v with
      | none => .error .outOfRange
      | some _ => .ok
        ((p.modifyConstraint c fun row => { row with terms := row.terms.erase v }).modifyVariable v
          fun x => { x with constraints := x.constraints.filter (· ≠ c) }, a)

/-- Sets the objective coefficient of `v`. -/
def setCost? (p : Program α) (v : VarId) (a : α) : Option (Program α) :=
  (p.var? v).map fun _ => p.modifyVariable v fun x => { x with cost := a }

/-- Sets the dual value of `v`. -/
def setReducedCost? (p : Program α) (v : VarId) (a : α) : Option (Program α) :=
  (p.var? v).map fun _ => p.modifyVariable v fun x => { x with reducedCost := a }

/-- Sets the right-hand side of `c`. -/
def setRhs? (p : Program α) (c : ConstraintId) (a : α) : Option (Program α) :=
  (p.constraint? c).map fun _ => p.modifyConstraint c fun row => { row with rhs := a }

/-- Sets the Lagrange multiplier of `c`. -/
def setMultiplier? (p : Program α) (c : ConstraintId) (a : α) : Option (Program α) :=
  (p.constraint? c).map fun _ => p.modifyConstraint c fun row => { row with multiplier := a }

/-- Sets the coordinate of the point at `v`. -/
def setCoordinate? (p : Program α) (v : VarId) (a : α) : Option (Program α) :=
  if v.index < p.point.size then some { p with point := p.point.setIfInBounds v.index a } else none

end Conic.Program

namespace Conic

/-- An operation that changes a program. -/
inductive Edit (α : Type) where
  | addNonnegCone
  | addSecondOrderCone (dim : Nat)
  | addConstraint
  | addTerm (c : ConstraintId) (v : VarId) (a : α)
  | removeTerm (c : ConstraintId) (v : VarId)
  | setCost (v : VarId) (a : α)
  | setReducedCost (v : VarId) (a : α)
  | setRhs (c : ConstraintId) (a : α)
  | setMultiplier (c : ConstraintId) (a : α)
  | setCoordinate (v : VarId) (a : α)
  deriving Repr

/-- The program after an operation. -/
def Program.edit {α : Type} [Zero α] (p : Program α) : Edit α → Checked Program.Error (Program α)
  | .addNonnegCone => .ok p.addNonnegCone.1
  | .addSecondOrderCone dim => (p.addSecondOrderCone dim).map Prod.fst
  | .addConstraint => .ok p.addConstraint.1
  | .addTerm c v a => p.addTerm c v a
  | .removeTerm c v => (p.removeTerm c v).map Prod.fst
  | .setCost v a => Checked.found (p.setCost? v a)
  | .setReducedCost v a => Checked.found (p.setReducedCost? v a)
  | .setRhs c a => Checked.found (p.setRhs? c a)
  | .setMultiplier c a => Checked.found (p.setMultiplier? c a)
  | .setCoordinate v a => Checked.found (p.setCoordinate? v a)

end Conic
