import Conic.Fault
import Conic.Scalar
import Conic.Program.Cone
import Conic.Program.Terms
import Conic.Sparse.Basic

/-!
# Conic programs

A program asks for the least cost `Σ cᵥ·xᵥ` of a point `x` that satisfies a list of linear
constraints `Σ aᵢᵥ·xᵥ = bᵢ` and whose coordinates lie in the program's cones.

* `Program` — arenas of variables, cones and constraints, and a point with one coordinate for each
  variable. The record promises nothing; see `Program.inconsistency?`.
* `Program.Error` — the causes for which an operation on a program is declined, and their wording.
* Each term is recorded twice: in its constraint and in the membership list of its variable.
-/

namespace Conic

/-- A variable of a program. -/
structure Variable (α : Type) where
  /-- The cone that owns the variable. -/
  cone : ConeId
  /-- The coefficient of the variable in the objective. -/
  cost : α
  /-- The dual value of the variable, stored by whoever solves the program. -/
  reducedCost : α
  /-- The constraints with a term on the variable, in the order in which they were added. -/
  constraints : List ConstraintId
  deriving BEq, Repr

/-- A linear equation. -/
structure Constraint (α : Type) where
  /-- The left-hand side. -/
  terms : Terms α
  /-- The right-hand side. -/
  rhs : α
  /-- The Lagrange multiplier, stored by whoever solves the program. -/
  multiplier : α
  deriving BEq

/-- A conic program with a point. -/
structure Program (α : Type) where
  vars : Array (Variable α)
  cones : Array Cone
  constraints : Array (Constraint α)
  /-- The point: one coordinate for each variable. -/
  point : Array α
  deriving BEq

namespace Program

/-- The causes for which an operation on a program is declined. -/
inductive Error where
  | coneDimension (dim : Nat)
  | duplicateTerm (c : ConstraintId) (v : VarId)
  | missingTerm (c : ConstraintId) (v : VarId)
  | inconsistentVariable (v : VarId)
  | inconsistentCone (k : ConeId)
  | pointDimension (expected found : Nat)
  | matrixFormat (fault : SparseMatrix.FormatFault)
  deriving DecidableEq, Repr

/-- The wording of a cause. -/
def Error.message : Error → String
  | .coneDimension dim => s!"Second-order cone dimension {dim} is smaller than 2"
  | .duplicateTerm c v => s!"Variable {v.label} already appears in constraint {c.label}"
  | .missingTerm c v => s!"Variable {v.label} does not appear in constraint {c.label}"
  | .inconsistentVariable v => s!"Inconsistent membership records for variable {v.label}"
  | .inconsistentCone k => s!"Inconsistent member list for cone {k.label}"
  | .pointDimension expected found =>
    s!"Solution vector has length {found}, expected {expected}"
  | .matrixFormat fault => fault.message

variable {α : Type}

/-- The program without variables and constraints. -/
def empty : Program α := ⟨#[], #[], #[], #[]⟩

/-- A variable, if it exists. -/
def var? (p : Program α) (v : VarId) : Option (Variable α) :=
  p.vars[v.index]?

/-- A cone, if it exists. -/
def cone? (p : Program α) (k : ConeId) : Option Cone :=
  p.cones[k.index]?

/-- A constraint, if it exists. -/
def constraint? (p : Program α) (c : ConstraintId) : Option (Constraint α) :=
  p.constraints[c.index]?

/-- The cone that owns a variable. -/
def coneOf? (p : Program α) (v : VarId) : Option Cone := do
  p.cone? (← p.var? v).cone

/-- All variables, in order. -/
def varIds (p : Program α) : List VarId :=
  (List.range p.vars.size).map VarId.mk

/-- All constraints, in order. -/
def constraintIds (p : Program α) : List ConstraintId :=
  (List.range p.constraints.size).map ConstraintId.mk

/-- The variables that are nonnegative by themselves, in the order of their cones. -/
def nonnegVars (p : Program α) : List VarId :=
  p.cones.toList.filterMap fun
    | .nonneg v => some v
    | .secondOrder _ => none

/-- The kinds of cones that occur, in the order of their first occurrence. -/
def coneKinds (p : Program α) : List Cone.Kind :=
  p.cones.toList.foldl (fun kinds k => if k.kind ∈ kinds then kinds else kinds ++ [k.kind]) []

/-- The number of terms of all constraints. -/
def termCount (p : Program α) : Nat :=
  p.constraints.toList.foldr (fun row count => row.terms.size + count) 0

end Program

end Conic
