import Conic.Program.Edit
import Conic.Sparse.Assembly
import Conic.Sparse.Product

/-!
# Standard form

The standard form of a program is the data of

    minimize q·x  subject to  A·x + s = b,  s in a product of cones,

where the first rows are the program's constraints, whose slack is zero, and each further row
repeats one coordinate of the point, negated, in the order of the cones' members. Neighbouring
nonnegative variables share one block.

* `Program.standardForm` — the export.
* `StandardForm.residual?` — `b − A·x`.
* `StandardForm.apply` — stores a solution of the standard form in a program.
-/

namespace Conic

/-- A block of rows whose slacks lie in one cone. -/
inductive Block where
  | zero (dim : Nat)
  | nonneg (dim : Nat)
  | secondOrder (dim : Nat)
  deriving DecidableEq, Repr

/-- The number of rows of a block. -/
def Block.dim : Block → Nat
  | .zero n => n
  | .nonneg n => n
  | .secondOrder n => n

/-- A program as matrix, vectors and blocks. -/
structure StandardForm (α : Type) where
  /-- The objective coefficients, in the order of the variables. -/
  cost : List α
  matrix : SparseMatrix α
  rhs : List α
  blocks : List Block
  /-- The variable that each row after the equalities stands for. -/
  coneRows : List VarId
  /-- The number of equality rows, which come first. -/
  equalities : Nat
  deriving BEq

namespace Program

variable {α : Type} [Scalar α]

/-- The entries of the equality row of one constraint. -/
def rowEntries (row : Constraint α) (i : Nat) : List (SparseMatrix.Entry α) :=
  row.terms.toList.map fun t => ⟨i, t.1.index, t.2⟩

/-- The members of all cones, in the order of the cones. -/
def coneMembers (p : Program α) : List VarId :=
  p.cones.toList.flatMap Cone.members

/-- The entries of the matrix: the terms of the constraints, then −1 for every cone member. -/
def matrixEntries (p : Program α) : List (SparseMatrix.Entry α) :=
  (p.constraints.toList.zipIdx.flatMap fun (row, i) => rowEntries row i) ++
    p.coneMembers.zipIdx.map fun (v, i) => ⟨p.constraints.size + i, v.index, -1⟩

/-- The blocks so far, in reverse, with the rows of one more cone. -/
def addBlock (blocks : List Block) (cone : Cone) : List Block :=
  match cone, blocks with
  | .nonneg _, .nonneg n :: rest => .nonneg (n + 1) :: rest
  | .nonneg _, _ => .nonneg 1 :: blocks
  | .secondOrder vs, _ => .secondOrder vs.length :: blocks

/-- The blocks: the equalities, if there are any, and then the cones. -/
def blocks (p : Program α) : List Block :=
  let equalities := if p.constraints.size > 0 then [Block.zero p.constraints.size] else []
  (p.cones.toList.foldl addBlock equalities).reverse

/-- The standard form, refused when a term or a cone names a variable that does not exist. -/
def standardForm (p : Program α) : Checked Error (StandardForm α) := do
  let n := p.vars.size
  let m := p.constraints.size
  let A ← (SparseMatrix.ofEntries (m + n) n p.matrixEntries).mapError (Fault.map .matrixFormat)
  return {
    cost := p.vars.toList.map (·.cost)
    matrix := A
    rhs := p.constraints.toList.map (·.rhs) ++ List.replicate n 0
    blocks := p.blocks
    coneRows := p.coneMembers
    equalities := m }

end Program

namespace StandardForm

variable {α : Type} [Scalar α]

/-- The slacks `b − A·x`. -/
def residual? (f : StandardForm α) (x : List α) : Option (List α) :=
  f.matrix.addProduct? (-1) x 1 f.rhs

/-- The lengths that a solution and a program must have: the first that is wrong. -/
def mismatch? (f : StandardForm α) (p : Program α) (x z : List α) : Option Program.Error :=
  if x.length ≠ f.cost.length ∨ p.vars.size ≠ f.cost.length then
    some (.pointDimension f.cost.length x.length)
  else if z.length ≠ f.rhs.length ∨ p.constraints.size ≠ f.equalities then
    some (.pointDimension f.rhs.length z.length)
  else none

/-- The program with its multipliers set to the negated entries of `z`. -/
def setMultipliers? (p : Program α) (z : List α) : Option (Program α) :=
  z.zipIdx.foldlM (fun p (zi, i) => p.setMultiplier? ⟨i⟩ (-zi)) p

/-- The program with the dual values of some variables set. -/
def setReducedCosts? (p : Program α) (values : List (VarId × α)) : Option (Program α) :=
  values.foldlM (fun p t => p.setReducedCost? t.1 t.2) p

/-- Stores a solution: `x` becomes the point, the equality rows of `z`, negated, the multipliers,
and the other rows of `z` the dual values of the variables that they stand for. -/
def apply (f : StandardForm α) (p : Program α) (x z : List α) : Checked Program.Error (Program α) :=
  match f.mismatch? p x z with
  | some error => .error (.refused error)
  | none =>
    if p.point.size ≠ x.length then .error .outOfRange
    else Checked.found do
      let p ← setMultipliers? { p with point := x.toArray } (z.take f.equalities)
      setReducedCosts? p (f.coneRows.zip (z.drop f.equalities))

end StandardForm

end Conic
