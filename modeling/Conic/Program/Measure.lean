import Conic.Program.Basic
import Conic.Vector

/-!
# What a point is worth and how far it is from feasible

* `Program.objective?`, `Program.dualObjective` — the two objective values.
* `Program.constraintViolation?` — the largest absolute residual of a constraint.
* `Program.coneViolation?` — the least slack under which every cone holds its coordinates.

There is no answer where a coordinate that is asked for does not exist.
-/

namespace Conic.Program

variable {α : Type} [Scalar α]

/-- The objective `Σ cᵥ·xᵥ` at the point. -/
def objective? (p : Program α) : Option α :=
  Vector.dot? (p.vars.toList.map (·.cost)) p.point.toList

/-- The dual objective `Σ bᵢ·yᵢ` at the Lagrange multipliers. -/
def dualObjective (p : Program α) : α :=
  p.constraints.toList.foldl (fun sum row => sum + row.rhs * row.multiplier) 0

/-- The coordinate of the point at a variable. -/
def coordinate? (p : Program α) (v : VarId) : Option α :=
  p.point[v.index]?

/-- The residual `Σ aᵢᵥ·xᵥ − bᵢ` of a constraint. -/
def residual? (p : Program α) (row : Constraint α) : Option α :=
  row.terms.toList.foldlM (fun sum t => (p.coordinate? t.1).map fun x => sum + t.2 * x) (-row.rhs)

/-- The largest absolute residual; zero without constraints. -/
def constraintViolation? (p : Program α) : Option α :=
  (p.constraints.toList.mapM p.residual?).map Vector.maxAbs

/-- By how much the coordinates of a cone miss it; a cone without coordinates has no answer. -/
def coneShortfall? {β : Type} [RootScalar β] (kind : Cone.Kind) : List β → Option β
  | [] => none
  | first :: others => some <| larger 0 <| match kind with
    | .nonneg => -first
    | .secondOrder => RootScalar.sqrt (Vector.squaredLength others) - first

/-- The least number by which all cones have to be widened to hold their coordinates. -/
def coneViolation? {β : Type} [RootScalar β] (p : Program β) : Option β := do
  let shortfalls ← p.cones.toList.mapM fun cone => do
    coneShortfall? cone.kind (← cone.members.mapM p.coordinate?)
  return shortfalls.foldl larger 0

end Conic.Program
