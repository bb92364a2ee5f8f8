import Conic.Dual.Basic
import Conic.Dual.Slack
import Conic.Traced

/-!
# Deriving the dual

For a primal `min c·x  s.t.  A·x = b, x ≥ 0` the dual minimises `Σ bᵢ·yᵢ` subject to one constraint
`Σ aᵢᵥ·yᵢ − wᵥ = −cᵥ` with `wᵥ ≥ 0` for each variable that is no chosen slack.

1. `addMultiplier` gives every constraint its multiplier: nonnegative when the constraint has a
   slack, otherwise the apex of a second-order cone of two.
2. `addReducedCost` gives every other nonnegative variable its dual constraint and its `wᵥ`.
3. `transposeRow` enters the coefficients of the primal.
4. `normalizeSlack` divides a multiplier by the coefficient of its slack, unless that is one.

`Program.dual` runs the four steps. Each reports what it decides as a `Dual.Note`.
-/

namespace Conic

namespace Dual

/-- What the construction reports. -/
inductive Note (α : Type) where
  | slackChosen (c : ConstraintId) (slack multiplier : VarId)
  | noSlack (c : ConstraintId) (cone : ConeId)
  | zeroCoefficient (slack : VarId)
  | rescaled (slack multiplier : VarId) (coefficient : α)
  deriving Repr

/-- A step of the construction. -/
abbrev Step (α β : Type) : Type := Traced (Note α) (Fault Program.Error) β

variable {α : Type} [Scalar α]

/-- The empty dual of a primal. -/
def blank (primal : Program α) : Dual α :=
  { program := .empty
    reducedCostRows := Array.replicate primal.vars.size none
    slackMultipliers := Array.replicate primal.vars.size none
    signedMultipliers := Array.replicate primal.constraints.size none
    freeMultipliers := Array.replicate primal.constraints.size none
    rescaled := 0 }

/-- A look-up that must succeed. -/
def found {β : Type} (b : Option β) : Step α β :=
  .quiet (Checked.found b)

/-- The first member of a cone. -/
def firstMember (program : Program α) (k : ConeId) : Checked Program.Error VarId := do
  let cone ← Checked.found (program.cone? k)
  Checked.found cone.members.head?

/-- The apex of a cone that must be a second-order cone. -/
def apex (program : Program α) (k : ConeId) : Checked Program.Error VarId := do
  let cone ← Checked.found (program.cone? k)
  match cone.apex? with
  | some v => .ok v
  | none => .error (.refused (.inconsistentCone k))

/-- A nonnegative multiplier for the constraint `c` with the given slack. -/
def addSignedMultiplier (d : Dual α) (c : ConstraintId) (slack : VarId) (rhs : α) :
    Step α (Dual α) := do
  let (program, cone) := d.program.addNonnegCone
  let y ← Traced.quiet (firstMember program cone)
  let program ← found (program.setCost? y rhs)
  Traced.report (.slackChosen c slack y)
  return { d with
    program
    slackMultipliers := d.slackMultipliers.setIfInBounds slack.index (some y)
    signedMultipliers := d.signedMultipliers.setIfInBounds c.index (some y) }

/-- A free multiplier for the constraint `c`. -/
def addFreeMultiplier (d : Dual α) (c : ConstraintId) (rhs : α) : Step α (Dual α) := do
  let (program, cone) ← Traced.quiet (d.program.addSecondOrderCone 2)
  let y ← Traced.quiet (apex program cone)
  let program ← found (program.setCost? y rhs)
  Traced.report (.noSlack c cone)
  return { d with
    program
    freeMultipliers := d.freeMultipliers.setIfInBounds c.index (some ⟨cone, y⟩) }

/-- The multiplier of one constraint. -/
def addMultiplier (primal : Program α) (choice : SlackChoice) (d : Dual α) (c : ConstraintId) :
    Step α (Dual α) := do
  let row ← found (primal.constraint? c)
  match ← found (primal.slack? choice row) with
  | some slack => d.addSignedMultiplier c slack row.rhs
  | none => d.addFreeMultiplier c row.rhs

/-- The reduced-cost constraint of one nonnegative variable, unless it is a chosen slack. -/
def addReducedCost (primal : Program α) (d : Dual α) (v : VarId) : Step α (Dual α) := do
  match ← found d.slackMultipliers[v.index]? with
  | some _ => return d
  | none =>
    let x ← found (primal.var? v)
    let (program, row) := d.program.addConstraint
    let program ← found (program.setRhs? row (-x.cost))
    let (program, cone) := program.addNonnegCone
    let w ← Traced.quiet (firstMember program cone)
    let program ← Traced.quiet (program.addTerm row w (-1))
    let program ← found (program.setCost? w 0)
    return { d with
      program
      reducedCostRows := d.reducedCostRows.setIfInBounds v.index (some row) }

/-- The coefficient of one term, entered in the dual constraint of its variable if it has one. -/
def transposeTerm (y : VarId) (d : Dual α) (term : VarId × α) : Step α (Dual α) := do
  match ← found d.reducedCostRows[term.1.index]? with
  | none => return d
  | some row =>
    let program ← Traced.quiet (d.program.addTerm row y term.2)
    return { d with program }

/-- The coefficients of one primal constraint. -/
def transposeRow (primal : Program α) (d : Dual α) (c : ConstraintId) : Step α (Dual α) := do
  let row ← found (primal.constraint? c)
  let y ← found (d.multiplier? c)
  row.terms.toList.foldlM (transposeTerm y) d

/-- The coefficient of a slack in its constraint. -/
def slackCoefficient (primal : Program α) (slack : VarId) : Checked Program.Error α :=
  match primal.var? slack with
  | none => .error .outOfRange
  | some x =>
    match x.constraints.head? with
    | none => .error (.refused (.inconsistentVariable slack))
    | some c =>
      match primal.constraint? c with
      | none => .error .outOfRange
      | some row =>
        match row.terms.coefficient? slack with
        | none => .error (.refused (.inconsistentVariable slack))
        | some k => .ok k

/-- Divides the coefficient of `y` in one constraint by `k`; its term moves to the end. -/
def rescaleTerm (y : VarId) (k : α) (program : Program α) (row : ConstraintId) :
    Checked Program.Error (Program α) := do
  let (program, a) ← program.removeTerm row y
  program.addTerm row y (a / k)

/-- Divides the objective coefficient of `y` and all its coefficients by `k`. -/
def rescale (program : Program α) (y : VarId) (k : α) : Checked Program.Error (Program α) := do
  let x ← Checked.found (program.var? y)
  let program ← Checked.found (program.setCost? y (x.cost / k))
  x.constraints.foldlM (rescaleTerm y k) program

/-- Is the coefficient close enough to one to be left as it is? -/
def countsAsUnit (tolerance k : α) : Bool :=
  Scalar.abs (k - 1) ≤ tolerance

/-- Divides the multiplier of a chosen slack by the coefficient of the slack, unless that counts as
one. -/
def normalizeSlack (primal : Program α) (tolerance : α) (d : Dual α)
    (entry : Option VarId × Nat) : Step α (Dual α) := do
  match entry with
  | (none, _) => return d
  | (some y, i) =>
    let slack : VarId := ⟨i⟩
    let k ← Traced.quiet (slackCoefficient primal slack)
    if countsAsUnit tolerance k then return d
    else
      if k == 0 then Traced.report (.zeroCoefficient slack)
      let program ← Traced.quiet (rescale d.program y k)
      Traced.report (.rescaled slack y k)
      return { d with program, rescaled := d.rescaled + 1 }

end Dual

/-- The dual of a program, with the tables that relate the two. -/
def Program.dual {α : Type} [Scalar α] (primal : Program α) (settings : Settings α) :
    Dual.Step α (Dual α) := do
  let d ← primal.constraintIds.foldlM (Dual.addMultiplier primal settings.slackChoice)
    (Dual.blank primal)
  let d ← primal.nonnegVars.foldlM (Dual.addReducedCost primal) d
  let d ← primal.constraintIds.foldlM (Dual.transposeRow primal) d
  d.slackMultipliers.toList.zipIdx.foldlM (Dual.normalizeSlack primal settings.unitTolerance) d

end Conic
