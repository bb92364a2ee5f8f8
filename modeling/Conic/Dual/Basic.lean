import Conic.Program.Edit

/-!
# A dual program and its relation to the primal

* `Dual` — the dual program with the tables that relate it to the primal it was derived from, each
  indexed by the handles of the primal.
* `Dual.constraintOf?`, `Dual.slackVarOf?`, `Dual.signedMultiplier?`, `Dual.freeMultiplier?`,
  `Dual.multiplier?` — look-up; a handle that does not exist has no entry.
* `Dual.writeBack?` — the solved quantities of the dual as the point of the primal.
-/

namespace Conic

/-- The multiplier of a constraint without slack: the apex of a second-order cone of two. -/
structure FreeMultiplier where
  cone : ConeId
  apex : VarId
  deriving DecidableEq, Repr

/-- A dual program with the tables that relate it to its primal. -/
structure Dual (α : Type) where
  program : Program α
  /-- For each primal variable that is nonnegative and no chosen slack, its reduced-cost
  constraint. -/
  reducedCostRows : Array (Option ConstraintId)
  /-- For each chosen slack, the multiplier of its constraint. -/
  slackMultipliers : Array (Option VarId)
  /-- For each primal constraint with a slack, its nonnegative multiplier. -/
  signedMultipliers : Array (Option VarId)
  /-- For each primal constraint without a slack, its free multiplier. -/
  freeMultipliers : Array (Option FreeMultiplier)
  /-- The number of multipliers that were rescaled. -/
  rescaled : Nat
  deriving BEq

namespace Dual

variable {α : Type}

/-- The dual constraint of a primal variable that is no chosen slack. -/
def constraintOf? (d : Dual α) (v : VarId) : Option ConstraintId :=
  d.reducedCostRows[v.index]?.join

/-- The dual variable of a chosen slack. -/
def slackVarOf? (d : Dual α) (v : VarId) : Option VarId :=
  d.slackMultipliers[v.index]?.join

/-- The nonnegative multiplier of a primal constraint with a slack. -/
def signedMultiplier? (d : Dual α) (c : ConstraintId) : Option VarId :=
  d.signedMultipliers[c.index]?.join

/-- The free multiplier of a primal constraint without a slack. -/
def freeMultiplier? (d : Dual α) (c : ConstraintId) : Option FreeMultiplier :=
  d.freeMultipliers[c.index]?.join

/-- The multiplier of a primal constraint, of either kind. -/
def multiplier? (d : Dual α) (c : ConstraintId) : Option VarId :=
  d.signedMultiplier? c <|> (d.freeMultiplier? c).map (·.apex)

/-- The number of constraints with a slack. -/
def signedCount (d : Dual α) : Nat :=
  d.signedMultipliers.toList.countP Option.isSome

/-- The number of constraints without a slack. -/
def freeCount (d : Dual α) : Nat :=
  d.freeMultipliers.toList.countP Option.isSome

/-- Sets the coordinates of `primal` at the variables with an entry in a table to the quantity that
belongs to the entry. -/
def writeColumn? {ι : Type} (quantity : ι → Option α) (table : Array (Option ι))
    (primal : Program α) : Option (Program α) :=
  table.toList.zipIdx.foldlM (fun p (entry, i) =>
    match entry with
    | none => some p
    | some e => (quantity e).bind (p.setCoordinate? ⟨i⟩)) primal

/-- The primal with the solved quantities of the dual as its point: the multiplier of its dual
constraint for a variable that is no slack, the dual value of its multiplier for a slack. Other
coordinates stay. -/
def writeBack? (d : Dual α) (primal : Program α) : Option (Program α) := do
  let multiplierOf (c : ConstraintId) := (d.program.constraint? c).map (·.multiplier)
  let reducedCostOf (v : VarId) := (d.program.var? v).map (·.reducedCost)
  let primal ← writeColumn? multiplierOf d.reducedCostRows primal
  writeColumn? reducedCostOf d.slackMultipliers primal

end Dual

end Conic
