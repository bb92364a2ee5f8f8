import Conic.Program.Edit

/-!
# Operations in place

A program is changed in place, write after write, and nothing takes back what was written before an
operation is declined.

* `Program.InPlace`, `InPlace.perform` — the operations, each with its writes in their order.
* `Program.step` — one operation, and the cause if it was declined.
* `Program.construct` — a program made from nothing by operations one after the other.
-/

namespace Conic.Program

/-- A computation that changes a program in place. What it has written stays when it fails. -/
abbrev InPlace (α β : Type) : Type := EStateM (Fault Error) (Program α) β

namespace InPlace

variable {α : Type}

/-- A look-up that must succeed. -/
def find {β : Type} (read : Program α → Option β) : InPlace α β := do
  match read (← get) with
  | some b => return b
  | none => throw .outOfRange

/-- Writes to a variable, which must exist. -/
def writeVariable (v : VarId) (f : Variable α → Variable α) : InPlace α Unit := do
  let _ ← find (·.var? v)
  modify (·.modifyVariable v f)

/-- Writes to a constraint, which must exist. -/
def writeConstraint (c : ConstraintId) (f : Constraint α → Constraint α) : InPlace α Unit := do
  let _ ← find (·.constraint? c)
  modify (·.modifyConstraint c f)

/-- A fresh variable of cone `k`, then its coordinate. -/
def pushVariable [Zero α] (k : ConeId) : InPlace α VarId := do
  let v := (← get).nextVar
  modify fun p => { p with vars := p.vars.push ⟨k, 0, 0, []⟩ }
  modify fun p => { p with point := p.point.push 0 }
  return v

/-- `n` fresh variables of cone `k`, one after the other. -/
def pushVariables [Zero α] (k : ConeId) (n : Nat) : InPlace α (List VarId) :=
  (List.replicate n k).mapM pushVariable

/-- A fresh variable, then its cone. -/
def addNonnegCone [Zero α] : InPlace α Unit := do
  let v ← pushVariable (← get).nextCone
  modify fun p => { p with cones := p.cones.push (.nonneg v) }

/-- `n` fresh variables, then their cone. -/
def addSecondOrderCone [Zero α] (n : Nat) : InPlace α Unit :=
  if n < 2 then throw (.refused (.coneDimension n))
  else if maxLength < n then throw .outOfRange
  else do
    let members ← pushVariables (← get).nextCone n
    modify fun p => { p with cones := p.cones.push (.secondOrder members) }

/-- The term in its constraint, then the constraint in the membership list of the variable. -/
def addTerm (c : ConstraintId) (v : VarId) (a : α) : InPlace α Unit := do
  let row ← find (·.constraint? c)
  if row.terms.contains v then throw (.refused (.duplicateTerm c v))
  else
    writeConstraint c fun row => { row with terms := row.terms.put v a }
    writeVariable v fun x => { x with constraints := x.constraints ++ [c] }

/-- The term out of its constraint, then the constraint out of the membership list. -/
def removeTerm (c : ConstraintId) (v : VarId) : InPlace α α := do
  let row ← find (·.constraint? c)
  match row.terms.coefficient? v with
  | none => throw (.refused (.missingTerm c v))
  | some a =>
    writeConstraint c fun row => { row with terms := row.terms.erase v }
    writeVariable v fun x => { x with constraints := x.constraints.filter (· ≠ c) }
    return a

/-- Writes a coordinate of the point, which must exist. -/
def setCoordinate (v : VarId) (a : α) : InPlace α Unit := do
  let _ ← find fun p => p.point[v.index]?
  modify fun p => { p with point := p.point.setIfInBounds v.index a }

/-- One operation. -/
def perform [Zero α] : Edit α → InPlace α Unit
  | .addNonnegCone => addNonnegCone
  | .addSecondOrderCone dim => addSecondOrderCone dim
  | .addConstraint => modify fun p => { p with constraints := p.constraints.push ⟨.empty, 0, 0⟩ }
  | .addTerm c v a => addTerm c v a
  | .removeTerm c v => do
    let _ ← removeTerm c v
    return
  | .setCost v a => writeVariable v fun x => { x with cost := a }
  | .setReducedCost v a => writeVariable v fun x => { x with reducedCost := a }
  | .setRhs c a => writeConstraint c fun row => { row with rhs := a }
  | .setMultiplier c a => writeConstraint c fun row => { row with multiplier := a }
  | .setCoordinate v a => setCoordinate v a

/-- What a computation leaves of a program, and the cause if it was declined. Nothing is left when
it was out of range. -/
def outcome {β : Type} (m : InPlace α β) (p : Program α) : Option (Program α × Option Error) :=
  match m.run p with
  | .ok _ q => some (q, none)
  | .error (.refused cause) q => some (q, some cause)
  | .error .outOfRange _ => none

end InPlace

variable {α : Type} [Zero α]

/-- One operation, and the cause if it was declined. -/
def step (p : Program α) (edit : Edit α) : Option (Program α × Option Error) :=
  (InPlace.perform edit).outcome p

/-- The program that several operations make of the empty one. Those that are declined are passed
over. -/
def construct (edits : List (Edit α)) : Option (Program α) :=
  edits.foldlM (fun p edit => (p.step edit).map Prod.fst) .empty

end Conic.Program
