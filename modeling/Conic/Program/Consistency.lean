import Conic.Program.Basic

/-!
# Consistency

The records of a program can contradict each other when the program was read from a text: who owns
a variable, which constraints it occurs in, how long the point is. `Program.inconsistency?` names
the first contradiction, in a fixed order, and looks at nothing that does not exist.
-/

namespace Conic.Program

variable {α : Type}

/-- The point has one coordinate for each variable. -/
def pointFault? (p : Program α) : Option Error :=
  if p.point.size = p.vars.size then none
  else some (.pointDimension p.vars.size p.point.size)

/-- Variable `v` exists and says that cone `k` owns it. -/
def ownedBy (p : Program α) (k : ConeId) (v : VarId) : Bool :=
  (p.var? v).any fun x => x.cone = k

/-- A second-order cone has two members or more, and each member of a cone is owned by it. -/
def coneFault? (p : Program α) (k : ConeId) (cone : Cone) : Option Error :=
  if cone.kind = .secondOrder ∧ cone.dim < 2 then some (.coneDimension cone.dim)
  else if cone.members.all (p.ownedBy k) then none
  else some (.inconsistentCone k)

/-- The variables of all terms exist. -/
def termFault? (p : Program α) (row : Constraint α) : Option Error :=
  (row.terms.vars.find? fun v => (p.var? v).isNone).map .inconsistentVariable

/-- The constraint exists and has a term on `v`. -/
def occursIn (p : Program α) (v : VarId) (c : ConstraintId) : Bool :=
  (p.constraint? c).any fun row => row.terms.contains v

/-- The number of constraints with a term on `v`. -/
def occurrences (p : Program α) (v : VarId) : Nat :=
  p.constraints.toList.countP fun row => row.terms.contains v

/-- The cone of a variable lists it, and its membership list names every constraint with a term on
it, each once, and no other. -/
def variableFault? (p : Program α) (v : VarId) (x : Variable α) : Option Error :=
  let listed := (p.cone? x.cone).any fun cone => cone.members.contains v
  let recorded := x.constraints.Nodup ∧ x.constraints.length = p.occurrences v ∧
    x.constraints.all (p.occursIn v)
  if listed ∧ recorded then none else some (.inconsistentVariable v)

/-- The first contradiction among the records: the length of the point, then the cones, then the
terms, then the variables. -/
def inconsistency? (p : Program α) : Option Error :=
  p.pointFault?
    <|> p.cones.toList.zipIdx.findSome? (fun (cone, k) => p.coneFault? ⟨k⟩ cone)
    <|> p.constraints.toList.findSome? p.termFault?
    <|> p.vars.toList.zipIdx.findSome? (fun (x, i) => p.variableFault? ⟨i⟩ x)

/-- Nothing in the records of the program contradicts anything else. -/
def consistent (p : Program α) : Bool :=
  p.inconsistency?.isNone

end Conic.Program
