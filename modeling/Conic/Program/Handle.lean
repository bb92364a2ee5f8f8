/-!
# Handles

Variables, cones and constraints are referred to by their positions in the program that created
them. A handle does not know its program; whether it exists there is checked at each use.
-/

namespace Conic

/-- A variable of a program. -/
structure VarId where
  index : Nat
  deriving DecidableEq, Repr

/-- A cone of a program. -/
structure ConeId where
  index : Nat
  deriving DecidableEq, Repr

/-- A constraint of a program. -/
structure ConstraintId where
  index : Nat
  deriving DecidableEq, Repr

/-- How a variable is named in messages. -/
def VarId.label (v : VarId) : String := s!"v{v.index}"

/-- How a cone is named in messages. -/
def ConeId.label (k : ConeId) : String := s!"k{k.index}"

/-- How a constraint is named in messages. -/
def ConstraintId.label (c : ConstraintId) : String := s!"c{c.index}"

end Conic
