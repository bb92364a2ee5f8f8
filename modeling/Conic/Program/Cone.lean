import Conic.Program.Handle

/-!
# Cones

The variables of a program are partitioned into cones. A variable is nonnegative by itself, or it
belongs to a second-order cone, whose first member is at least the Euclidean length of the others.
-/

namespace Conic

/-- A cone with its members. -/
inductive Cone where
  /-- A single variable that is at least zero. -/
  | nonneg (member : VarId)
  /-- The first member, the apex, bounds the length of the others. -/
  | secondOrder (members : List VarId)
  deriving DecidableEq, Repr

namespace Cone

/-- The kinds of cones. -/
inductive Kind where
  | nonneg
  | secondOrder
  deriving DecidableEq, Repr

/-- The name of a kind in messages. -/
def Kind.name : Kind → String
  | .nonneg => "nonnegative orthant"
  | .secondOrder => "second-order"

/-- The kind of a cone. -/
def kind : Cone → Kind
  | .nonneg _ => .nonneg
  | .secondOrder _ => .secondOrder

/-- The members, in order. -/
def members : Cone → List VarId
  | .nonneg v => [v]
  | .secondOrder vs => vs

/-- The number of members. -/
def dim (k : Cone) : Nat :=
  k.members.length

/-- The first member of a second-order cone. -/
def apex? : Cone → Option VarId
  | .nonneg _ => none
  | .secondOrder vs => vs.head?

end Cone

end Conic
