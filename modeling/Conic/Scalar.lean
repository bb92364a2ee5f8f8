/-!
# Number types

The programs, matrices and duals of this library are stated over any number type with the
field operations, comparisons that can be decided, and an absolute value.

* `Scalar` — the operations; `Float` runs, `Rat` is exact.
* `RootScalar` — a number type with square roots, needed by Euclidean lengths only.
* `larger` — the maximum that passes over undefined numbers.

Every definition keeps the order of its additions and multiplications, so that over `Float`
its answer is determined to the last bit.
-/

namespace Conic

/-- Numbers: arithmetic, decidable comparison, absolute value, and the two tests that only
floating-point numbers can fail. -/
class Scalar (α : Type) extends Zero α, One α, Add α, Sub α, Mul α, Div α, Neg α, BEq α, LT α,
    LE α where
  decidableLT : DecidableLT α
  decidableLE : DecidableLE α
  /-- The absolute value. -/
  abs : α → α
  /-- Is this the undefined number? -/
  isNaN : α → Bool
  /-- Is this an actual number, neither undefined nor infinite? -/
  isFinite : α → Bool

instance Scalar.instDecidableLT {α : Type} [Scalar α] : DecidableLT α := Scalar.decidableLT

instance Scalar.instDecidableLE {α : Type} [Scalar α] : DecidableLE α := Scalar.decidableLE

/-- Numbers with a square root. -/
class RootScalar (α : Type) extends Scalar α where
  /-- The square root of a nonnegative number. -/
  sqrt : α → α

instance RootScalar.instFloat : RootScalar Float where
  zero := 0.0
  one := 1.0
  decidableLT := Float.decLt
  decidableLE := Float.decLe
  abs := Float.abs
  isNaN := Float.isNaN
  isFinite := Float.isFinite
  sqrt := Float.sqrt

instance Scalar.instRat : Scalar Rat where
  toZero := Zero.ofOfNat0
  toOne := One.ofOfNat1
  decidableLT := Rat.instDecidableLt
  decidableLE := Rat.instDecidableLe
  abs := Rat.abs
  isNaN _ := false
  isFinite _ := true

/-- The larger of two numbers. An undefined number gives way to the other one, and of two
equal numbers the first is kept. -/
def larger {α : Type} [Scalar α] (a b : α) : α :=
  if Scalar.isNaN a || decide (a < b) then b else a

end Conic
