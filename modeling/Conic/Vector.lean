import Conic.Scalar

/-!
# Vectors

Vectors are lists of numbers. Operations on two vectors have an answer only when the lengths
agree. Sums run from the left and start from zero.

* `scaled`, `dot?`, `distance?`, `maxAbs`, `squaredLength`
-/

namespace Conic.Vector

variable {α : Type} [Scalar α]

/-- Every coordinate times `c`. -/
def scaled (c : α) (x : List α) : List α :=
  x.map (· * c)

/-- The inner product. -/
def dot? (x y : List α) : Option α :=
  if x.length = y.length then some ((x.zip y).foldl (fun sum p => sum + p.1 * p.2) 0) else none

/-- The sum of the squared coordinates. -/
def squaredLength (x : List α) : α :=
  x.foldl (fun sum v => sum + v * v) 0

/-- The largest absolute value of a coordinate; undefined as soon as one coordinate is. -/
def maxAbs (x : List α) : α :=
  match x.find? Scalar.isNaN with
  | some undefinedNumber => undefinedNumber
  | none => x.foldl (fun top v => if top < Scalar.abs v then Scalar.abs v else top) 0

/-- The Euclidean distance. -/
def distance? {β : Type} [RootScalar β] (x y : List β) : Option β :=
  if x.length = y.length then
    some (RootScalar.sqrt (squaredLength ((x.zip y).map fun p => p.1 - p.2)))
  else none

@[simp] theorem length_scaled (c : α) (x : List α) : (scaled c x).length = x.length := by
  simp [scaled]

end Conic.Vector
