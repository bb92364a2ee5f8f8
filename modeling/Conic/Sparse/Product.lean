import Conic.Sparse.Basic
import Conic.Vector

/-!
# The product of a sparse matrix and a vector

`addProduct? A a x b y` is `a·A·x + b·y`. Two cases are cut short: a factor `b` of zero forgets
`y` whatever it holds, and a factor `a` of zero never looks at `A` or `x`.
-/

namespace Conic.SparseMatrix

variable {α : Type} [Scalar α]

/-- `b·y`, where zero clears and one keeps. -/
def startingPoint (b : α) (y : List α) : List α :=
  if b == 0 then y.map fun _ => 0
  else if b == 1 then y
  else Vector.scaled b y

/-- Adds `a` times the entry stored at position `i`, times `xj`, to the coordinate of its row. -/
def addEntry? (A : SparseMatrix α) (a xj : α) (i : Nat) (y : Array α) : Option (Array α) := do
  let row ← A.rowIndex[i]?
  let value ← A.value[i]?
  let old ← y[row]?
  return y.setIfInBounds row (old + a * value * xj)

/-- Adds `count` stored entries, from position `i` on. -/
def addEntries? (A : SparseMatrix α) (a xj : α) : Nat → Nat → Array α → Option (Array α)
  | 0, _, y => some y
  | count + 1, i, y => (A.addEntry? a xj i y).bind (A.addEntries? a xj count (i + 1))

/-- Adds the part of the product that column `j` contributes. -/
def addColumn? (A : SparseMatrix α) (a : α) (y : Array α) (column : α × Nat) :
    Option (Array α) := do
  let (start, stop) ← A.columnBounds? column.2
  A.addEntries? a column.1 (stop - start) start y

/-- `a·A·x + b·y`, without an answer when the lengths of `x` and `y` do not fit the matrix or the
data of the matrix lead out of range. -/
def addProduct? (A : SparseMatrix α) (a : α) (x : List α) (b : α) (y : List α) : Option (List α) :=
  if x.length = A.cols ∧ y.length = A.rows then
    let y := startingPoint b y
    if a == 0 then some y
    else (x.zipIdx.foldlM (A.addColumn? a) y.toArray).map Array.toList
  else none

end Conic.SparseMatrix
