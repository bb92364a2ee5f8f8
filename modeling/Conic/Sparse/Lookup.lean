import Conic.Sparse.Basic

/-!
# Looking up an entry

The rows of a column are searched by halving, so the answer is meaningful when they increase
strictly. On other data the search still has a definite answer, and it fails only where it would
have to read past the stored arrays.

* `SparseMatrix.entry?` — the value at a position, zero where nothing is stored.
-/

namespace Conic.SparseMatrix

variable {α : Type}

/-- Halves the window of `size` positions that begins at `base` until one position is left,
keeping the upper half exactly when its first number is at most `x`. -/
def narrow (x : Nat) (rows : Array Nat) (base size : Nat) : Nat :=
  if size ≤ 1 then base
  else
    let half := size / 2
    let above := rows[base + half]?.any (x < ·)
    narrow x rows (if above then base else base + half) (size - half)
termination_by size

/-- The position of `x` among increasing numbers. -/
def position? (x : Nat) (rows : Array Nat) : Option Nat :=
  let last := narrow x rows 0 rows.size
  if rows[last]? = some x then some last else none

/-- The value at (`row`, `col`): `some none` outside the matrix, and no answer when the column
starts or the arrays are too short or out of order. -/
def entry? [Scalar α] (A : SparseMatrix α) (row col : Nat) : Option (Option α) :=
  if row ≥ A.rows || col ≥ A.cols then some none
  else do
    let (start, stop) ← A.columnBounds? col
    if start > stop || stop > A.rowIndex.size then failure
    match position? row (A.rowIndex.extract start stop) with
    | some offset => return some (← A.value[start + offset]?)
    | none => return some 0

end Conic.SparseMatrix
