import Conic.Scalar
import Conic.Fault

/-!
# Sparse matrices by columns

A matrix is held column after column: the rows and values of the stored entries in one array
each, and for every column the position where its entries start, followed by the total.

* `SparseMatrix` — the data, with nothing promised about it.
* `SparseMatrix.formatFault?` — the first rule of the format that the data break.
* `SparseMatrix.ofParts?` — a matrix whose array lengths agree.
-/

namespace Conic

/-- A sparse matrix, stored by columns. -/
structure SparseMatrix (α : Type) where
  /-- The number of rows. -/
  rows : Nat
  /-- The number of columns. -/
  cols : Nat
  /-- Where the entries of each column start; the last number is the count of all entries. -/
  colStart : Array Nat
  /-- The row of each stored entry. -/
  rowIndex : Array Nat
  /-- The value of each stored entry. -/
  value : Array α
  deriving BEq, Repr

namespace SparseMatrix

/-- A rule of the format that the data of a matrix break. -/
inductive FormatFault where
  | incompatibleLengths
  | unorderedRows
  | rowBeyondMatrix
  | decreasingStarts
  deriving DecidableEq, Repr

/-- The wording of a format fault. -/
def FormatFault.message : FormatFault → String
  | .incompatibleLengths => "Matrix dimension fields and/or array lengths are incompatible"
  | .unorderedRows => "Data is not sorted by row index within each column"
  | .rowBeyondMatrix => "Row value exceeds the matrix row dimension"
  | .decreasingStarts => "Bad column pointer values"

variable {α : Type}

/-- The lengths of the arrays fit together and fit the number of columns. -/
def lengthsAgree (A : SparseMatrix α) : Bool :=
  A.rowIndex.size == A.value.size && A.colStart.size == A.cols + 1 &&
    A.colStart[A.cols]? == some A.rowIndex.size

/-- No two neighbours stand in the wrong order. -/
def noNeighbours (wrong : Nat → Nat → Bool) : List Nat → Bool
  | a :: b :: rest => !wrong a b && noNeighbours wrong (b :: rest)
  | _ => true

/-- The rows stored from position `start` up to position `stop`. -/
def rowsBetween (A : SparseMatrix α) (start stop : Nat) : List Nat :=
  (A.rowIndex.extract start stop).toList

/-- Where the entries of column `c` start and stop. -/
def columnBounds? (A : SparseMatrix α) (c : Nat) : Option (Nat × Nat) := do
  let start ← A.colStart[c]?
  let stop ← A.colStart[c + 1]?
  return (start, stop)

/-- Rows increase strictly within column `c`. -/
def columnIncreases (A : SparseMatrix α) (c : Nat) : Bool :=
  match A.columnBounds? c with
  | some (start, stop) => noNeighbours (fun a b => a ≥ b) (A.rowsBetween start stop)
  | none => false

/-- The first rule of the format that is broken: lengths, then the column starts, then the order
of rows within the columns, then the range of the rows. -/
def formatFault? (A : SparseMatrix α) : Option FormatFault :=
  if !A.lengthsAgree then some .incompatibleLengths
  else if !noNeighbours (fun a b => a > b) A.colStart.toList then some .decreasingStarts
  else if !(List.range A.cols).all A.columnIncreases then some .unorderedRows
  else if !A.rowIndex.all (· < A.rows) then some .rowBeyondMatrix
  else none

/-- The matrix with these data, provided that the lengths agree. -/
def ofParts? (rows cols : Nat) (colStart rowIndex : Array Nat) (value : Array α) :
    Option (SparseMatrix α) :=
  let A : SparseMatrix α := ⟨rows, cols, colStart, rowIndex, value⟩
  if A.lengthsAgree then some A else none

/-- The number of stored entries. -/
def entryCount? (A : SparseMatrix α) : Option Nat :=
  A.colStart[A.cols]?

end SparseMatrix

end Conic
