import Conic.Sparse.Assembly

/-!
# The format by position

The check of the format and the assembly go through the arrays of a matrix position by position. A
position that does not exist would be out of range, and so would a stretch of an array that ends
before it begins or beyond the array.

* `SparseMatrix.scan` — the check of the format.
* `SparseMatrix.startsInPlace` — the starts of the columns: entries are counted column by column, and
  the counts are added up where they stand.
* `SparseMatrix.assembleInPlace` — the assembly, once there is room for the starts.
-/

namespace Conic.SparseMatrix

/-- Declines for the given fault unless the rule is kept. -/
def require (fault : FormatFault) (kept : Bool) : Checked FormatFault Unit :=
  if kept then .ok () else .error (.refused fault)

/-- The number at a position, which must exist. -/
def numberAt (xs : Array Nat) (i : Nat) : Checked FormatFault Nat :=
  Checked.found xs[i]?

/-- The numbers from position `start` up to position `stop`. -/
def stretch (xs : Array Nat) (start stop : Nat) : Checked FormatFault (List Nat) :=
  if start ≤ stop ∧ stop ≤ xs.size then .ok (xs.extract start stop).toList else .error .outOfRange

variable {α : Type}

/-! ## The check -/

/-- The lengths of the arrays. The last start is read once it is known that there are as many starts
as there have to be. -/
def scanLengths (A : SparseMatrix α) : Checked FormatFault Unit := do
  require .incompatibleLengths (A.rowIndex.size == A.value.size)
  require .incompatibleLengths (A.colStart.size == A.cols + 1)
  let last ← numberAt A.colStart A.cols
  require .incompatibleLengths (last == A.rowIndex.size)

/-- The order of the rows in column `c`. -/
def scanColumn (A : SparseMatrix α) (c : Nat) : Checked FormatFault Unit := do
  let start ← numberAt A.colStart c
  let stop ← numberAt A.colStart (c + 1)
  let rows ← stretch A.rowIndex start stop
  require .unorderedRows (noNeighbours (fun a b => a ≥ b) rows)

/-- Declines a matrix that breaks a rule of the format: the lengths, the column starts, the order of
rows column by column, the range of the rows. -/
def scan (A : SparseMatrix α) : Checked FormatFault Unit := do
  A.scanLengths
  require .decreasingStarts (noNeighbours (fun a b => a > b) A.colStart.toList)
  (List.range A.cols).forM A.scanColumn
  require .rowBeyondMatrix (A.rowIndex.all (· < A.rows))

/-! ## The assembly -/

/-- Counts one entry, one place behind the start of its column. -/
def countEntry (starts : Array Nat) (e : Entry α) : Checked FormatFault (Array Nat) := do
  let count ← numberAt starts (e.col + 1)
  return starts.setIfInBounds (e.col + 1) (count + 1)

/-- Adds the number at position `j` to the one behind it. -/
def carry (starts : Array Nat) (j : Nat) : Checked FormatFault (Array Nat) := do
  let count ← numberAt starts (j + 1)
  let total ← numberAt starts j
  return starts.setIfInBounds (j + 1) (count + total)

/-- Where the columns of the given entries begin, in one array that first holds the counts. -/
def startsInPlace (cols : Nat) (stored : List (Entry α)) : Checked FormatFault (Array Nat) := do
  let counts ← stored.foldlM countEntry (Array.replicate (cols + 1) 0)
  (List.range cols).foldlM carry counts

/-- The matrix of the given size with the given entries. Everything that must hold of it along the
way is checked: positions, the lengths of its arrays, and in the end its format. That one array can
hold the starts is `assemble`'s to decide. -/
def assembleInPlace [Scalar α] (rows cols : Nat) (entries : List (Entry α)) :
    Checked FormatFault (SparseMatrix α) := do
  require .incompatibleLengths (entries.all (Entry.inside rows cols))
  let stored := storedEntries entries
  let starts ← startsInPlace cols stored
  let A ← Checked.found (ofParts? rows cols starts (stored.map (·.row)).toArray
    (stored.map (·.value)).toArray)
  A.scan
  return A

end Conic.SparseMatrix
