import Conic.Sparse.Basic

/-!
# Assembling a sparse matrix from its entries

Entries come in any order and may repeat a position. They are sorted by column and row, keeping
the given order among entries of one position, and the entries of one position are summed in that
order, starting from zero. A sum that cancels is stored all the same.

* `SparseMatrix.assemble` — the assembled matrix, refused when an entry lies outside; no answer when
  no list is long enough for the starts of the columns.
* `SparseMatrix.ofEntries` — the same for a size that is the size of some data, whose columns are
  never too many.
-/

namespace Conic.SparseMatrix

/-- A value at a position of a matrix. -/
structure Entry (α : Type) where
  row : Nat
  col : Nat
  value : α
  deriving BEq, Repr

variable {α : Type}

/-- The order of storage: by column, then by row. -/
def Entry.storedBefore (a b : Entry α) : Bool :=
  a.col < b.col || (a.col == b.col && a.row ≤ b.row)

/-- The two entries stand at the same position. -/
def Entry.samePosition (a b : Entry α) : Bool :=
  a.row == b.row && a.col == b.col

/-- Does the entry lie inside a matrix of this size? -/
def Entry.inside (rows cols : Nat) (e : Entry α) : Bool :=
  e.row < rows && e.col < cols

/-- One entry for a run of entries at one position, its value their sum. -/
def sumOfRun? [Scalar α] : List (Entry α) → Option (Entry α)
  | [] => none
  | e :: rest => some ⟨e.row, e.col, (e :: rest).foldl (fun sum d => sum + d.value) 0⟩

/-- The stored entries: sorted, one for each position. -/
def storedEntries [Scalar α] (entries : List (Entry α)) : List (Entry α) :=
  ((entries.mergeSort Entry.storedBefore).splitBy Entry.samePosition).filterMap sumOfRun?

/-- How many of the entries stand in each of the first `cols` columns. -/
def columnCounts (cols : Nat) (entries : List (Entry α)) : Array Nat :=
  entries.foldl (fun counts e => counts.modify e.col (· + 1)) (Array.replicate cols 0)

/-- Running totals, beginning with `total`. -/
def runningTotals (total : Nat) : List Nat → List Nat
  | [] => [total]
  | count :: rest => total :: runningTotals (total + count) rest

/-- The matrix of the given size with the given entries. The columns must be few enough for one list
of their starts, as those of data are; `assemble` makes sure of it. -/
def ofEntries [Scalar α] (rows cols : Nat) (entries : List (Entry α)) :
    Checked FormatFault (SparseMatrix α) :=
  if !entries.all (Entry.inside rows cols) then .error (.refused .incompatibleLengths)
  else
    let stored := storedEntries entries
    let starts := runningTotals 0 (columnCounts cols stored).toList
    match ofParts? rows cols starts.toArray (stored.map (·.row)).toArray
        (stored.map (·.value)).toArray with
    | none => .error .outOfRange
    | some A =>
      match A.formatFault? with
      | some fault => .error (.refused fault)
      | none => .ok A

/-- The matrix with the given entries, of any size. Entries outside are looked for first. After that
there is no answer if the list of the column starts, which is one longer than the columns are many,
would be too long. -/
def assemble [Scalar α] (rows cols : Nat) (entries : List (Entry α)) :
    Checked FormatFault (SparseMatrix α) :=
  if entries.all (Entry.inside rows cols) && maxLength ≤ cols then .error .outOfRange
  else ofEntries rows cols entries

end Conic.SparseMatrix
