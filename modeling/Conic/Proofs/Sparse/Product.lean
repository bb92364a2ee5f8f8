import Conic.Sparse.Assembly
import Conic.Sparse.Product
import Conic.Proofs.Sparse.Format
import Conic.Proofs.Staging

/-!
# The product, entry by entry

The product of a matrix and a vector scatters the stored entries over the rows, column after column.
A coordinate of the result is what the entries of its row add up to, in the order of storage.

* `SparseMatrix.entries` — the stored entries of a matrix.
* `SparseMatrix.addProduct?_eq` — **the product of a matrix that follows the format goes through its
  entries and has an answer.**
* `SparseMatrix.getElem?_scattered` — **what a coordinate of the result adds up.**
-/

set_option autoImplicit false

namespace Conic.SparseMatrix

variable {α : Type}

/-! ## Stored entries -/

/-- The entry at place `i` of the arrays, which belongs to column `c`. -/
def storedAt? (A : SparseMatrix α) (c i : Nat) : Option (Entry α) := do
  let row ← A.rowIndex[i]?
  let value ← A.value[i]?
  return ⟨row, c, value⟩

/-- The entries of column `c`. -/
def columnEntries (A : SparseMatrix α) (c : Nat) : List (Entry α) :=
  match A.columnBounds? c with
  | some (start, stop) => (List.range' start (stop - start)).filterMap (A.storedAt? c)
  | none => []

/-- The stored entries, column after column. -/
def entries (A : SparseMatrix α) : List (Entry α) :=
  (List.range A.cols).flatMap A.columnEntries

variable {A : SparseMatrix α} {c i : Nat} {e : Entry α}

theorem storedAt?_eq_some_iff : A.storedAt? c i = some e ↔
    A.rowIndex[i]? = some e.row ∧ A.value[i]? = some e.value ∧ e.col = c := by
  obtain ⟨row, col, value⟩ := e
  unfold storedAt?
  cases A.rowIndex[i]? <;> cases A.value[i]? <;> simp [and_comm, eq_comm]

/-! ## Scattering -/

variable [Scalar α] {a xj : α} {x : List α} {y : Array α}

/-- Adds what an entry contributes to the coordinate of its row. -/
def scatter (a : α) (x : List α) (y : Array α) (e : Entry α) : Array α :=
  y.modify e.row (· + a * e.value * x.getD e.col 0)

theorem size_scattered (a : α) (x : List α) (l : List (Entry α)) (y : Array α) :
    (l.foldl (scatter a x) y).size = y.size := by
  induction l generalizing y with
  | nil => rfl
  | cons e l ih => rw [List.foldl_cons, ih, scatter, Array.size_modify]

/-- **A coordinate adds up the entries of its row**, in their order. -/
theorem getElem?_scattered (a : α) (x : List α) (l : List (Entry α)) (y : Array α) (r : Nat) :
    (l.foldl (scatter a x) y)[r]? = y[r]?.map fun old =>
      (l.filter fun e => e.row == r).foldl (fun sum e => sum + a * e.value * x.getD e.col 0)
        old := by
  induction l generalizing y with
  | nil => simp
  | cons e l ih =>
    rw [List.foldl_cons, ih, scatter, Array.getElem?_modify]
    by_cases her : e.row = r
    · simp [her, Function.comp_def]
    · simp [her]

/-- Places of one column, one after the other. -/
theorem addEntries?_eq (hvalue : A.value.size = A.rowIndex.size) (hrow : ∀ r ∈ A.rowIndex, r < y.size)
    (hx : x.getD c 0 = xj) {count : Nat} (hi : i + count ≤ A.rowIndex.size) :
    A.addEntries? a xj count i y =
      some (((List.range' i count).filterMap (A.storedAt? c)).foldl (scatter a x) y) := by
  induction count generalizing i y with
  | zero => rfl
  | succ count ih =>
    have hlt : i < A.rowIndex.size := by omega
    have hlt' : i < A.value.size := by omega
    have hold : A.rowIndex[i] < y.size := hrow _ (Array.getElem_mem hlt)
    have hstored : A.storedAt? c i = some ⟨A.rowIndex[i], c, A.value[i]⟩ :=
      storedAt?_eq_some_iff.mpr
        ⟨Array.getElem?_eq_getElem hlt, Array.getElem?_eq_getElem hlt', rfl⟩
    have hadded : A.addEntry? a xj i y =
        some (scatter a x y ⟨A.rowIndex[i], c, A.value[i]⟩) := by
      unfold addEntry? scatter
      simp only [Array.getElem?_eq_getElem hlt, Array.getElem?_eq_getElem hlt',
        Option.bind_eq_bind, Option.bind_some, Array.getElem?_eq_getElem hold, hx]
      refine congrArg some (Array.ext_getElem? fun j => ?_)
      rw [Array.getElem?_modify, Array.getElem?_setIfInBounds]
      split
      · rename_i hj
        subst hj
        simp [hold]
      · rfl
    have hsize : (scatter a x y ⟨A.rowIndex[i], c, A.value[i]⟩).size = y.size :=
      Array.size_modify
    rw [addEntries?, hadded, Option.bind_some, ih (by rwa [hsize]) (by omega), List.range'_succ,
      List.filterMap_cons, hstored]
    rfl

variable (h : A.Formatted)
include h

theorem Formatted.addColumn?_eq (hc : c < A.cols) (hy : y.size = A.rows) (hx : x.getD c 0 = xj) :
    A.addColumn? a y (xj, c) = some ((A.columnEntries c).foldl (scatter a x) y) := by
  obtain ⟨start, stop, hbounds⟩ := h.exists_columnBounds hc
  obtain ⟨hle, hstop⟩ := h.stop_le hbounds
  have hadded : A.addEntries? a xj (stop - start) start y = _ :=
    addEntries?_eq h.value_size (hy ▸ h.row_lt) hx (by omega)
  simp only [addColumn?, columnEntries, hbounds]
  exact hadded

/-- **The product goes through the stored entries**, and never out of range. -/
theorem Formatted.addProduct?_eq (hx : x.length = A.cols) (b : α) {y : List α}
    (hy : y.length = A.rows) : A.addProduct? a x b y =
      some (if a == 0 then startingPoint b y
        else (A.entries.foldl (scatter a x) (startingPoint b y).toArray).toList) := by
  have hstart : (startingPoint b y).toArray.size = A.rows := by
    unfold startingPoint
    split
    · simpa using hy
    · split
      · simpa using hy
      · simpa using hy
  let stage (pre : List α) : Array α :=
    ((List.range pre.length).flatMap A.columnEntries).foldl (scatter a x)
      (startingPoint b y).toArray
  have hfold : x.zipIdx.foldlM (A.addColumn? a) (stage []) = some (stage x) := by
    refine foldlM_zipIdx_stages stage fun pre xj post hsplit => ?_
    have hcol : pre.length < A.cols := by
      rw [← hx, hsplit]
      simp
    have hxj : x.getD pre.length 0 = xj := by
      rw [hsplit]
      simp
    rw [h.addColumn?_eq hcol (by rw [size_scattered, hstart]) hxj]
    simp [stage, List.range_succ, List.flatMap_append]
  have hall : stage x = A.entries.foldl (scatter a x) (startingPoint b y).toArray := by
    simp only [stage, hx, entries]
  rw [hall] at hfold
  rw [addProduct?, if_pos ⟨hx, hy⟩]
  split
  · rfl
  · exact congrArg (Option.map Array.toList) hfold

end Conic.SparseMatrix
