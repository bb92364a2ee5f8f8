import Mathlib.Algebra.BigOperators.Intervals
import Mathlib.Algebra.Order.Ring.Rat
import Mathlib.Tactic.Ring
import Conic.Proofs.Sparse.Relisting

/-!
# Look-ups and the dense product

A look-up in a matrix of the accepted format finds the one value that is stored for a position. Over
the rationals the product of the matrix and a vector, which scatters the columns over the result, is
the product that these look-ups define row by row.

* `SparseMatrix.at` — the number at a position of a matrix.
* `SparseMatrix.Finds`, `SparseMatrix.Formatted.finds` — **what a look-up finds.**
* `SparseMatrix.Formatted.sum_row` — the entries of a row, summed over the columns.
* `SparseMatrix.startingPoint_eq` — the cases that are cut short do not matter.
* `SparseMatrix.addProduct_dense` — **the product is the dense one.**
-/

set_option autoImplicit false

namespace Conic

/-- The number at a position of a matrix, zero outside. -/
def SparseMatrix.at (A : SparseMatrix ℚ) (i j : Nat) : ℚ :=
  match A.entry? i j with
  | some (some a) => a
  | _ => 0

namespace SparseMatrix

variable {α : Type} {A : SparseMatrix α} {r c i j : Nat}

/-! ## Look-ups -/

/-- What is stored stands in its column. -/
theorem mem_columnEntries_iff {e : Entry α} :
    e ∈ A.columnEntries c ↔ e.col = c ∧ ∃ i, A.StoresAt i e.row c e.value := by
  unfold columnEntries StoresAt
  cases hbounds : A.columnBounds? c with
  | none => simp
  | some bounds =>
    obtain ⟨start, stop⟩ := bounds
    simp only [List.mem_filterMap, List.mem_range'_1, storedAt?_eq_some_iff]
    constructor
    · rintro ⟨i, ⟨hle, hlt⟩, hrow, hvalue, hcol⟩
      exact ⟨hcol, i, start, stop, rfl, hle, by omega, hrow, hvalue⟩
    · rintro ⟨hcol, i, _, _, heq, hle, hlt, hrow, hvalue⟩
      cases heq
      exact ⟨i, ⟨hle, by omega⟩, hrow, hvalue, hcol⟩

/-- What is stored for a row of a column. -/
theorem mem_row_columnEntries_iff {e : Entry α} :
    e ∈ (A.columnEntries c).filter (fun e => e.row == r) ↔
      e.row = r ∧ e.col = c ∧ ∃ i, A.StoresAt i r c e.value := by
  rw [List.mem_filter, mem_columnEntries_iff, beq_iff_eq]
  constructor
  · rintro ⟨⟨hcol, hstored⟩, rfl⟩
    exact ⟨rfl, hcol, hstored⟩
  · rintro ⟨rfl, hcol, hstored⟩
    exact ⟨⟨hcol, hstored⟩, rfl⟩

namespace Formatted

variable (h : A.Formatted)
include h

theorem storesAt_inside {a : α} (hi : A.StoresAt i r c a) : r < A.rows ∧ c < A.cols := by
  obtain ⟨start, stop, hbounds, _, _, hrow, _⟩ := hi
  exact ⟨h.row_lt r (Array.mem_of_getElem? hrow),
    (exists_columnBounds_iff h.colStart_size).mp ⟨start, stop, hbounds⟩⟩

/-- What is stored for a row of a column is found by searching the column. -/
theorem position?_of_storesAt {a : α} (hi : A.StoresAt i r c a) :
    A.startOf c ≤ i ∧ i < A.startOf (c + 1) ∧
      position? r (A.rowIndex.extract (A.startOf c) (A.startOf (c + 1))) = some (i - A.startOf c) := by
  obtain ⟨_, hc⟩ := h.storesAt_inside hi
  obtain ⟨start, stop, hbounds, hle, hlt, hrow, _⟩ := hi
  have hrows := h.rows_lt hbounds
  obtain ⟨_, hstop⟩ := h.stop_le hbounds
  rw [h.columnBounds?_startOf hc] at hbounds
  cases hbounds
  refine ⟨hle, hlt, (position?_eq_some_iff hrows).mpr ?_⟩
  rw [Array.getElem?_extract, if_pos (by omega), Nat.add_sub_cancel' hle, hrow]

/-- A position is stored at one place at most. -/
theorem storesAt_inj {a b : α} (hi : A.StoresAt i r c a) (hj : A.StoresAt j r c b) :
    i = j ∧ a = b := by
  obtain ⟨hile, _, hifound⟩ := h.position?_of_storesAt hi
  obtain ⟨hjle, _, hjfound⟩ := h.position?_of_storesAt hj
  rw [hifound, Option.some_inj] at hjfound
  obtain rfl : i = j := by omega
  obtain ⟨_, _, _, _, _, _, ha⟩ := hi
  obtain ⟨_, _, _, _, _, _, hb⟩ := hj
  rw [ha] at hb
  exact ⟨rfl, Option.some_inj.mp hb⟩

variable [Scalar α]

/-- A look-up inside the matrix searches the column. -/
theorem entry?_eq (hr : r < A.rows) (hc : c < A.cols) : A.entry? r c =
    match position? r (A.rowIndex.extract (A.startOf c) (A.startOf (c + 1))) with
    | some offset => A.value[A.startOf c + offset]?.map some
    | none => some (some 0) := by
  have hbounds := h.columnBounds?_startOf hc
  have hstretch := h.stop_le hbounds
  have hinside : ¬(r ≥ A.rows ∨ c ≥ A.cols) := by omega
  have hwindow : ¬(A.startOf c > A.startOf (c + 1) ∨ A.startOf (c + 1) > A.rowIndex.size) := by
    omega
  unfold entry?
  simp only [Bool.or_eq_true, decide_eq_true_eq, if_neg hinside, hbounds, Option.bind_eq_bind,
    Option.bind_some, if_neg hwindow]
  cases position? r (A.rowIndex.extract (A.startOf c) (A.startOf (c + 1))) with
  | none => rfl
  | some offset => exact Option.map_eq_bind.symm

/-- **A look-up finds the value that is stored.** -/
theorem entry?_of_storesAt {a : α} (hi : A.StoresAt i r c a) : A.entry? r c = some (some a) := by
  obtain ⟨hr, hc⟩ := h.storesAt_inside hi
  obtain ⟨hle, _, hfound⟩ := h.position?_of_storesAt hi
  obtain ⟨_, _, _, _, _, _, hvalue⟩ := hi
  rw [h.entry?_eq hr hc, hfound]
  simp only [Nat.add_sub_cancel' hle, hvalue, Option.map_some]

/-- **A look-up of a position that is not stored finds zero.** -/
theorem entry?_of_missing (hr : r < A.rows) (hc : c < A.cols)
    (hmissing : ¬∃ i a, A.StoresAt i r c a) : A.entry? r c = some (some 0) := by
  rw [h.entry?_eq hr hc]
  cases hfound : position? r (A.rowIndex.extract (A.startOf c) (A.startOf (c + 1))) with
  | none => rfl
  | some offset =>
    have hbounds := h.columnBounds?_startOf hc
    have hstretch := h.stop_le hbounds
    have hrow := getElem?_of_position? hfound
    have hoffset := (Array.getElem?_eq_some_iff.mp hrow).1
    rw [Array.size_extract] at hoffset
    rw [Array.getElem?_extract, if_pos hoffset] at hrow
    have hvalue : A.startOf c + offset < A.value.size := by
      rw [h.value_size]
      omega
    exact absurd ⟨A.startOf c + offset, _, A.startOf c, _, hbounds, Nat.le_add_right _ _, by omega,
      hrow, Array.getElem?_eq_getElem hvalue⟩ hmissing

end Formatted

/-- Look-ups inside the matrix find what is stored, which is stored at one place, and zero where
nothing is. -/
structure Finds [Scalar α] (A : SparseMatrix α) : Prop where
  stored : ∀ {i r c a}, A.StoresAt i r c a → A.entry? r c = some (some a)
  once : ∀ {i j r c a b}, A.StoresAt i r c a → A.StoresAt j r c b → i = j ∧ a = b
  missing : ∀ {r c}, r < A.rows → c < A.cols → (¬∃ i a, A.StoresAt i r c a) →
    A.entry? r c = some (some 0)

theorem Formatted.finds [Scalar α] (h : A.Formatted) : A.Finds :=
  ⟨h.entry?_of_storesAt, h.storesAt_inj, h.entry?_of_missing⟩

/-! ## The dense product -/

open Finset (range)

variable {A : SparseMatrix ℚ}

/-- The entries of a row in one column: the one that is stored, if there is one. -/
theorem Formatted.sum_column (h : A.Formatted) (hr : r < A.rows) (hc : c < A.cols) (f : ℚ → ℚ)
    (hzero : f 0 = 0) :
    (((A.columnEntries c).filter fun e => e.row == r).map fun e => f e.value).sum =
      f (A.at r c) := by
  have hpairwise : ((A.columnEntries c).filter fun e => e.row == r).Pairwise Entry.before :=
    (h.columnEntries_pairwise hc).filter _
  -- Rows increase in a column, so that at most one entry is left.
  by_cases hstored : ∃ i a, A.StoresAt i r c a
  · obtain ⟨i, a, hi⟩ := hstored
    have hsingle : ((A.columnEntries c).filter fun e => e.row == r) = [⟨r, c, a⟩] := by
      refine eq_of_pairwise hpairwise (List.pairwise_singleton _ _) fun e => ?_
      rw [mem_row_columnEntries_iff, List.mem_singleton]
      constructor
      · rintro ⟨rfl, rfl, j, hj⟩
        obtain ⟨_, rfl⟩ := h.storesAt_inj hi hj
        rfl
      · rintro rfl
        exact ⟨rfl, rfl, i, hi⟩
    rw [hsingle, SparseMatrix.at, h.entry?_of_storesAt hi]
    exact List.sum_singleton
  · have hnone : ((A.columnEntries c).filter fun e => e.row == r) = [] := by
      refine List.eq_nil_iff_forall_not_mem.mpr fun e he => ?_
      obtain ⟨_, _, i, hi⟩ := mem_row_columnEntries_iff.mp he
      exact hstored ⟨i, _, hi⟩
    rw [hnone, SparseMatrix.at, h.entry?_of_missing hr hc hstored]
    exact hzero.symm

/-- **The entries of a row, summed in the order of storage, are summed over the columns.** -/
theorem Formatted.sum_row (h : A.Formatted) (hr : r < A.rows) (a : ℚ) (x : List ℚ) :
    ((A.entries.filter fun e => e.row == r).map fun e => a * e.value * x.getD e.col 0).sum =
      a * ∑ c ∈ range A.cols, A.at r c * x.getD c 0 := by
  have hcolumn : ∀ c ∈ List.range A.cols,
      (((A.columnEntries c).filter fun e => e.row == r).map fun e =>
        a * e.value * x.getD e.col 0).sum = a * (A.at r c * x.getD c 0) := by
    intro c hc
    have hsum := h.sum_column hr (List.mem_range.mp hc) (fun v => a * v * x.getD c 0) (by ring)
    rw [← mul_assoc, ← hsum]
    congr 1
    refine List.map_congr_left fun e he => ?_
    rw [col_of_mem_columnEntries (List.mem_filter.mp he).1]
  rw [entries, List.filter_flatMap, List.map_flatMap, List.flatMap_def, List.sum_flatten,
    List.map_map, Finset.mul_sum, ← List.toFinset_range, List.sum_toFinset _ List.nodup_range]
  exact congrArg List.sum (List.map_congr_left hcolumn)

/-- The three ways of starting a product are one over the rationals. -/
theorem startingPoint_eq (b : ℚ) (y : List ℚ) : startingPoint b y = y.map (b * ·) := by
  unfold startingPoint Vector.scaled
  split
  · rename_i hzero
    simp only [beq_iff_eq.mp hzero, zero_mul]
  · split
    · rename_i hone
      simp only [beq_iff_eq.mp hone, one_mul, List.map_id']
    · simp only [mul_comm]

theorem Formatted.entry?_eq_at (h : A.Formatted) (hr : r < A.rows) (hc : c < A.cols) :
    A.entry? r c = some (some (A.at r c)) := by
  by_cases hstored : ∃ i a, A.StoresAt i r c a
  · obtain ⟨i, a, hi⟩ := hstored
    rw [SparseMatrix.at, h.entry?_of_storesAt hi]
  · rw [SparseMatrix.at, h.entry?_of_missing hr hc hstored]

/-- **A product of an accepted matrix is the dense one**: every coordinate is `a` times the sum over
the columns of what a look-up gives for the row, times the coordinate of `x`, and `b` times the old
coordinate. Look-ups find what is stored. -/
theorem addProduct_dense (haccepted : A.scan = .ok ()) {x y : List ℚ} (hx : x.length = A.cols)
    (hy : y.length = A.rows) (a b : ℚ) :
    (∃ y', A.addProduct? a x b y = some y' ∧ y'.length = A.rows ∧ ∀ r < A.rows, y'.getD r 0 =
      a * ∑ c ∈ range A.cols, A.at r c * x.getD c 0 + b * y.getD r 0) ∧
    (∀ r < A.rows, ∀ c < A.cols, A.entry? r c = some (some (A.at r c))) ∧ A.Finds := by
  have h := scan_eq_ok_iff.mp haccepted
  refine ⟨?_, fun r hr c hc => h.entry?_eq_at hr hc, h.finds⟩
  have hold : ∀ r < A.rows, (startingPoint b y)[r]? = some (b * y.getD r 0) := by
    intro r hr
    have hlt : r < y.length := hy ▸ hr
    rw [startingPoint_eq, List.getElem?_map, List.getD_eq_getElem?_getD,
      List.getElem?_eq_getElem hlt]
    rfl
  have hlength : (startingPoint b y).length = A.rows := by
    rw [startingPoint_eq, List.length_map, hy]
  refine ⟨_, h.addProduct?_eq hx b hy, ?_, fun r hr => ?_⟩
  · split
    · exact hlength
    · rw [Array.length_toList, size_scattered, List.size_toArray, hlength]
  · rw [List.getD_eq_getElem?_getD]
    split
    · rename_i hzero
      rw [hold r hr, beq_iff_eq.mp hzero, zero_mul, zero_add, Option.getD_some]
    · rw [Array.getElem?_toList, getElem?_scattered, List.getElem?_toArray, hold r hr,
        Option.map_some, Option.getD_some,
        foldl_add_eq_sum (fun e : Entry ℚ => a * e.value * x.getD e.col 0), h.sum_row hr, add_comm]

/-- Three columns with seven entries. -/
def threeColumns : SparseMatrix ℚ :=
  ⟨3, 3, #[0, 2, 4, 7], #[0, 1, 0, 2, 0, 1, 2], #[1, 2, 3, 4, 5, 6, 7]⟩

theorem addProduct_dense_threeColumns : threeColumns.scan = .ok () ∧
    ∀ r < 3, [17, 15, 21].getD r 0 =
      2 * ∑ c ∈ range 3, threeColumns.at r c * [1, 1, 1].getD c 0 + -1 * [1, 1, 1].getD r 0 := by
  have haccepted : threeColumns.scan = .ok () :=
    scan_eq_ok_iff.mpr (formatFault?_eq_none_iff.mp (by decide +kernel))
  obtain ⟨⟨y', hproduct, _, hdense⟩, _⟩ :=
    addProduct_dense haccepted (x := [1, 1, 1]) (y := [1, 1, 1]) rfl rfl 2 (-1)
  have hresult : threeColumns.addProduct? 2 [1, 1, 1] (-1) [1, 1, 1] = some [17, 15, 21] := by
    decide +kernel
  rw [hproduct, Option.some_inj] at hresult
  rw [hresult] at hdense
  exact ⟨haccepted, hdense⟩

end SparseMatrix

end Conic
