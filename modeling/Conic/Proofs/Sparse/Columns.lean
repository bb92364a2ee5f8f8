import Mathlib.Algebra.GroupWithZero.Nat
import Mathlib.Data.List.Basic
import Conic.Proofs.Sparse.Runs

/-!
# Columns of the stored entries

Counting the entries of each column and adding the counts up gives the positions where the columns
begin.

* `SparseMatrix.columnStart` — the number of entries in earlier columns.
* `SparseMatrix.getElem?_starts` — the running totals are these numbers.
* `SparseMatrix.extract_column` — **between two of them stand the entries of one column.**
-/

set_option autoImplicit false

namespace Conic.SparseMatrix

variable {α : Type}

/-! ## Counting -/

theorem size_columnCounts (cols : Nat) (entries : List (Entry α)) :
    (columnCounts cols entries).size = cols := by
  have hfold : ∀ (l : List (Entry α)) (counts : Array Nat),
      (l.foldl (fun counts e => counts.modify e.col (· + 1)) counts).size = counts.size := by
    intro l
    induction l with
    | nil => exact fun _ => rfl
    | cons e l ih => exact fun counts => by rw [List.foldl_cons, ih, Array.size_modify]
  rw [columnCounts, hfold, Array.size_replicate]

theorem getElem?_columnCounts {cols c : Nat} (entries : List (Entry α)) (hc : c < cols) :
    (columnCounts cols entries)[c]? = some (entries.countP fun e => e.col == c) := by
  have hfold : ∀ (l : List (Entry α)) (counts : Array Nat) (n : Nat), counts[c]? = some n →
      (l.foldl (fun counts e => counts.modify e.col (· + 1)) counts)[c]? =
        some (n + l.countP fun e => e.col == c) := by
    intro l
    induction l with
    | nil => exact fun _ _ hn => hn
    | cons e l ih =>
      intro counts n hn
      have hmodified : (counts.modify e.col (· + 1))[c]? =
          some (n + if e.col = c then 1 else 0) := by
        rw [Array.getElem?_modify, hn]
        split <;> simp
      rw [List.foldl_cons, ih _ _ hmodified, List.countP_cons]
      congr 1
      by_cases he : e.col = c <;> simp [he]
      omega
  have hzero : (Array.replicate cols 0)[c]? = some 0 := by simp [hc]
  rw [columnCounts, hfold entries _ 0 hzero, Nat.zero_add]

/-! ## Running totals -/

@[simp] theorem length_runningTotals (total : Nat) (counts : List Nat) :
    (runningTotals total counts).length = counts.length + 1 := by
  induction counts generalizing total with
  | nil => rfl
  | cons count counts ih => simp [runningTotals, ih]

theorem getElem?_runningTotals (total : Nat) {counts : List Nat} {i : Nat}
    (hi : i ≤ counts.length) :
    (runningTotals total counts)[i]? = some (total + (counts.take i).sum) := by
  induction counts generalizing total i with
  | nil =>
    obtain rfl : i = 0 := Nat.le_zero.mp hi
    rfl
  | cons count counts ih =>
    cases i with
    | zero => simp [runningTotals]
    | succ i =>
      rw [runningTotals, List.getElem?_cons_succ, ih _ (Nat.le_of_succ_le_succ hi)]
      simp [Nat.add_assoc]

/-- The number of entries in columns before `c`. -/
def columnStart (entries : List (Entry α)) (c : Nat) : Nat :=
  entries.countP fun e => e.col < c

theorem columnStart_succ (entries : List (Entry α)) (c : Nat) :
    columnStart entries (c + 1) =
      columnStart entries c + entries.countP fun e => e.col == c := by
  unfold columnStart
  induction entries with
  | nil => rfl
  | cons e entries ih =>
    rw [List.countP_cons, List.countP_cons, List.countP_cons, ih]
    simp only [decide_eq_true_eq, beq_iff_eq]
    split <;> split <;> split <;> omega

theorem columnStart_zero (entries : List (Entry α)) : columnStart entries 0 = 0 := by
  simp [columnStart]

/-- Every entry stands before the end. -/
theorem columnStart_cols {cols : Nat} {entries : List (Entry α)}
    (h : ∀ e ∈ entries, e.col < cols) : columnStart entries cols = entries.length :=
  List.countP_eq_length.mpr fun e he => by simpa using h e he

theorem columnStart_le (entries : List (Entry α)) {c d : Nat} (hcd : c ≤ d) :
    columnStart entries c ≤ columnStart entries d :=
  List.countP_mono_left fun e _ he => by
    simp only [decide_eq_true_eq] at he ⊢
    omega

/-- Where the columns begin, as a list. -/
def starts (cols : Nat) (entries : List (Entry α)) : List Nat :=
  runningTotals 0 (columnCounts cols entries).toList

theorem length_starts (cols : Nat) (entries : List (Entry α)) :
    (starts cols entries).length = cols + 1 := by
  unfold starts
  rw [length_runningTotals, Array.length_toList, size_columnCounts]

/-- The running totals of the counts. -/
theorem getElem?_starts {cols c : Nat} (entries : List (Entry α)) (hc : c ≤ cols) :
    (starts cols entries)[c]? = some (columnStart entries c) := by
  have hlength : (columnCounts cols entries).toList.length = cols := by
    rw [Array.length_toList, size_columnCounts]
  unfold starts
  rw [getElem?_runningTotals 0 (by omega), Nat.zero_add]
  congr 1
  induction c with
  | zero => rw [columnStart_zero]; rfl
  | succ c ih =>
    have hcount := getElem?_columnCounts entries hc
    rw [← Array.getElem?_toList] at hcount
    rw [List.take_add_one, List.sum_append, ih (Nat.le_of_succ_le hc), hcount, columnStart_succ]
    simp

/-! ## The entries of a column -/

/-- The entries of column `c`, in order. -/
def columnOf (entries : List (Entry α)) (c : Nat) : List (Entry α) :=
  entries.filter fun e => e.col == c

/-- A list in which a property is never regained falls into two parts. -/
theorem filter_append_filter_of_pairwise {β : Type} {l : List β} {P : β → Bool}
    (h : l.Pairwise fun a b => P b = true → P a = true) :
    l.filter P ++ l.filter (fun b => !P b) = l := by
  induction l with
  | nil => rfl
  | cons a l ih =>
    obtain ⟨ha, hl⟩ := List.pairwise_cons.mp h
    cases hP : P a with
    | true => simp [hP, ih hl]
    | false =>
      have hnone : l.filter P = [] := List.filter_eq_nil_iff.mpr fun b hb hPb => by
        rw [ha b hb hPb] at hP
        cases hP
      have hall : l.filter (fun b => !P b) = l := List.filter_eq_self.mpr fun b hb => by
        have := List.filter_eq_nil_iff.mp hnone b hb
        simpa using this
      simp [hP, hnone, hall]

variable {entries : List (Entry α)} (h : entries.Pairwise Entry.before)
include h

/-- An entry stands behind the start of its column and of every earlier one. -/
theorem columnStart_le_iff {i c : Nat} {e : Entry α} (he : entries[i]? = some e) :
    columnStart entries c ≤ i ↔ c ≤ e.col := by
  have hsplit := filter_append_filter_of_pairwise (P := fun e : Entry α => decide (e.col < c))
    (h.imp fun hbefore => by
      simp only [decide_eq_true_eq]
      unfold Entry.before at hbefore
      omega)
  have hlength : (entries.filter fun e => e.col < c).length = columnStart entries c :=
    List.countP_eq_length_filter.symm
  rw [← hsplit, List.getElem?_append, hlength] at he
  split at he
  · have hcol := (List.mem_filter.mp (List.mem_of_getElem? he)).2
    simp only [decide_eq_true_eq] at hcol
    omega
  · have hcol := (List.mem_filter.mp (List.mem_of_getElem? he)).2
    simp only [Bool.not_eq_true', decide_eq_false_iff_not] at hcol
    omega

/-- **Between the starts of two columns stand the entries of the first.** -/
theorem extract_column (c : Nat) :
    (entries.drop (columnStart entries c)).take
      (columnStart entries (c + 1) - columnStart entries c) = columnOf entries c := by
  have hcols : ∀ d, entries.Pairwise fun a b =>
      decide (b.col < d) = true → decide (a.col < d) = true := fun d => h.imp fun hbefore => by
    simp only [decide_eq_true_eq]
    unfold Entry.before at hbefore
    omega
  have hsplit := filter_append_filter_of_pairwise (hcols c)
  have hlength : (entries.filter fun e => e.col < c).length = columnStart entries c :=
    List.countP_eq_length_filter.symm
  have hdrop : ((entries.filter fun e => e.col < c) ++
      entries.filter fun e => !decide (e.col < c)).drop (columnStart entries c) =
        entries.filter fun e => !decide (e.col < c) := List.drop_left' hlength
  rw [hsplit] at hdrop
  have hrest := filter_append_filter_of_pairwise
    ((hcols (c + 1)).filter fun e => !decide (e.col < c))
  have hcolumn : (entries.filter fun e => !decide (e.col < c)).filter
      (fun e => e.col < c + 1) = columnOf entries c := by
    rw [List.filter_filter, columnOf]
    refine List.filter_congr fun e _ => ?_
    rw [Bool.eq_iff_iff]
    simp only [Bool.and_eq_true, decide_eq_true_eq, Bool.not_eq_true', decide_eq_false_iff_not,
      beq_iff_eq]
    omega
  have hcount : columnStart entries (c + 1) - columnStart entries c =
      (columnOf entries c).length := by
    rw [columnStart_succ, Nat.add_sub_cancel_left, columnOf, List.countP_eq_length_filter]
  rw [hdrop, ← hrest, hcolumn, hcount]
  exact List.take_left' rfl

/-- The rows of a column increase. -/
theorem columnOf_rows_pairwise (c : Nat) :
    ((columnOf entries c).map (·.row)).Pairwise (· < ·) := by
  rw [List.pairwise_map]
  refine (h.filter _).imp_of_mem fun ha hb hbefore => ?_
  have ha := beq_iff_eq.mp (List.mem_filter.mp ha).2
  have hb := beq_iff_eq.mp (List.mem_filter.mp hb).2
  unfold Entry.before at hbefore
  omega

end Conic.SparseMatrix
