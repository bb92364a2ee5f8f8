import Conic.Sparse.Scan
import Conic.Proofs.Sparse.Product
import Conic.Proofs.Sparse.Search

/-!
# What an accepted matrix allows

The data of a matrix may be anything. The check itself looks only at positions that it has made sure
of, and so does everything that is done with a matrix that it accepts.

* `SparseMatrix.scan_eq` — **the check finds the first broken rule, and reads no position that does
  not exist.**
* `SparseMatrix.Readable` — counting, look-ups and products have answers.
* `SparseMatrix.scan_readable` — **a matrix is refused, or it is readable.**
-/

set_option autoImplicit false

namespace Conic.SparseMatrix

variable {α : Type} {A : SparseMatrix α} {c : Nat}

/-! ## The check -/

@[simp] theorem require_true (fault : FormatFault) : require fault true = .ok () := rfl

@[simp] theorem require_false (fault : FormatFault) :
    require fault false = .error (.refused fault) := rfl

theorem scanLengths_eq (A : SparseMatrix α) :
    A.scanLengths = require .incompatibleLengths A.lengthsAgree := by
  unfold scanLengths lengthsAgree numberAt
  cases A.rowIndex.size == A.value.size with
  | false => rfl
  | true =>
    by_cases hsize : A.colStart.size = A.cols + 1
    · simp [hsize]
    · have hcond : (A.colStart.size == A.cols + 1) = false := beq_eq_false_iff_ne.mpr hsize
      rw [hcond]
      rfl

/-- A column that is a stretch of the arrays is looked at from its start up to its stop. -/
theorem scanColumn_eq {start stop : Nat} (hbounds : A.columnBounds? c = some (start, stop))
    (hstretch : start ≤ stop ∧ stop ≤ A.rowIndex.size) :
    A.scanColumn c = require .unorderedRows (A.columnIncreases c) := by
  obtain ⟨hstart, hstop⟩ := columnBounds?_eq_some_iff.mp hbounds
  simp only [scanColumn, numberAt, hstart, hstop, stretch, if_pos hstretch, columnIncreases, hbounds,
    Checked.found_some, Checked.ok_bind, rowsBetween]

theorem forM_require {β : Type} {f : β → Bool} {g : β → Checked FormatFault Unit} {l : List β}
    {fault : FormatFault} (hg : ∀ b ∈ l, g b = require fault (f b)) :
    l.forM g = require fault (l.all f) := by
  induction l with
  | nil => rfl
  | cons b l ih =>
    have hrest := ih fun b hb => hg b (List.mem_cons_of_mem _ hb)
    rw [List.forM_eq_forM] at hrest ⊢
    rw [List.forM_cons, List.all_cons, hg b List.mem_cons_self, hrest]
    cases f b <;> rfl

/-- **The check refuses for the first broken rule**, and reads no position that does not exist. -/
theorem scan_eq (A : SparseMatrix α) : A.scan = match A.formatFault? with
    | some fault => .error (.refused fault)
    | none => .ok () := by
  unfold scan formatFault?
  rw [scanLengths_eq]
  cases hlengths : A.lengthsAgree with
  | false => rfl
  | true =>
    rw [require_true, Checked.ok_bind]
    cases hstarts : noNeighbours (fun a b => a > b) A.colStart.toList with
    | false => rfl
    | true =>
      -- The lengths and the starts are in order, so that the columns can be cut out.
      obtain ⟨_, hsize, hlast⟩ := lengthsAgree_iff.mp hlengths
      have hcolumns : (List.range A.cols).forM A.scanColumn =
          require .unorderedRows ((List.range A.cols).all A.columnIncreases) := by
        refine forM_require fun c hc => ?_
        obtain ⟨start, stop, hbounds⟩ :=
          (exists_columnBounds_iff hsize).mpr (List.mem_range.mp hc)
        exact scanColumn_eq hbounds
          (stop_le_of_starts hsize hlast (noNeighbours_gt_iff.mp hstarts) hbounds)
      rw [require_true, Checked.ok_bind, hcolumns]
      cases (List.range A.cols).all A.columnIncreases <;>
        cases A.rowIndex.all (· < A.rows) <;> rfl

theorem scan_eq_ok_iff : A.scan = .ok () ↔ A.Formatted := by
  rw [scan_eq, ← formatFault?_eq_none_iff]
  cases A.formatFault? <;> simp

/-! ## Accepted matrices -/

/-- What is done with the matrix has an answer: its entries are counted, any position is looked up,
and any vectors of the right lengths are multiplied and added. -/
structure Readable [Scalar α] (A : SparseMatrix α) : Prop where
  entryCount : ∃ n, A.entryCount? = some n
  entry : ∀ row col, ∃ a, A.entry? row col = some a
  product : ∀ (a b : α) {x y : List α}, x.length = A.cols → y.length = A.rows →
    ∃ y', A.addProduct? a x b y = some y'

theorem Formatted.exists_entry? [Scalar α] (h : A.Formatted) (row col : Nat) :
    ∃ a, A.entry? row col = some a := by
  unfold entry?
  by_cases houtside : row ≥ A.rows ∨ col ≥ A.cols
  · exact ⟨none, by simp [houtside]⟩
  · obtain ⟨start, stop, hbounds⟩ := h.exists_columnBounds (c := col) (by omega)
    obtain ⟨hle, hstop⟩ := h.stop_le hbounds
    have hwindow : ¬(start > stop ∨ stop > A.rowIndex.size) := by omega
    simp only [Bool.or_eq_true, decide_eq_true_eq, if_neg houtside, hbounds, Option.bind_eq_bind,
      Option.bind_some, if_neg hwindow]
    cases hposition : position? row (A.rowIndex.extract start stop) with
    | none => exact ⟨some 0, rfl⟩
    | some offset =>
      have hoffset := (Array.getElem?_eq_some_iff.mp (getElem?_of_position? hposition)).1
      rw [Array.size_extract] at hoffset
      have hvalue : start + offset < A.value.size := by
        rw [h.value_size]
        omega
      exact ⟨some A.value[start + offset], by simp [hvalue]⟩

theorem Formatted.readable [Scalar α] (h : A.Formatted) : A.Readable where
  entryCount := ⟨_, h.last⟩
  entry := h.exists_entry?
  product _ b _ _ hx hy := ⟨_, h.addProduct?_eq hx b hy⟩

/-- **The check refuses a matrix, whatever its data are, or counting, look-ups and products have
answers**: nothing of this is ever out of range. -/
theorem scan_readable [Scalar α] (A : SparseMatrix α) :
    (∃ fault, A.scan = .error (.refused fault)) ∨ A.scan = .ok () ∧ A.Readable := by
  cases hfault : A.formatFault? with
  | some fault => exact Or.inl ⟨fault, by rw [scan_eq, hfault]⟩
  | none =>
    have h := formatFault?_eq_none_iff.mp hfault
    exact Or.inr ⟨scan_eq_ok_iff.mpr h, h.readable⟩

/-- Columns need not begin with the arrays: the entry at place 0 belongs to none, and is never read. -/
example : formatFault? (⟨1, 1, #[1, 2], #[0, 0], #[3, 4]⟩ : SparseMatrix Rat) = none := by
  decide +kernel

end Conic.SparseMatrix
