import Mathlib.Data.List.Chain
import Conic.Sparse.Basic

/-!
# The rules of the format

* `SparseMatrix.Formatted` — the rules, without an order in which they are looked at.
* `SparseMatrix.formatFault?_eq_none_iff` — **the check decides them.**
* `Formatted.exists_columnBounds`, `Formatted.stop_le` — every column is a stretch of the arrays.
-/

set_option autoImplicit false

namespace Conic.SparseMatrix

variable {α : Type} {A : SparseMatrix α} {c start stop : Nat}

/-- The data of a matrix follow the rules of the format. -/
structure Formatted (A : SparseMatrix α) : Prop where
  value_size : A.value.size = A.rowIndex.size
  colStart_size : A.colStart.size = A.cols + 1
  last : A.colStart[A.cols]? = some A.rowIndex.size
  starts_le : A.colStart.toList.Pairwise (· ≤ ·)
  rows_lt : ∀ {c start stop}, A.columnBounds? c = some (start, stop) →
    (A.rowsBetween start stop).Pairwise (· < ·)
  row_lt : ∀ r ∈ A.rowIndex, r < A.rows

theorem noNeighbours_iff {wrong : Nat → Nat → Bool} {l : List Nat} :
    noNeighbours wrong l = true ↔ l.IsChain fun a b => wrong a b = false := by
  induction l with
  | nil => simp [noNeighbours]
  | cons a l ih =>
    cases l with
    | nil => simp [noNeighbours]
    | cons b l => simp [noNeighbours, ih]

theorem noNeighbours_gt_iff {l : List Nat} :
    noNeighbours (fun a b => a > b) l = true ↔ l.Pairwise (· ≤ ·) := by
  rw [noNeighbours_iff, ← List.isChain_iff_pairwise]
  simp

theorem noNeighbours_ge_iff {l : List Nat} :
    noNeighbours (fun a b => a ≥ b) l = true ↔ l.Pairwise (· < ·) := by
  rw [noNeighbours_iff, ← List.isChain_iff_pairwise]
  simp

theorem columnBounds?_eq_some_iff : A.columnBounds? c = some (start, stop) ↔
    A.colStart[c]? = some start ∧ A.colStart[c + 1]? = some stop := by
  unfold columnBounds?
  cases A.colStart[c]? <;> cases A.colStart[c + 1]? <;> simp

theorem lengthsAgree_iff : A.lengthsAgree = true ↔ A.value.size = A.rowIndex.size ∧
    A.colStart.size = A.cols + 1 ∧ A.colStart[A.cols]? = some A.rowIndex.size := by
  simp only [lengthsAgree, Bool.and_eq_true, beq_iff_eq, and_assoc]
  exact and_congr_left fun _ => eq_comm

/-- As many starts as there have to be: every column has bounds, and nothing else has. -/
theorem exists_columnBounds_iff (hsize : A.colStart.size = A.cols + 1) :
    (∃ start stop, A.columnBounds? c = some (start, stop)) ↔ c < A.cols := by
  simp only [columnBounds?_eq_some_iff]
  constructor
  · rintro ⟨_, _, _, hstop⟩
    have := (Array.getElem?_eq_some_iff.mp hstop).1
    omega
  · intro hc
    exact ⟨_, _, Array.getElem?_eq_getElem (by omega), Array.getElem?_eq_getElem (by omega)⟩

theorem columnIncreases_iff : A.columnIncreases c = true ↔
    ∃ start stop, A.columnBounds? c = some (start, stop) ∧
      (A.rowsBetween start stop).Pairwise (· < ·) := by
  unfold columnIncreases
  cases A.columnBounds? c with
  | none => simp
  | some bounds => simp [noNeighbours_ge_iff, Prod.ext_iff]

/-- **The check accepts the matrices that follow the rules.** -/
theorem formatFault?_eq_none_iff : A.formatFault? = none ↔ A.Formatted := by
  have hchecked : A.formatFault? = none ↔ A.lengthsAgree = true ∧
      noNeighbours (fun a b => a > b) A.colStart.toList = true ∧
      (List.range A.cols).all A.columnIncreases = true ∧ A.rowIndex.all (· < A.rows) = true := by
    unfold formatFault?
    cases A.lengthsAgree <;> cases noNeighbours (fun a b => a > b) A.colStart.toList <;>
      cases (List.range A.cols).all A.columnIncreases <;> cases A.rowIndex.all (· < A.rows) <;>
        simp
  have hrows : A.rowIndex.all (· < A.rows) = true ↔ ∀ r ∈ A.rowIndex, r < A.rows := by
    rw [Array.all_eq_true_iff_forall_mem]
    simp only [decide_eq_true_eq]
  rw [hchecked, lengthsAgree_iff, noNeighbours_gt_iff, List.all_eq_true, hrows]
  simp only [List.mem_range]
  constructor
  · rintro ⟨⟨hvalue, hsize, hlast⟩, hstarts, hcolumns, hrows⟩
    refine ⟨hvalue, hsize, hlast, hstarts, fun {c start stop} hbounds => ?_, hrows⟩
    have hc := (exists_columnBounds_iff hsize).mp ⟨start, stop, hbounds⟩
    obtain ⟨_, _, hbounds', hincreasing⟩ := columnIncreases_iff.mp (hcolumns c hc)
    rw [hbounds] at hbounds'
    cases hbounds'
    exact hincreasing
  · intro h
    refine ⟨⟨h.value_size, h.colStart_size, h.last⟩, h.starts_le, fun c hc => ?_, h.row_lt⟩
    obtain ⟨start, stop, hbounds⟩ := (exists_columnBounds_iff h.colStart_size).mpr hc
    exact columnIncreases_iff.mpr ⟨start, stop, hbounds, h.rows_lt hbounds⟩

/-! ## Columns -/

/-- Starts that do not decrease, the last of which is the number of entries, cut out stretches of the
arrays. -/
theorem stop_le_of_starts (hsize : A.colStart.size = A.cols + 1)
    (hlast : A.colStart[A.cols]? = some A.rowIndex.size)
    (hstarts : A.colStart.toList.Pairwise (· ≤ ·))
    (hbounds : A.columnBounds? c = some (start, stop)) :
    start ≤ stop ∧ stop ≤ A.rowIndex.size := by
  have hle : ∀ {i j a b : Nat}, i < j → A.colStart[i]? = some a → A.colStart[j]? = some b → a ≤ b := by
    intro i j a b hij ha hb
    obtain ⟨hi, rfl⟩ := Array.getElem?_eq_some_iff.mp ha
    obtain ⟨hj, rfl⟩ := Array.getElem?_eq_some_iff.mp hb
    exact List.pairwise_iff_getElem.mp hstarts i j hi hj hij
  have hc := (exists_columnBounds_iff hsize).mp ⟨start, stop, hbounds⟩
  obtain ⟨hstart, hstop⟩ := columnBounds?_eq_some_iff.mp hbounds
  refine ⟨hle (Nat.lt_succ_self c) hstart hstop, ?_⟩
  -- The stop of the last column is the last start itself.
  rcases Nat.eq_or_lt_of_le (Nat.succ_le_of_lt hc) with heq | hlt
  · rw [Nat.succ_eq_add_one] at heq
    rw [heq, hlast] at hstop
    exact Nat.le_of_eq (Option.some.inj hstop).symm
  · exact hle hlt hstop hlast

theorem Formatted.stop_le (h : A.Formatted) (hbounds : A.columnBounds? c = some (start, stop)) :
    start ≤ stop ∧ stop ≤ A.rowIndex.size :=
  stop_le_of_starts h.colStart_size h.last h.starts_le hbounds

theorem Formatted.exists_columnBounds (h : A.Formatted) (hc : c < A.cols) :
    ∃ start stop, A.columnBounds? c = some (start, stop) :=
  (exists_columnBounds_iff h.colStart_size).mpr hc

end Conic.SparseMatrix
