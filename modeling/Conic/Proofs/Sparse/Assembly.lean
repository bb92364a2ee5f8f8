import Conic.Proofs.Sparse.Columns
import Conic.Proofs.Sparse.Format
import Conic.Proofs.Sparse.Search

/-!
# Assembled matrices

A matrix that is assembled from entries inside its bounds follows the rules of the format, and
reading a position gives the sum of the values given for it.

* `SparseMatrix.assembled` — the matrix, written down at once.
* `SparseMatrix.assembled_formatFault?` — **no rule of the format is broken.**
* `SparseMatrix.ofEntries_eq` — **the assembly succeeds.**
* `SparseMatrix.StoresAt` — what a place of the stored arrays holds.
* `SparseMatrix.assembled_entry?` — **what is read at a position.**
-/

set_option autoImplicit false

namespace Conic.SparseMatrix

variable {α : Type} [Scalar α] {rows cols : Nat} {entries : List (Entry α)}

/-- The matrix with the given entries. -/
def assembled (rows cols : Nat) (entries : List (Entry α)) : SparseMatrix α where
  rows
  cols
  colStart := (starts cols (storedEntries entries)).toArray
  rowIndex := ((storedEntries entries).map (·.row)).toArray
  value := ((storedEntries entries).map (·.value)).toArray

omit [Scalar α] in
theorem all_inside_iff : entries.all (Entry.inside rows cols) = true ↔
    ∀ e ∈ entries, e.row < rows ∧ e.col < cols := by
  simp [Entry.inside]

theorem storedEntries_inside (h : entries.all (Entry.inside rows cols) = true) :
    ∀ e ∈ storedEntries entries, e.row < rows ∧ e.col < cols := by
  intro e he
  obtain ⟨a, ha⟩ := List.exists_mem_of_ne_nil _ (mem_storedEntries_iff.mp he).1
  obtain ⟨hmem, hstands⟩ := List.mem_filter.mp ha
  obtain ⟨hrow, hcol⟩ := Entry.standsAt_iff.mp hstands
  rw [← hrow, ← hcol]
  exact all_inside_iff.mp h a hmem

/-! ## Columns -/

theorem assembled_columnBounds? {c : Nat} (hc : c < cols) :
    (assembled rows cols entries).columnBounds? c =
      some (columnStart (storedEntries entries) c, columnStart (storedEntries entries) (c + 1)) := by
  simp [columnBounds?, assembled, getElem?_starts _ (Nat.le_of_lt hc), getElem?_starts _ hc]

/-- The rows stored for a column. -/
theorem assembled_rowsBetween (c : Nat) :
    (assembled rows cols entries).rowIndex.extract (columnStart (storedEntries entries) c)
        (columnStart (storedEntries entries) (c + 1)) =
      ((columnOf (storedEntries entries) c).map (·.row)).toArray := by
  apply Array.ext'
  simp only [assembled, List.extract_toArray, List.extract_eq_take_drop, ← List.map_drop,
    ← List.map_take, extract_column (storedEntries_pairwise entries)]

/-- The value that belongs to a stored row. -/
theorem assembled_getElem?_value {c i : Nat} {e : Entry α}
    (he : (columnOf (storedEntries entries) c)[i]? = some e) :
    (assembled rows cols entries).value[columnStart (storedEntries entries) c + i]? =
      some e.value := by
  rw [← extract_column (storedEntries_pairwise entries)] at he
  have hstored : (storedEntries entries)[columnStart (storedEntries entries) c + i]? = some e := by
    rw [← List.getElem?_drop]
    exact (List.getElem?_eq_some_iff.mp he).elim fun hlt _ => by
      rw [List.getElem?_take_of_lt (by simp at hlt; omega)] at he
      exact he
  simp [assembled, hstored]

/-! ## The format -/

theorem assembled_starts_noNeighbours :
    noNeighbours (fun a b => a > b) (assembled rows cols entries).colStart.toList = true := by
  rw [noNeighbours_iff, List.isChain_iff_getElem]
  intro i hi
  have hi' : i < cols := by simpa [assembled, length_starts] using hi
  have hfirst := getElem?_starts (storedEntries entries) (Nat.le_of_lt hi')
  have hnext := getElem?_starts (storedEntries entries) (Nat.succ_le_of_lt hi')
  have hle := columnStart_le (storedEntries entries) (Nat.le_succ i)
  rw [List.getElem?_eq_some_iff] at hfirst hnext
  obtain ⟨_, hfirst⟩ := hfirst
  obtain ⟨_, hnext⟩ := hnext
  simp only [assembled, hfirst, hnext, gt_iff_lt, decide_eq_false_iff_not]
  omega

theorem assembled_columnIncreases {c : Nat} (hc : c < cols) :
    (assembled rows cols entries).columnIncreases c = true := by
  rw [columnIncreases, assembled_columnBounds? hc]
  show noNeighbours _ (rowsBetween _ _ _) = true
  rw [rowsBetween, assembled_rowsBetween, noNeighbours_iff]
  refine (columnOf_rows_pairwise (storedEntries_pairwise entries) c).isChain.imp fun a b hab => ?_
  simpa using hab

theorem assembled_lengthsAgree (h : entries.all (Entry.inside rows cols) = true) :
    (assembled rows cols entries).lengthsAgree = true := by
  have hlast := getElem?_starts (storedEntries entries) (Nat.le_refl cols)
  rw [columnStart_cols fun e he => (storedEntries_inside h e he).2] at hlast
  obtain ⟨_, hlast⟩ := List.getElem?_eq_some_iff.mp hlast
  simp [lengthsAgree, assembled, length_starts, hlast]

/-- **An assembled matrix follows the rules of the format.** -/
theorem assembled_formatFault? (h : entries.all (Entry.inside rows cols) = true) :
    (assembled rows cols entries).formatFault? = none := by
  have hcolumns : (List.range (assembled rows cols entries).cols).all
      (assembled rows cols entries).columnIncreases = true :=
    List.all_eq_true.mpr fun c hc => assembled_columnIncreases (List.mem_range.mp hc)
  have hrows : (assembled rows cols entries).rowIndex.all
      (· < (assembled rows cols entries).rows) = true := by
    simp only [assembled, List.all_toArray, List.all_map, List.all_eq_true]
    intro e he
    exact decide_eq_true (storedEntries_inside h e he).1
  rw [formatFault?, assembled_lengthsAgree h, assembled_starts_noNeighbours, hcolumns, hrows]
  rfl

/-- The lengths of the arrays fit together. -/
theorem ofParts?_assembled (h : entries.all (Entry.inside rows cols) = true) :
    ofParts? rows cols (starts cols (storedEntries entries)).toArray
        ((storedEntries entries).map (·.row)).toArray
        ((storedEntries entries).map (·.value)).toArray = some (assembled rows cols entries) :=
  if_pos (assembled_lengthsAgree h)

/-- **Entries inside the bounds are assembled.** -/
theorem ofEntries_eq (h : entries.all (Entry.inside rows cols) = true) :
    ofEntries rows cols entries = .ok (assembled rows cols entries) := by
  have hparts := ofParts?_assembled h
  unfold starts at hparts
  simp only [ofEntries, h, Bool.not_true, Bool.false_eq_true, if_false, hparts,
    assembled_formatFault? h]

/-! ## What is stored -/

/-- Place `i` of the stored arrays holds `a`, for the position (`row`, `col`). -/
def StoresAt {α : Type} (A : SparseMatrix α) (i row col : Nat) (a : α) : Prop :=
  ∃ start stop, A.columnBounds? col = some (start, stop) ∧ start ≤ i ∧ i < stop ∧
    A.rowIndex[i]? = some row ∧ A.value[i]? = some a

/-- **The stored arrays are the stored entries.** -/
theorem assembled_storesAt_iff (h : entries.all (Entry.inside rows cols) = true) {i r c : Nat}
    {a : α} : (assembled rows cols entries).StoresAt i r c a ↔
      (storedEntries entries)[i]? = some ⟨r, c, a⟩ := by
  have hsorted := storedEntries_pairwise entries
  constructor
  · rintro ⟨start, stop, hbounds, hstart, hstop, hrow, hvalue⟩
    have hc : c < cols := by
      obtain ⟨_, _, hbounds⟩ := Option.bind_eq_some_iff.mp hbounds
      obtain ⟨_, hnext, _⟩ := Option.bind_eq_some_iff.mp hbounds
      have hlt := (Array.getElem?_eq_some_iff.mp hnext).1
      simp only [assembled, List.size_toArray, length_starts] at hlt
      omega
    rw [assembled_columnBounds? hc] at hbounds
    cases hbounds
    simp only [assembled, List.getElem?_toArray, List.getElem?_map, Option.map_eq_some_iff]
      at hrow hvalue
    obtain ⟨e, he, rfl⟩ := hrow
    obtain ⟨e', he', rfl⟩ := hvalue
    rw [he] at he'
    cases he'
    have hfrom := (columnStart_le_iff hsorted he).mp hstart
    have hto := (columnStart_le_iff hsorted he).not.mp (Nat.not_le_of_lt hstop)
    obtain rfl : e.col = c := by omega
    exact he
  · intro he
    have hc : c < cols := (storedEntries_inside h _ (List.mem_of_getElem? he)).2
    have hfrom := (columnStart_le_iff hsorted he).mpr (Nat.le_refl c)
    have hto := (columnStart_le_iff hsorted he).not.mpr (Nat.not_succ_le_self c)
    refine ⟨_, _, assembled_columnBounds? hc, hfrom, Nat.lt_of_not_le hto, ?_, ?_⟩ <;>
      simp [assembled, he]

/-- Different places hold different positions. -/
theorem storedEntries_inj {i j : Nat} {e e' : Entry α} (he : (storedEntries entries)[i]? = some e)
    (he' : (storedEntries entries)[j]? = some e') (hrow : e.row = e'.row) (hcol : e.col = e'.col) :
    i = j := by
  have hsorted := List.pairwise_iff_getElem.mp (storedEntries_pairwise entries)
  obtain ⟨hi, rfl⟩ := List.getElem?_eq_some_iff.mp he
  obtain ⟨hj, rfl⟩ := List.getElem?_eq_some_iff.mp he'
  rcases Nat.lt_trichotomy i j with hlt | heq | hgt
  · have hbefore := hsorted i j hi hj hlt
    unfold Entry.before at hbefore
    omega
  · exact heq
  · have hbefore := hsorted j i hj hi hgt
    unfold Entry.before at hbefore
    omega

/-- Where no position is given twice, every entry that is given is stored. -/
theorem assembled_entryCount? (h : entries.all (Entry.inside rows cols) = true)
    (hsingle : ∀ row col, (entriesAt entries row col).length ≤ 1) :
    (assembled rows cols entries).entryCount? = some entries.length := by
  have hlast := getElem?_starts (storedEntries entries) (Nat.le_refl cols)
  rw [columnStart_cols fun e he => (storedEntries_inside h e he).2,
    length_storedEntries hsingle] at hlast
  simpa [entryCount?, assembled] using hlast

/-! ## Reading -/

/-- **A position holds the sum of the values given for it**, zero if there are none. -/
theorem assembled_entry? {r c : Nat} (hr : r < rows) (hc : c < cols) :
    entry? (assembled rows cols entries) r c = some (some (valueAt entries r c)) := by
  have hbounds : ¬(r ≥ (assembled rows cols entries).rows ∨
      c ≥ (assembled rows cols entries).cols) := by
    show ¬(r ≥ rows ∨ c ≥ cols)
    omega
  have hwindow : ¬(columnStart (storedEntries entries) c > columnStart (storedEntries entries) (c + 1) ∨
      columnStart (storedEntries entries) (c + 1) >
        (assembled rows cols entries).rowIndex.size) := by
    have hle := columnStart_le (storedEntries entries) (Nat.le_add_right c 1)
    have hsize : columnStart (storedEntries entries) (c + 1) ≤ (storedEntries entries).length :=
      List.countP_le_length
    have hrowIndex : (assembled rows cols entries).rowIndex.size = (storedEntries entries).length := by
      simp [assembled]
    omega
  have hincreasing : ((columnOf (storedEntries entries) c).map (·.row)).toArray.toList.Pairwise
      (· < ·) := columnOf_rows_pairwise (storedEntries_pairwise entries) c
  unfold entry?
  simp only [Bool.or_eq_true, decide_eq_true_eq, if_neg hbounds, assembled_columnBounds? hc,
    assembled_rowsBetween, Option.bind_eq_bind, Option.bind_some, if_neg hwindow]
  cases hposition : position? r ((columnOf (storedEntries entries) c).map (·.row)).toArray with
  | some i =>
    have hrow := (position?_eq_some_iff hincreasing).mp hposition
    simp only [List.getElem?_toArray, List.getElem?_map, Option.map_eq_some_iff] at hrow
    obtain ⟨e, he, rfl⟩ := hrow
    obtain ⟨hmem, hcol⟩ := List.mem_filter.mp (List.mem_of_getElem? he)
    rw [beq_iff_eq] at hcol
    subst hcol
    have hvalue := (mem_storedEntries_iff.mp hmem).2
    simp [assembled_getElem?_value he, hvalue]
  | none =>
    have hnone := (position?_eq_none_iff hincreasing).mp hposition
    have hempty : entriesAt entries r c = [] := by
      by_contra hne
      have hmem : (⟨r, c, valueAt entries r c⟩ : Entry α) ∈ storedEntries entries :=
        mem_storedEntries_iff.mpr ⟨hne, rfl⟩
      exact hnone (List.mem_map.mpr ⟨_, List.mem_filter.mpr ⟨hmem, by simp⟩, rfl⟩)
    simp [valueAt, hempty]

end Conic.SparseMatrix
