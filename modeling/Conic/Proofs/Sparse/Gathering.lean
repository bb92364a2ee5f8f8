import Conic.Proofs.Sparse.Assembly
import Conic.Proofs.Sparse.Scan

/-!
# What an assembly gathers

The assembly counts the entries of each column and adds the counts up where they stand. Everything
that it makes sure of along the way holds, so that two things can stop it: an entry outside the matrix,
and columns so many that no list can hold their starts.

* `SparseMatrix.startsInPlace_eq` — **counts that are added up in place become the column starts.**
* `SparseMatrix.assembleInPlace_eq` — **the assembly by position is the assembly.**
* `SparseMatrix.Gathers` — the matrix stores the positions that are given, each once, with the sum of
  what is given for it.
* `SparseMatrix.assemble_gathers` — **an assembly gathers its entries, unless one of them lies outside
  or the columns are too many.**
* `SparseMatrix.assemble_tooWide` — no entry lies outside, and still there is no answer.
-/

set_option autoImplicit false

namespace Conic.SparseMatrix

variable {α : Type}

/-! ## Column starts -/

/-- The numbers `f 0`, …, `f (n - 1)`. -/
def tabulated (n : Nat) (f : Nat → Nat) : Array Nat :=
  (Array.range n).map f

theorem numberAt_tabulated {n i : Nat} (f : Nat → Nat) (hi : i < n) :
    numberAt (tabulated n f) i = .ok (f i) := by
  simp [numberAt, tabulated, hi]

/-- One number of a table is set. -/
theorem setIfInBounds_tabulated {n i b : Nat} {f g : Nat → Nat} (hi : g i = b)
    (hne : ∀ j, j ≠ i → g j = f j) : (tabulated n f).setIfInBounds i b = tabulated n g := by
  apply Array.ext_getElem?
  intro j
  rw [Array.getElem?_setIfInBounds]
  by_cases hij : i = j
  · subst hij
    by_cases hin : i < n <;> simp [tabulated, hin, hi]
  · rw [if_neg hij]
    by_cases hjn : j < n <;> simp [tabulated, hjn, hne j (Ne.symm hij)]

/-- How many entries are counted at place `i`, one behind their column. -/
def countAt (stored : List (Entry α)) (i : Nat) : Nat :=
  stored.countP fun e => e.col + 1 == i

theorem columnStart_add_countAt (stored : List (Entry α)) (c : Nat) :
    countAt stored (c + 1) + columnStart stored c = columnStart stored (c + 1) := by
  rw [columnStart_succ, Nat.add_comm, countAt]
  congr 2
  funext e
  simp [Bool.beq_eq_decide_eq]

variable {cols : Nat} {stored : List (Entry α)}

/-- Counting one entry more. -/
theorem countEntry_countAt {pre : List (Entry α)} {e : Entry α} (he : e.col < cols) :
    countEntry (tabulated (cols + 1) (countAt pre)) e =
      .ok (tabulated (cols + 1) (countAt (pre ++ [e]))) := by
  rw [countEntry, numberAt_tabulated _ (Nat.succ_lt_succ he), Checked.ok_bind]
  refine congrArg Except.ok (setIfInBounds_tabulated ?_ fun j hj => ?_)
  · simp [countAt]
  · simp [countAt, Ne.symm hj]

theorem foldlM_countEntry (h : ∀ e ∈ stored, e.col < cols) :
    stored.foldlM countEntry (Array.replicate (cols + 1) 0) =
      .ok (tabulated (cols + 1) (countAt stored)) := by
  have hzero : Array.replicate (cols + 1) 0 = tabulated (cols + 1) (countAt ([] : List (Entry α))) := by
    apply Array.ext_getElem?
    intro i
    by_cases hi : i < cols + 1 <;> simp [tabulated, countAt, hi]
  rw [hzero]
  exact foldlM_stages (fun pre => tabulated (cols + 1) (countAt pre)) fun pre e post hsplit =>
    countEntry_countAt (h e (hsplit ▸ List.mem_append_right pre List.mem_cons_self))

/-- The numbers of the array after the first `c` additions: starts up to place `c`, counts behind. -/
def carried (stored : List (Entry α)) (c i : Nat) : Nat :=
  if i ≤ c then columnStart stored i else countAt stored i

/-- One addition more. -/
theorem carry_carried {c : Nat} (hc : c < cols) :
    carry (tabulated (cols + 1) (carried stored c)) c =
      .ok (tabulated (cols + 1) (carried stored (c + 1))) := by
  rw [carry, numberAt_tabulated _ (Nat.succ_lt_succ hc), Checked.ok_bind,
    numberAt_tabulated _ (Nat.lt_succ_of_lt hc), Checked.ok_bind]
  refine congrArg Except.ok (setIfInBounds_tabulated ?_ fun j hj => ?_)
  · simp only [carried, Nat.le_refl, if_true, if_neg (Nat.not_succ_le_self _),
      columnStart_add_countAt]
  · unfold carried
    split <;> split <;> first | rfl | omega

theorem foldlM_carry {n : Nat} (hn : n ≤ cols) :
    (List.range n).foldlM carry (tabulated (cols + 1) (countAt stored)) =
      .ok (tabulated (cols + 1) (carried stored n)) := by
  induction n with
  | zero =>
    have hfirst : countAt stored = carried stored 0 := by
      funext i
      cases i <;> simp [carried, countAt, columnStart]
    rw [← hfirst]
    rfl
  | succ n ih =>
    rw [List.range_succ, List.foldlM_append, ih (Nat.le_of_succ_le hn), Checked.ok_bind,
      List.foldlM_cons, carry_carried hn]
    rfl

/-- **Counts that are added up where they stand become the starts of the columns.** -/
theorem startsInPlace_eq (h : ∀ e ∈ stored, e.col < cols) :
    startsInPlace cols stored = .ok (starts cols stored).toArray := by
  have hstarts : tabulated (cols + 1) (carried stored cols) = (starts cols stored).toArray := by
    apply Array.ext_getElem?
    intro i
    by_cases hi : i ≤ cols
    · simp [tabulated, carried, getElem?_starts stored hi, hi, Nat.lt_succ_of_le hi]
    · rw [Array.getElem?_eq_none (by simp [tabulated]; omega),
        Array.getElem?_eq_none (by simp [length_starts]; omega)]
  rw [startsInPlace, foldlM_countEntry h, Checked.ok_bind, foldlM_carry le_rfl, hstarts]

/-! ## The assembly -/

variable [Scalar α] {rows : Nat} {entries : List (Entry α)}

/-- **The assembly by position is the assembly**: nothing is out of range, and the checks that it
makes of its own result are passed. -/
theorem assembleInPlace_eq (rows cols : Nat) (entries : List (Entry α)) :
    assembleInPlace rows cols entries = ofEntries rows cols entries := by
  cases hinside : entries.all (Entry.inside rows cols) with
  | false => simp [assembleInPlace, ofEntries, hinside]
  | true =>
    have hcols : ∀ e ∈ storedEntries entries, e.col < cols := fun e he =>
      (storedEntries_inside hinside e he).2
    rw [ofEntries_eq hinside]
    simp only [assembleInPlace, hinside, require_true, Checked.ok_bind, startsInPlace_eq hcols,
      ofParts?_assembled hinside, Checked.found_some, scan_eq, assembled_formatFault? hinside]
    rfl

/-- The matrix has the given size and follows the format. It stores the positions for which something
is given, each at one place and with the sum of what is given for it, in the given order and from
zero; so a look-up inside the matrix has this sum, which is zero where nothing is given. -/
structure Gathers (A : SparseMatrix α) (rows cols : Nat) (entries : List (Entry α)) : Prop where
  size : A.rows = rows ∧ A.cols = cols
  accepted : A.scan = .ok ()
  first : A.colStart[0]? = some 0
  place : ∀ i < A.rowIndex.size, ∃ row col, A.StoresAt i row col (valueAt entries row col)
  stored : ∀ row col, (∃ i a, A.StoresAt i row col a) ↔ ∃ e ∈ entries, e.row = row ∧ e.col = col
  once : ∀ {i j row col a b}, A.StoresAt i row col a → A.StoresAt j row col b → i = j ∧ a = b
  entry : ∀ {row col}, row < rows → col < cols →
    A.entry? row col = some (some (valueAt entries row col))
  outside : ∀ {row col}, ¬(row < rows ∧ col < cols) → A.entry? row col = some none

theorem assembled_gathers (h : entries.all (Entry.inside rows cols) = true) :
    (assembled rows cols entries).Gathers rows cols entries where
  size := ⟨rfl, rfl⟩
  accepted := by rw [scan_eq, assembled_formatFault? h]
  first := by
    simp only [assembled, List.getElem?_toArray, getElem?_starts _ (Nat.zero_le cols),
      columnStart_zero]
  place i hi := by
    have hi' : i < (storedEntries entries).length := by simpa [assembled] using hi
    have hstored := List.getElem?_eq_getElem hi'
    have hvalue := (mem_storedEntries_iff.mp (List.getElem_mem hi')).2
    refine ⟨(storedEntries entries)[i].row, (storedEntries entries)[i].col, ?_⟩
    rw [assembled_storesAt_iff h, ← hvalue, hstored]
  stored row col := by
    simp only [assembled_storesAt_iff h]
    constructor
    · rintro ⟨i, a, hi⟩
      exact entriesAt_ne_nil_iff.mp (mem_storedEntries_iff.mp (List.mem_of_getElem? hi)).1
    · intro hgiven
      have hmem : (⟨row, col, valueAt entries row col⟩ : Entry α) ∈ storedEntries entries :=
        mem_storedEntries_iff.mpr ⟨entriesAt_ne_nil_iff.mpr hgiven, rfl⟩
      obtain ⟨i, hi⟩ := List.mem_iff_getElem?.mp hmem
      exact ⟨i, _, hi⟩
  once hi hj := by
    rw [assembled_storesAt_iff h] at hi hj
    obtain rfl := storedEntries_inj hi hj rfl rfl
    rw [hi] at hj
    cases hj
    exact ⟨rfl, rfl⟩
  entry hrow hcol := assembled_entry? hrow hcol
  outside {row col} hout := by
    have hbounds : row ≥ (assembled rows cols entries).rows ∨
        col ≥ (assembled rows cols entries).cols := by
      show row ≥ rows ∨ col ≥ cols
      omega
    unfold entry?
    simp [hbounds]

omit [Scalar α] in
theorem exists_outside (h : entries.all (Entry.inside rows cols) = false) :
    ∃ e ∈ entries, rows ≤ e.row ∨ cols ≤ e.col := by
  by_contra hnone
  push Not at hnone
  rw [all_inside_iff.mpr hnone] at h
  cases h

theorem assembleInPlace_of_outside (h : entries.all (Entry.inside rows cols) = false) :
    assembleInPlace rows cols entries = .error (.refused .incompatibleLengths) := by
  simp [assembleInPlace, h]

/-- The assembly of any size is the one by position, unless the columns of a matrix that could be
assembled are too many. -/
theorem assemble_eq (h : entries.all (Entry.inside rows cols) = false ∨ cols < maxLength) :
    assemble rows cols entries = assembleInPlace rows cols entries := by
  rw [assembleInPlace_eq, assemble, if_neg]
  rw [Bool.and_eq_true, decide_eq_true_eq]
  rintro ⟨hinside, hlarge⟩
  rcases h with houtside | hsmall
  · rw [hinside] at houtside
    cases houtside
  · omega

theorem assemble_of_maxLength_le (h : entries.all (Entry.inside rows cols) = true)
    (hlarge : maxLength ≤ cols) : assemble rows cols entries = .error .outOfRange := by
  simp [assemble, h, hlarge]

/-- **An assembly is refused exactly when one of its entries lies outside the matrix.** Otherwise it
has no answer when no list is long enough for the starts of the columns, and gathers the entries when
there is one. Then it is also what the assembly by position comes to, whose positions all exist and
whose checks of its own result are all passed. -/
theorem assemble_gathers (rows cols : Nat) (entries : List (Entry α)) :
    ((∃ e ∈ entries, rows ≤ e.row ∨ cols ≤ e.col) ∧
        assemble rows cols entries = .error (.refused .incompatibleLengths)) ∨
      (∀ e ∈ entries, e.row < rows ∧ e.col < cols) ∧
        (maxLength ≤ cols ∧ assemble rows cols entries = .error .outOfRange ∨
          cols < maxLength ∧ ∃ A, assemble rows cols entries = .ok A ∧
            assembleInPlace rows cols entries = .ok A ∧ A.Gathers rows cols entries) := by
  cases hinside : entries.all (Entry.inside rows cols) with
  | false =>
    refine Or.inl ⟨exists_outside hinside, ?_⟩
    rw [assemble_eq (Or.inl hinside), assembleInPlace_of_outside hinside]
  | true =>
    refine Or.inr ⟨all_inside_iff.mp hinside, ?_⟩
    rcases Nat.lt_or_ge cols maxLength with hsmall | hlarge
    · have hassembled : assembleInPlace rows cols entries = .ok (assembled rows cols entries) :=
        (assembleInPlace_eq rows cols entries).trans (ofEntries_eq hinside)
      exact Or.inr ⟨hsmall, _, (assemble_eq (Or.inr hsmall)).trans hassembled, hassembled,
        assembled_gathers hinside⟩
    · exact Or.inl ⟨hlarge, assemble_of_maxLength_le hinside hlarge⟩

/-- **Entries that all lie inside may still not be assembled.** There are none here, and the columns are
as many as sixty-four bits can count: their starts are one more. -/
theorem assemble_tooWide :
    (∀ e ∈ ([] : List (Entry Rat)), e.row < 0 ∧ e.col < 2 ^ 64 - 1) ∧
      assemble 0 (2 ^ 64 - 1) ([] : List (Entry Rat)) = .error .outOfRange ∧
      ¬∃ A, assemble 0 (2 ^ 64 - 1) ([] : List (Entry Rat)) = .ok A := by
  have hnone : assemble 0 (2 ^ 64 - 1) ([] : List (Entry Rat)) = .error .outOfRange :=
    assemble_of_maxLength_le rfl (by decide)
  refine ⟨by simp, hnone, fun ⟨A, hA⟩ => ?_⟩
  rw [hnone] at hA
  cases hA

end Conic.SparseMatrix
