import Conic.Proofs.Sparse.Assembly
import Conic.Proofs.Sparse.Product

/-!
# Rows of an assembled matrix

The arrays of an assembled matrix hold its stored entries column after column. Read row by row, a row
holds what is stored for it, each column once.

* `SparseMatrix.entries_assembled` — **the arrays hold the stored entries, in their order.**
* `SparseMatrix.rowTerms` — the columns and values of one row.
* `SparseMatrix.rowTerms_perm` — what a row holds, up to the order.
-/

set_option autoImplicit false

namespace Conic.SparseMatrix

variable {α : Type}

/-! ## Columns -/

/-- Reading a list at consecutive places. -/
theorem filterMap_getElem?_range' {β : Type} (l : List β) (start count : Nat) :
    (List.range' start count).filterMap (fun i => l[i]?) = (l.drop start).take count := by
  induction count generalizing start with
  | zero => simp
  | succ count ih =>
    rw [List.range'_succ, List.filterMap_cons, ih]
    by_cases hlt : start < l.length
    · rw [List.getElem?_eq_getElem hlt, List.drop_eq_getElem_cons hlt, List.take_succ_cons]
    · have hle := Nat.le_of_not_lt hlt
      rw [List.getElem?_eq_none hle, List.drop_eq_nil_of_le hle,
        List.drop_eq_nil_of_le (Nat.le_succ_of_le hle), List.take_nil, List.take_nil]

/-- The columns one after the other make up a list that is sorted by columns. -/
theorem flatMap_columnOf {l : List (Entry α)} (hsorted : l.Pairwise Entry.before) {cols : Nat}
    (hcols : ∀ e ∈ l, e.col < cols) : (List.range cols).flatMap (columnOf l) = l := by
  have hfirst : ∀ n, (List.range n).flatMap (columnOf l) = l.filter fun e => e.col < n := by
    intro n
    induction n with
    | zero => simp
    | succ n ih =>
      have hsplit := filter_append_filter_of_pairwise (P := fun e : Entry α => decide (e.col < n))
        ((hsorted.filter fun e => e.col < n + 1).imp fun hbefore => by
          simp only [decide_eq_true_eq]
          unfold Entry.before at hbefore
          omega)
      rw [List.range_succ, List.flatMap_append, ih, List.flatMap_singleton, ← hsplit,
        List.filter_filter, List.filter_filter]
      congr 1
      · refine List.filter_congr fun e _ => ?_
        rw [Bool.eq_iff_iff]
        simp only [Bool.and_eq_true, decide_eq_true_eq]
        omega
      · refine List.filter_congr fun e _ => ?_
        rw [Bool.eq_iff_iff]
        simp only [Bool.and_eq_true, Bool.not_eq_true', decide_eq_true_eq, decide_eq_false_iff_not,
          beq_iff_eq]
        omega
  rw [hfirst, List.filter_eq_self]
  exact fun e he => decide_eq_true (hcols e he)

variable [Scalar α] {rows cols : Nat} {given : List (Entry α)}

theorem columnEntries_assembled {c : Nat} (hc : c < cols) :
    (assembled rows cols given).columnEntries c = columnOf (storedEntries given) c := by
  have hstored : (assembled rows cols given).storedAt? c = fun i =>
      ((storedEntries given)[i]?).map fun e => ⟨e.row, c, e.value⟩ := by
    funext i
    simp only [storedAt?, assembled, List.getElem?_toArray, List.getElem?_map]
    cases (storedEntries given)[i]? <;> rfl
  simp only [columnEntries, assembled_columnBounds? hc, hstored]
  rw [← List.map_filterMap, filterMap_getElem?_range', extract_column (storedEntries_pairwise given)]
  refine (List.map_congr_left fun e he => ?_).trans (List.map_id _)
  obtain rfl : e.col = c := beq_iff_eq.mp (List.mem_filter.mp he).2
  rfl

/-- **The arrays of an assembled matrix hold the stored entries, in their order.** -/
theorem entries_assembled (h : given.all (Entry.inside rows cols) = true) :
    (assembled rows cols given).entries = storedEntries given := by
  have hcolumns : (List.range cols).flatMap (assembled rows cols given).columnEntries =
      (List.range cols).flatMap (columnOf (storedEntries given)) :=
    List.flatMap_congr fun c hc => columnEntries_assembled (List.mem_range.mp hc)
  exact hcolumns.trans (flatMap_columnOf (storedEntries_pairwise given) fun e he =>
    (storedEntries_inside h e he).2)

/-! ## Rows -/

omit [Scalar α]

/-- The entries of row `r`: their columns and values. -/
def rowTerms (l : List (Entry α)) (r : Nat) : List (Nat × α) :=
  (l.filter fun e => e.row == r).map fun e => (e.col, e.value)

theorem mem_rowTerms_iff {l : List (Entry α)} {r c : Nat} {a : α} :
    (c, a) ∈ rowTerms l r ↔ ⟨r, c, a⟩ ∈ l := by
  constructor
  · intro h
    obtain ⟨e, he, heq⟩ := List.mem_map.mp h
    obtain ⟨hmem, hrow⟩ := List.mem_filter.mp he
    obtain rfl : e.row = r := beq_iff_eq.mp hrow
    cases heq
    exact hmem
  · exact fun h => List.mem_map.mpr ⟨_, List.mem_filter.mpr ⟨h, beq_self_eq_true r⟩, rfl⟩

/-- A row holds a column once. -/
theorem rowTerms_nodup {l : List (Entry α)} (hsorted : l.Pairwise Entry.before) (r : Nat) :
    (rowTerms l r).Nodup := by
  rw [rowTerms, List.nodup_iff_pairwise_ne, List.pairwise_map]
  refine (hsorted.filter _).imp_of_mem fun ha hb hbefore heq => ?_
  have ha := beq_iff_eq.mp (List.mem_filter.mp ha).2
  have hb := beq_iff_eq.mp (List.mem_filter.mp hb).2
  have hcol := congrArg Prod.fst heq
  unfold Entry.before at hbefore
  dsimp only at hcol
  omega

/-- A row of the stored entries, up to the order. -/
theorem rowTerms_perm [Scalar α] {r : Nat} {l : List (Nat × α)} (hl : l.Nodup)
    (hmem : ∀ c a, ⟨r, c, a⟩ ∈ storedEntries given ↔ (c, a) ∈ l) :
    (rowTerms (storedEntries given) r).Perm l :=
  (List.perm_ext_iff_of_nodup (rowTerms_nodup (storedEntries_pairwise given) r) hl).mpr
    fun ⟨c, a⟩ => mem_rowTerms_iff.trans (hmem c a)

end Conic.SparseMatrix
