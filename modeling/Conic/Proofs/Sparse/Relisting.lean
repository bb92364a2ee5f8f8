import Conic.Proofs.Arithmetic
import Conic.Proofs.Sparse.Gathering
import Conic.Proofs.Sparse.Rows

/-!
# Listing the entries of a matrix and assembling them again

Every matrix whose format is accepted can be listed column by column, and what is listed can be
assembled. Acceptance leaves open where the first column begins: the places before it belong to no
column, are never read and do not come back.

* `SparseMatrix.Standard` — the format, with columns that begin where the arrays begin.
* `SparseMatrix.Formatted.exists_owner`, `Formatted.owner_unique` — **a place behind the start of the
  first column belongs to exactly one column.**
* `SparseMatrix.storedEntries_of_pairwise` — entries in order are stored as they are.
* `SparseMatrix.Standard.assembled_entries` — **the arrays of a listed matrix are assembled again.**
* `SparseMatrix.scan_relists` — **what acceptance comes to.**
-/

set_option autoImplicit false

namespace Conic.SparseMatrix

variable {α : Type} {A : SparseMatrix α} {c d i : Nat}

/-! ## Places and columns -/

/-- The data follow the rules of the format, and the columns begin where the arrays begin. -/
structure Standard (A : SparseMatrix α) : Prop extends A.Formatted where
  first : A.colStart[0]? = some 0

/-- Place `i` of the arrays belongs to column `c`. -/
def Owns (A : SparseMatrix α) (c i : Nat) : Prop :=
  ∃ start stop, A.columnBounds? c = some (start, stop) ∧ start ≤ i ∧ i < stop

/-- Where column `c` starts. -/
def startOf (A : SparseMatrix α) (c : Nat) : Nat :=
  A.colStart.getD c 0

theorem startOf_eq {start : Nat} (h : A.colStart[c]? = some start) : A.startOf c = start := by
  rw [startOf, Array.getD_eq_getD_getElem?, h, Option.getD_some]

namespace Formatted

variable (h : A.Formatted)
include h

theorem getElem?_startOf (hc : c ≤ A.cols) : A.colStart[c]? = some (A.startOf c) := by
  have hlt : c < A.colStart.size := by
    rw [h.colStart_size]
    omega
  have hget := Array.getElem?_eq_getElem hlt
  rw [hget, startOf_eq hget]

theorem columnBounds?_startOf (hc : c < A.cols) :
    A.columnBounds? c = some (A.startOf c, A.startOf (c + 1)) :=
  columnBounds?_eq_some_iff.mpr ⟨h.getElem?_startOf (Nat.le_of_lt hc), h.getElem?_startOf hc⟩

theorem startOf_cols : A.startOf A.cols = A.rowIndex.size :=
  startOf_eq h.last

theorem startOf_le (hcd : c ≤ d) (hd : d ≤ A.cols) : A.startOf c ≤ A.startOf d := by
  rcases Nat.eq_or_lt_of_le hcd with rfl | hlt
  · exact Nat.le_refl _
  · obtain ⟨hc', hc⟩ := Array.getElem?_eq_some_iff.mp (h.getElem?_startOf (hcd.trans hd))
    obtain ⟨hd', hd⟩ := Array.getElem?_eq_some_iff.mp (h.getElem?_startOf hd)
    rw [← hc, ← hd]
    exact List.pairwise_iff_getElem.mp h.starts_le c d hc' hd' hlt

theorem owns_iff : A.Owns c i ↔ c < A.cols ∧ A.startOf c ≤ i ∧ i < A.startOf (c + 1) := by
  constructor
  · rintro ⟨start, stop, hbounds, hle, hlt⟩
    have hc := (exists_columnBounds_iff h.colStart_size).mp ⟨start, stop, hbounds⟩
    rw [h.columnBounds?_startOf hc] at hbounds
    cases hbounds
    exact ⟨hc, hle, hlt⟩
  · rintro ⟨hc, hle, hlt⟩
    exact ⟨_, _, h.columnBounds?_startOf hc, hle, hlt⟩

/-- A place belongs to one column at most. -/
theorem owner_unique (hc : A.Owns c i) (hd : A.Owns d i) : c = d := by
  obtain ⟨hc, hcstart, hcstop⟩ := h.owns_iff.mp hc
  obtain ⟨hd, hdstart, hdstop⟩ := h.owns_iff.mp hd
  rcases Nat.lt_trichotomy c d with hlt | heq | hgt
  · have hle : A.startOf (c + 1) ≤ A.startOf d := h.startOf_le hlt (Nat.le_of_lt hd)
    omega
  · exact heq
  · have hle : A.startOf (d + 1) ≤ A.startOf c := h.startOf_le hgt (Nat.le_of_lt hc)
    omega

/-- A place from the start of the first column on belongs to a column. -/
theorem exists_owner (hfirst : A.startOf 0 ≤ i) (hi : i < A.rowIndex.size) : ∃ c, A.Owns c i := by
  -- The owner is the last column that starts at or before the place: induction on a start behind it.
  have hbefore : ∀ n ≤ A.cols, i < A.startOf n → ∃ c, A.Owns c i := by
    intro n hn hlt
    induction n with
    | zero => omega
    | succ n ih =>
      by_cases hle : A.startOf n ≤ i
      · exact ⟨n, h.owns_iff.mpr ⟨hn, hle, hlt⟩⟩
      · exact ih (Nat.le_of_succ_le hn) (Nat.lt_of_not_le hle)
  exact hbefore A.cols (Nat.le_refl _) (by rwa [h.startOf_cols])

theorem startOf_zero_le (hi : A.Owns c i) : A.startOf 0 ≤ i := by
  obtain ⟨hc, hle, _⟩ := h.owns_iff.mp hi
  exact (h.startOf_le (Nat.zero_le c) (Nat.le_of_lt hc)).trans hle

end Formatted

/-! ## Listing -/

theorem col_of_mem_columnEntries {e : Entry α} (he : e ∈ A.columnEntries c) : e.col = c := by
  unfold columnEntries at he
  split at he
  · obtain ⟨i, _, hi⟩ := List.mem_filterMap.mp he
    exact (storedAt?_eq_some_iff.mp hi).2.2
  · cases he

namespace Formatted

variable (h : A.Formatted)
include h

theorem map_row_storedAt? (c i : Nat) :
    (A.storedAt? c i).map (·.row) = A.rowIndex.toList[i]? := by
  have hsize := h.value_size
  by_cases hi : i < A.rowIndex.size
  · simp [storedAt?, hi, hsize]
  · simp [storedAt?, Array.getElem?_eq_none (Nat.le_of_not_lt hi)]

theorem map_value_storedAt? (c i : Nat) :
    (A.storedAt? c i).map (·.value) = A.value.toList[i]? := by
  have hsize := h.value_size
  by_cases hi : i < A.rowIndex.size
  · simp [storedAt?, hi, hsize]
  · simp [storedAt?, hsize, hi]

/-- A part of the entries of a column is a stretch of the array that holds it. -/
theorem map_columnEntries {β : Type} {g : Entry α → β} {l : List β}
    (hg : ∀ c i, (A.storedAt? c i).map g = l[i]?) (hc : c < A.cols) :
    (A.columnEntries c).map g =
      (l.drop (A.startOf c)).take (A.startOf (c + 1) - A.startOf c) := by
  simp only [columnEntries, h.columnBounds?_startOf hc, List.map_filterMap, hg]
  exact filterMap_getElem?_range' l _ _

/-- The columns before `n`, one after the other, make up a stretch as well. -/
theorem map_columns {β : Type} {g : Entry α → β} {l : List β}
    (hg : ∀ c i, (A.storedAt? c i).map g = l[i]?) {n : Nat} (hn : n ≤ A.cols) :
    ((List.range n).flatMap A.columnEntries).map g =
      (l.drop (A.startOf 0)).take (A.startOf n - A.startOf 0) := by
  induction n with
  | zero => simp
  | succ n ih =>
    have hfirst := h.startOf_le (Nat.zero_le n) (Nat.le_of_succ_le hn)
    have hnext := h.startOf_le (Nat.le_succ n) hn
    have hsum : A.startOf (n + 1) - A.startOf 0 =
        (A.startOf n - A.startOf 0) + (A.startOf (n + 1) - A.startOf n) := by
      rw [Nat.succ_eq_add_one] at hnext
      omega
    rw [List.range_succ, List.flatMap_append, List.flatMap_singleton, List.map_append,
      ih (Nat.le_of_succ_le hn), h.map_columnEntries hg hn, hsum, List.take_add, List.drop_drop,
      Nat.add_sub_cancel' hfirst]

theorem length_columns {n : Nat} (hn : n ≤ A.cols) :
    ((List.range n).flatMap A.columnEntries).length = A.startOf n - A.startOf 0 := by
  have hlength := congrArg List.length (h.map_columns h.map_row_storedAt? hn)
  have hle := h.startOf_le hn (Nat.le_refl _)
  rw [h.startOf_cols] at hle
  simp only [List.length_map, List.length_take, List.length_drop, Array.length_toList] at hlength
  omega

theorem columnEntries_pairwise (hc : c < A.cols) :
    (A.columnEntries c).Pairwise Entry.before := by
  have hrows := h.rows_lt (h.columnBounds?_startOf hc)
  rw [rowsBetween, Array.toList_extract, List.extract_eq_take_drop,
    ← h.map_columnEntries h.map_row_storedAt? hc, List.pairwise_map] at hrows
  refine hrows.imp_of_mem fun ha hb hlt => Or.inr ⟨?_, hlt⟩
  rw [col_of_mem_columnEntries ha, col_of_mem_columnEntries hb]

/-- **The entries are listed in the order of storage.** -/
theorem entries_pairwise : A.entries.Pairwise Entry.before := by
  refine List.pairwise_flatMap.mpr ⟨fun c hc => h.columnEntries_pairwise (List.mem_range.mp hc), ?_⟩
  refine List.pairwise_lt_range.imp fun hlt a ha b hb => Or.inl ?_
  rwa [col_of_mem_columnEntries ha, col_of_mem_columnEntries hb]

/-- Before column `c` stand as many entries as there are places up to its start. -/
theorem columnStart_entries (hc : c ≤ A.cols) :
    columnStart A.entries c = A.startOf c - A.startOf 0 := by
  have hsplit : List.range A.cols = List.range c ++ (List.range (A.cols - c)).map (c + ·) := by
    rw [← List.range_add, Nat.add_sub_cancel' hc]
  -- Entries carry the number of their column, so that those of the first `c` columns are counted.
  have hearlier : ((List.range c).flatMap A.columnEntries).countP (fun e => e.col < c) =
      ((List.range c).flatMap A.columnEntries).length := by
    refine List.countP_eq_length.mpr fun e he => ?_
    obtain ⟨d, hd, he⟩ := List.mem_flatMap.mp he
    rw [col_of_mem_columnEntries he]
    exact decide_eq_true (List.mem_range.mp hd)
  have hlater : (((List.range (A.cols - c)).map (c + ·)).flatMap A.columnEntries).countP
      (fun e => e.col < c) = 0 := by
    refine List.countP_eq_zero.mpr fun e he hlt => ?_
    obtain ⟨d, hd, he⟩ := List.mem_flatMap.mp he
    obtain ⟨j, _, rfl⟩ := List.mem_map.mp hd
    rw [col_of_mem_columnEntries he, decide_eq_true_eq] at hlt
    omega
  rw [columnStart, entries, hsplit, List.flatMap_append, List.countP_append, hearlier, hlater,
    h.length_columns hc, Nat.add_zero]

theorem entries_inside : A.entries.all (Entry.inside A.rows A.cols) = true := by
  refine all_inside_iff.mpr fun e he => ?_
  obtain ⟨c, hc, he⟩ := List.mem_flatMap.mp he
  refine ⟨?_, col_of_mem_columnEntries he ▸ List.mem_range.mp hc⟩
  have hrow : e.row ∈ (A.columnEntries c).map (·.row) := List.mem_map_of_mem he
  rw [h.map_columnEntries h.map_row_storedAt? (List.mem_range.mp hc)] at hrow
  exact h.row_lt _ (Array.mem_toList_iff.mp (List.mem_of_mem_drop (List.mem_of_mem_take hrow)))

end Formatted

/-! ## Assembling what is listed -/

theorem Entry.before_irrefl (a : Entry α) : ¬a.before a := by
  unfold Entry.before
  omega

theorem Entry.not_before {a b : Entry α} (h : a.before b) : ¬b.before a := by
  unfold Entry.before at h ⊢
  omega

theorem nodup_of_pairwise {l : List (Entry α)} (hl : l.Pairwise Entry.before) : l.Nodup := by
  refine List.nodup_iff_pairwise_ne.mpr (hl.imp fun {a b} hbefore heq => ?_)
  rw [heq] at hbefore
  exact b.before_irrefl hbefore

/-- Entries in order that are the same ones stand at the same places. -/
theorem eq_of_pairwise {l l' : List (Entry α)} (hl : l.Pairwise Entry.before)
    (hl' : l'.Pairwise Entry.before) (hmem : ∀ e, e ∈ l ↔ e ∈ l') : l = l' :=
  List.Perm.eq_of_pairwise (fun _ _ _ _ hab hba => absurd hba (Entry.not_before hab)) hl hl'
    ((List.perm_ext_iff_of_nodup (nodup_of_pairwise hl) (nodup_of_pairwise hl')).mpr hmem)

/-- Of entries in order, no other one stands at the position of a given one. -/
theorem entriesAt_of_pairwise {l : List (Entry α)} (hl : l.Pairwise Entry.before) {e : Entry α}
    (he : e ∈ l) : entriesAt l e.row e.col = [e] := by
  obtain ⟨pre, post, rfl⟩ := List.append_of_mem he
  rw [List.pairwise_append, List.pairwise_cons] at hl
  obtain ⟨_, ⟨hpost, _⟩, hpre⟩ := hl
  have hother : ∀ part : List (Entry α), (∀ a ∈ part, a.before e ∨ e.before a) →
      part.filter (Entry.standsAt e.row e.col) = [] := by
    intro part hpart
    refine List.filter_eq_nil_iff.mpr fun a ha hstands => ?_
    have hposition := Entry.standsAt_iff.mp hstands
    have hbefore := hpart a ha
    unfold Entry.before at hbefore
    omega
  rw [entriesAt, List.filter_append, List.filter_cons_of_pos (by simp [Entry.standsAt]),
    hother pre fun a ha => Or.inl (hpre a ha e List.mem_cons_self),
    hother post fun a ha => Or.inr (hpost a ha), List.nil_append]

/-- The arrays of a matrix whose columns begin with them are what is listed, part by part. -/
theorem Standard.map_entries (h : A.Standard) {β : Type} {g : Entry α → β} {l : List β}
    (hlength : l.length = A.rowIndex.size) (hg : ∀ c i, (A.storedAt? c i).map g = l[i]?) :
    A.entries.map g = l := by
  rw [entries, h.map_columns hg (Nat.le_refl _), startOf_eq h.first, h.startOf_cols, List.drop_zero,
    Nat.sub_zero, ← hlength, List.take_length]

variable [Scalar α]

/-- Entries that stand in order are stored as they are, each added to zero. -/
theorem storedEntries_of_pairwise {l : List (Entry α)} (hl : l.Pairwise Entry.before) :
    storedEntries l = l.map fun e => { e with value := 0 + e.value } := by
  have hvalue : ∀ e ∈ l, valueAt l e.row e.col = 0 + e.value := by
    intro e he
    rw [valueAt, entriesAt_of_pairwise hl he]
    rfl
  -- Both lists are in strict order, so that it is enough to compare their members.
  refine eq_of_pairwise (storedEntries_pairwise l) (List.pairwise_map.mpr hl) fun e => ?_
  rw [mem_storedEntries_iff, entriesAt_ne_nil_iff, List.mem_map]
  constructor
  · rintro ⟨⟨a, ha, hrow, hcol⟩, hsum⟩
    rw [← hrow, ← hcol, hvalue a ha] at hsum
    exact ⟨a, ha, by rw [hrow, hcol, ← hsum]⟩
  · rintro ⟨a, ha, rfl⟩
    exact ⟨⟨a, ha, rfl, rfl⟩, (hvalue a ha).symm⟩

/-- **A matrix whose columns begin with its arrays is assembled again from its entries**, each value
added to zero. -/
theorem Standard.assembled_entries (h : A.Standard) :
    assembled A.rows A.cols A.entries = { A with value := A.value.map (0 + ·) } := by
  have hzero : A.startOf 0 = 0 := startOf_eq h.first
  have hstored := storedEntries_of_pairwise h.entries_pairwise
  have hrows := h.map_entries (by simp) h.map_row_storedAt?
  have hvalues := h.map_entries (by simp [h.value_size]) h.map_value_storedAt?
  have hstarts : (starts A.cols (storedEntries A.entries)).toArray = A.colStart := by
    refine Array.ext_getElem? fun c => ?_
    rw [List.getElem?_toArray]
    by_cases hc : c ≤ A.cols
    · have hcount : columnStart (storedEntries A.entries) c = columnStart A.entries c := by
        rw [hstored, columnStart, List.countP_map]
        rfl
      rw [getElem?_starts _ hc, hcount, h.columnStart_entries hc, hzero, Nat.sub_zero,
        h.getElem?_startOf hc]
    · rw [List.getElem?_eq_none (by rw [length_starts]; omega),
        Array.getElem?_eq_none (by rw [h.colStart_size]; omega)]
  have hrowIndex : ((storedEntries A.entries).map (·.row)).toArray = A.rowIndex := by
    rw [hstored, List.map_map]
    exact congrArg List.toArray hrows
  have hvalue : ((storedEntries A.entries).map (·.value)).toArray = A.value.map (0 + ·) := by
    have hsums : A.entries.map (fun e => 0 + e.value) = A.value.toList.map (0 + ·) := by
      rw [← hvalues, List.map_map]
      rfl
    have hadded : A.value.map (0 + ·) = (A.value.toList.map (0 + ·)).toArray := by
      rw [← Array.toList_map, Array.toArray_toList]
    rw [hstored, List.map_map, hadded, ← hsums]
    rfl
  simp only [assembled, hstarts, hrowIndex, hvalue]

/-- Values that are all defined are not changed when they are added to zero. -/
theorem beq_zero_add [LawfulScalar α] {values : Array α}
    (h : ∀ a ∈ values, Scalar.isNaN a = false) : (values.map (0 + ·) == values) = true := by
  refine Array.isEqv_iff_rel.mpr ⟨by simp, fun i hi => ?_⟩
  rw [Array.size_map] at hi
  have hdefined := h values[i] (Array.getElem_mem _)
  rw [Array.getElem_map]
  rcases LawfulScalar.zero_add values[i] with hequal | ⟨_, hnan⟩
  · exact hequal
  · rw [hdefined] at hnan
    cases hnan

theorem beq_iff {A B : SparseMatrix α} : (A == B) = true ↔ A.rows = B.rows ∧ A.cols = B.cols ∧
    A.colStart = B.colStart ∧ A.rowIndex = B.rowIndex ∧ (A.value == B.value) = true := by
  obtain ⟨_, _, _, _, _⟩ := A
  obtain ⟨_, _, _, _, _⟩ := B
  show instBEqSparseMatrix.beq _ _ = true ↔ _
  simp only [instBEqSparseMatrix.beq, Bool.and_eq_true, beq_iff_eq]

/-- The matrix is equal to the one that is assembled from its entries, unless places stand before its
first column. -/
theorem Formatted.assembled_beq_iff [LawfulScalar α] (h : A.Formatted)
    (hdefined : ∀ a ∈ A.value, Scalar.isNaN a = false) :
    (assembled A.rows A.cols A.entries == A) = true ↔ A.colStart[0]? = some 0 := by
  constructor
  · intro hequal
    rw [← (beq_iff.mp hequal).2.2.1]
    exact (assembled_gathers h.entries_inside).first
  · intro hfirst
    rw [Standard.assembled_entries ⟨h, hfirst⟩]
    exact beq_iff.mpr ⟨rfl, rfl, rfl, rfl, beq_zero_add hdefined⟩

/-! ## Acceptance -/

/-- **What acceptance comes to, whatever the data are.** The accepted matrices are those whose data
follow the rules; they are the standard ones where the first column starts at place 0. Every place from
the start of the first column on belongs to one column, and the places before it belong to none. What
is listed column by column can be assembled, into a standard matrix. Where no value is undefined, this
matrix is equal to the given one exactly if the first column starts at place 0. -/
theorem scan_relists [LawfulScalar α] (A : SparseMatrix α) :
    (A.scan = .ok () ↔ A.Formatted) ∧
    (A.Standard ↔ A.scan = .ok () ∧ A.colStart[0]? = some 0) ∧
    (A.scan = .ok () → ∃ first B, A.colStart[0]? = some first ∧
      (∀ i < A.value.size, first ≤ i → ∃! c, A.Owns c i) ∧ (∀ c, ∀ i < first, ¬A.Owns c i) ∧
      assembleInPlace A.rows A.cols A.entries = .ok B ∧ B.Standard ∧
      ((∀ a ∈ A.value, Scalar.isNaN a = false) → ((B == A) = true ↔ first = 0))) := by
  refine ⟨scan_eq_ok_iff, ?_, fun haccepted => ?_⟩
  · rw [scan_eq_ok_iff]
    exact ⟨fun h => ⟨h.toFormatted, h.first⟩, fun h => ⟨h.1, h.2⟩⟩
  · have h := scan_eq_ok_iff.mp haccepted
    have hinside := h.entries_inside
    have hgathers := assembled_gathers hinside
    have hfirst := h.getElem?_startOf (Nat.zero_le A.cols)
    refine ⟨A.startOf 0, assembled A.rows A.cols A.entries, hfirst, ?_, ?_, ?_, ?_, ?_⟩
    · intro i hi hle
      obtain ⟨c, hc⟩ := h.exists_owner hle (h.value_size ▸ hi)
      exact ⟨c, hc, fun d hd => h.owner_unique hd hc⟩
    · intro c i hi howns
      have hle := h.startOf_zero_le howns
      omega
    · rw [assembleInPlace_eq, ofEntries_eq hinside]
    · exact ⟨scan_eq_ok_iff.mp hgathers.accepted, hgathers.first⟩
    · intro hdefined
      rw [h.assembled_beq_iff hdefined, hfirst, Option.some_inj]

/-- A square with three entries, whose first column begins at place 0. -/
def lowerTriangle : SparseMatrix ℚ := ⟨2, 2, #[0, 2, 3], #[0, 1, 1], #[1, 2, 3]⟩

theorem scan_relists_lowerTriangle : lowerTriangle.Standard ∧
    (∀ i < 3, ∃! c, lowerTriangle.Owns c i) ∧
    ∃ B, assembleInPlace 2 2 lowerTriangle.entries = .ok B ∧ (B == lowerTriangle) = true := by
  have haccepted : lowerTriangle.scan = .ok () :=
    scan_eq_ok_iff.mpr (formatFault?_eq_none_iff.mp (by decide +kernel))
  obtain ⟨_, hstandard, hrest⟩ := scan_relists lowerTriangle
  obtain ⟨first, B, hfirst, howned, _, hassembled, _, hequal⟩ := hrest haccepted
  cases hfirst
  exact ⟨hstandard.mpr ⟨haccepted, rfl⟩, fun i hi => howned i hi (Nat.zero_le i), B, hassembled,
    (hequal fun _ _ => rfl).mpr rfl⟩

/-- A matrix of one column, which begins behind the first of two entries. -/
def skippedEntry : SparseMatrix ℚ := ⟨1, 1, #[1, 2], #[0, 0], #[3, 4]⟩

/-- **Columns need not begin with the arrays to be accepted.** The first of the two entries that are
counted belongs to no column, and assembling what is listed loses it. -/
theorem skippedEntry_scan : skippedEntry.scan = .ok () ∧ ¬skippedEntry.Standard ∧
    skippedEntry.entryCount? = some 2 ∧ (¬∃ c, skippedEntry.Owns c 0) ∧
    skippedEntry.entries = [⟨0, 0, 4⟩] ∧
    ∃ B, assembleInPlace 1 1 skippedEntry.entries = .ok B ∧ (B == skippedEntry) = false := by
  have h : skippedEntry.Formatted := formatFault?_eq_none_iff.mp (by decide +kernel)
  refine ⟨scan_eq_ok_iff.mpr h, fun hstandard => absurd hstandard.first (by decide), rfl, ?_, rfl, ?_⟩
  · rintro ⟨c, howns⟩
    exact absurd (h.startOf_zero_le howns) (by decide)
  · refine ⟨_, (assembleInPlace_eq 1 1 _).trans (ofEntries_eq h.entries_inside), ?_⟩
    refine Bool.eq_false_iff.mpr fun hequal => ?_
    exact absurd ((h.assembled_beq_iff fun _ _ => rfl).mp hequal) (by decide)

end Conic.SparseMatrix
