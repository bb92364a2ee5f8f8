import Conic.Sparse.Lookup

/-!
# Searching a column

Halving the window never loses the position that is looked for, as long as the rows increase.

* `SparseMatrix.narrow_eq` — the search ends at the position of the number.
* `SparseMatrix.position?_eq_some_iff`, `SparseMatrix.position?_eq_none_iff` — the answer.
-/

set_option autoImplicit false

namespace Conic.SparseMatrix

variable {x : Nat} {rows : Array Nat}

/-- A window that contains the position of `x` is narrowed down to it. -/
theorem narrow_eq (hrows : rows.toList.Pairwise (· < ·)) {base size i : Nat}
    (hwithin : base + size ≤ rows.size) (hi : rows[i]? = some x) (hlo : base ≤ i)
    (hhi : i < base + size) : narrow x rows base size = i := by
  have hlt : ∀ j k (hj : j < rows.size) (hk : k < rows.size), j < k → rows[j] < rows[k] :=
    List.pairwise_iff_getElem.mp hrows
  obtain ⟨hi', hx⟩ := Array.getElem?_eq_some_iff.mp hi
  induction base, size using narrow.induct x rows with
  | case1 base size hsize =>
    rw [narrow, if_pos hsize]
    omega
  | case2 base size hsize half above ih =>
    have hmid : base + half < rows.size := by omega
    rw [narrow, if_neg hsize]
    by_cases habove : x < rows[base + half]
    · -- The position stands before the middle.
      have hbefore : i < base + half := by
        rcases Nat.lt_or_ge i (base + half) with hlt' | hge
        · exact hlt'
        · rcases Nat.eq_or_lt_of_le hge with he | hgt
          · subst he
            omega
          · have := hlt _ _ hmid hi' hgt
            omega
      have hcond : above = true := by simp [above, hmid, habove]
      rw [dif_pos hcond] at ih
      show narrow x rows (if above then base else base + half) (size - half) = i
      rw [if_pos hcond]
      exact ih (by omega) hlo (by omega)
    · have hafter : base + half ≤ i := by
        rcases Nat.lt_or_ge i (base + half) with hlt' | hge
        · have := hlt _ _ hi' hmid hlt'
          omega
        · exact hge
      have hcond : ¬above = true := by simp [above, hmid, habove]
      rw [dif_neg hcond] at ih
      show narrow x rows (if above then base else base + half) (size - half) = i
      rw [if_neg hcond]
      exact ih (by omega) hafter (by omega)

/-- What is found stands where it was found. -/
theorem getElem?_of_position? {i : Nat} (hi : position? x rows = some i) : rows[i]? = some x := by
  simp only [position?] at hi
  split at hi
  · rename_i hlast
    cases hi
    exact hlast
  · cases hi

theorem position?_eq_some_iff (hrows : rows.toList.Pairwise (· < ·)) {i : Nat} :
    position? x rows = some i ↔ rows[i]? = some x := by
  refine ⟨getElem?_of_position?, fun hi => ?_⟩
  have hlt : i < rows.size := (Array.getElem?_eq_some_iff.mp hi).1
  have hlast : narrow x rows 0 rows.size = i :=
    narrow_eq hrows (by omega) hi (by omega) (by omega)
  simp only [position?, hlast, if_pos hi]

theorem position?_eq_none_iff (hrows : rows.toList.Pairwise (· < ·)) :
    position? x rows = none ↔ x ∉ rows.toList := by
  rw [Option.eq_none_iff_forall_ne_some]
  simp only [ne_eq, position?_eq_some_iff hrows]
  constructor
  · intro h hmem
    obtain ⟨i, hi⟩ := List.mem_iff_getElem?.mp hmem
    exact h i (by simpa using hi)
  · intro h i hi
    exact h (by simpa using Array.mem_of_getElem? hi)

end Conic.SparseMatrix
