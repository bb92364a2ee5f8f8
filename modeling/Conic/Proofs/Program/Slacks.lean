import Conic.Proofs.Program.Export
import Conic.Proofs.Program.Feasible
import Conic.Proofs.Reals
import Conic.Proofs.Sparse.Rows

/-!
# Slacks of the standard form

Over the real numbers, the slacks `b − A·x` of the standard form are what the constraints miss at the
point, negated, followed by the coordinates of the members of the cones.

* `StandardForm.residual?_getElem?` — a slack, from its row of the matrix.
* `Program.exported_rowTerms_constraint`, `Program.exported_rowTerms_cone` — the rows of the export.
* `Program.slacks` — the slacks, written down at once.
* `Program.residual?_exported` — **the export has these slacks.**
-/

set_option autoImplicit false

namespace Conic

open SparseMatrix

/-- A slack is a right-hand side without the row of the matrix. -/
theorem StandardForm.residual?_getElem? {f : StandardForm ℝ} (hA : f.matrix.Formatted) {x : List ℝ}
    (hx : x.length = f.matrix.cols) (hb : f.rhs.length = f.matrix.rows) :
    ∃ s, f.residual? x = some s ∧ ∀ r : Nat, s[r]? = f.rhs[r]?.map fun b =>
      b - ((rowTerms f.matrix.entries r).map fun t => t.2 * x.getD t.1 0).sum := by
  have hstart : startingPoint 1 f.rhs = f.rhs := by
    simp [startingPoint]
  have hfactor : ((-1 : ℝ) == 0) = false := beq_eq_false_iff_ne.mpr (by norm_num)
  refine ⟨_, hA.addProduct?_eq hx 1 hb, fun r => ?_⟩
  rw [hstart, hfactor, if_neg Bool.false_ne_true, Array.getElem?_toList, getElem?_scattered,
    List.getElem?_toArray]
  congr 1
  funext b
  have hterms : ((f.matrix.entries.filter fun e => e.row == r).map fun e =>
      -1 * e.value * x.getD e.col 0) =
        ((rowTerms f.matrix.entries r).map fun t => t.2 * x.getD t.1 0).map fun a => -a := by
    rw [rowTerms, List.map_map, List.map_map]
    refine List.map_congr_left fun e _ => ?_
    simp only [Function.comp_apply]
    ring
  have hsum := foldl_add_eq_sum (fun e : Entry ℝ => -1 * e.value * x.getD e.col 0)
    (f.matrix.entries.filter fun e => e.row == r) b
  rw [hterms, ← List.sum_neg, ← sub_eq_add_neg] at hsum
  exact hsum

namespace Program

variable {p : Program ℝ} {c : ConstraintId} {v : VarId}

/-- The coordinate of the point at a variable. -/
def coordinateOf (p : Program ℝ) (v : VarId) : ℝ :=
  (p.coordinate? v).getD 0

theorem coordinate?_eq_coordinateOf (hpoint : p.point.size = p.vars.size) (hv : v ∈ p.varIds) :
    p.coordinate? v = some (p.coordinateOf v) := by
  obtain ⟨a, ha⟩ := exists_coordinate? hpoint hv
  rw [coordinateOf, ha, Option.getD_some]

/-! ## Rows of the export -/

/-- The row of a constraint holds its terms. -/
theorem exported_rowTerms_constraint {row : Constraint ℝ} (hrow : p.constraint? c = some row) :
    (rowTerms (storedEntries p.matrixEntries) c.index).Perm
      (row.terms.toList.map fun t => (t.1.index, t.2)) := by
  have hinjective : Function.Injective fun t : VarId × ℝ => (t.1.index, t.2) := by
    rintro ⟨⟨i⟩, a⟩ ⟨⟨j⟩, b⟩ htu
    cases htu
    rfl
  have hnodup : (row.terms.toList.map fun t => (t.1.index, t.2)).Nodup :=
    row.terms.nodup.of_map.map hinjective
  refine rowTerms_perm hnodup fun i a => ?_
  have hentries := entriesAt_constraint (mem_constraintIds_iff.mpr ⟨row, hrow⟩) ⟨i⟩
  rw [coefficient?_eq hrow] at hentries
  dsimp only at hentries
  have hterm : (i, a) ∈ row.terms.toList.map (fun t => (t.1.index, t.2)) ↔
      row.terms.coefficient? ⟨i⟩ = some a := by
    rw [Terms.coefficient?_eq_some_iff]
    exact List.mem_map_of_injective hinjective (a := (⟨i⟩, a))
  rw [hterm, mem_storedEntries_iff, valueAt, hentries]
  cases row.terms.coefficient? ⟨i⟩ with
  | none => simp
  | some b => simp [eq_comm]

/-- The row of a cone member repeats it, negated. -/
theorem exported_rowTerms_cone {r : Nat} (hv : p.coneMembers[r]? = some v) :
    (rowTerms (storedEntries p.matrixEntries) (p.constraints.size + r)).Perm [(v.index, -1)] := by
  refine rowTerms_perm (List.nodup_singleton _) fun i a => ?_
  rw [mem_storedEntries_coneRow_iff hv]
  simp

/-! ## The slacks -/

/-- What the constraints miss, negated, and then the coordinates of the members of the cones. -/
def slacks (p : Program ℝ) : List ℝ :=
  (p.constraints.toList.map fun row =>
      row.rhs - (row.terms.toList.map fun t => t.2 * p.coordinateOf t.1).sum) ++
    p.coneMembers.map p.coordinateOf

theorem take_slacks (p : Program ℝ) : p.slacks.take p.constraints.size =
    p.constraints.toList.map fun row =>
      row.rhs - (row.terms.toList.map fun t => t.2 * p.coordinateOf t.1).sum :=
  List.take_left' (by simp)

theorem drop_slacks (p : Program ℝ) :
    p.slacks.drop p.constraints.size = p.coneMembers.map p.coordinateOf :=
  List.drop_left' (by simp)

/-- **The slacks of the export.** -/
theorem Exportable.residual?_exported (h : p.Exportable) (hpoint : p.point.size = p.vars.size) :
    p.exported.residual? p.point.toList = some p.slacks := by
  have hformat : p.exported.matrix.Formatted :=
    formatFault?_eq_none_iff.mp (assembled_formatFault? h.matrixEntries_inside)
  have hentries : p.exported.matrix.entries = storedEntries p.matrixEntries :=
    entries_assembled h.matrixEntries_inside
  obtain ⟨s, hs, hget⟩ := StandardForm.residual?_getElem? hformat (x := p.point.toList)
    (by simpa [exported, assembled] using hpoint) (by simp [exported, assembled])
  rw [hs]
  refine congrArg some (List.ext_getElem? fun r => ?_)
  have hcoordinate : ∀ i, p.point.toList.getD i 0 = p.coordinateOf ⟨i⟩ := fun i => by
    simp [coordinateOf, coordinate?, List.getD_eq_getElem?_getD]
  rw [hget, hentries]
  simp only [hcoordinate]
  rcases Nat.lt_or_ge r p.constraints.size with hr | hr
  · have hrow : p.constraint? ⟨r⟩ = some p.constraints[r] := Array.getElem?_eq_getElem hr
    have hperm := (exported_rowTerms_constraint hrow).map fun t => t.2 * p.coordinateOf ⟨t.1⟩
    rw [hperm.sum_eq, List.map_map]
    simp [exported, slacks, List.getElem?_append_left, hr, Function.comp_def]
  · obtain ⟨k, rfl⟩ := Nat.exists_eq_add_of_le hr
    have hlength := h.partitioned.length_coneMembers
    have hslack : p.slacks[p.constraints.size + k]? = p.coneMembers[k]?.map p.coordinateOf := by
      rw [slacks, List.getElem?_append_right (by simp)]
      simp
    have hrhs : p.exported.rhs[p.constraints.size + k]? = p.coneMembers[k]?.map fun _ => 0 := by
      simp only [exported]
      rw [List.getElem?_append_right (by simp)]
      by_cases hk : k < p.vars.size <;> simp [hk, hlength]
    rw [hslack, hrhs]
    cases hv : p.coneMembers[k]? with
    | none => rfl
    | some v =>
      have hperm := (exported_rowTerms_cone hv).map fun t => t.2 * p.coordinateOf ⟨t.1⟩
      rw [hperm.sum_eq]
      simp

end Program

end Conic
