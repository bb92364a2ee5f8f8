import Mathlib.Algebra.BigOperators.Intervals
import Mathlib.Tactic.Linarith
import Conic.Proofs.Program.Feasible
import Conic.Proofs.Program.StandardForm
import Conic.Proofs.Sparse.Dense

/-!
# Optimal triples of a standard form

A triple of a point, slacks and multipliers that meets the optimality conditions of a standard form
over the rationals, read back in terms of the program that was exported.

* `StandardForm.Optimal` — feasibility, stationarity, signs and complementarity.
* `StandardForm.Stationary` — stationarity alone.
* `Program.rowValue`, `Program.coneValue` — the multiplier of a constraint and the dual value of a
  variable.
* `Program.stationary_coneValue` — **dual values are reduced costs.**
* `Program.optimal_rowAt`, `Program.optimal_complementary` — **what the other conditions say about the
  program.**
-/

set_option autoImplicit false

namespace Conic

/-- The optimality conditions of a standard form without second-order blocks: `A·x + s = b` with
`s` zero on the equality rows and nonnegative on the others, `q + Aᵀ·z = 0` with `z` nonnegative on
the other rows, and `s·z = 0`. -/
structure StandardForm.Optimal (f : StandardForm ℚ) (x s z : List ℚ) : Prop where
  length_x : x.length = f.cost.length
  length_s : s.length = f.rhs.length
  length_z : z.length = f.rhs.length
  primal : ∀ i < f.rhs.length,
    ∑ j ∈ Finset.range f.cost.length, f.matrix.at i j * x.getD j 0 + s.getD i 0 = f.rhs.getD i 0
  stationary : ∀ j < f.cost.length,
    f.cost.getD j 0 + ∑ i ∈ Finset.range f.rhs.length, f.matrix.at i j * z.getD i 0 = 0
  slack_zero : ∀ i < f.equalities, s.getD i 0 = 0
  slack_nonneg : ∀ i < f.rhs.length, f.equalities ≤ i → 0 ≤ s.getD i 0
  multiplier_nonneg : ∀ i < f.rhs.length, f.equalities ≤ i → 0 ≤ z.getD i 0
  complementary : ∑ i ∈ Finset.range f.rhs.length, s.getD i 0 * z.getD i 0 = 0

/-- The multipliers `z` of the rows make up for the costs: `q + Aᵀ·z = 0`. -/
def StandardForm.Stationary (f : StandardForm ℚ) (z : List ℚ) : Prop :=
  ∀ j < f.cost.length,
    f.cost.getD j 0 + ∑ i ∈ Finset.range f.rhs.length, f.matrix.at i j * z.getD i 0 = 0

namespace Program

open SparseMatrix

variable {p : Program ℚ} {c : ConstraintId} {v : VarId}

/-! ## The numbers of the export -/

theorem exported_cost_getD (p : Program ℚ) (v : VarId) :
    p.exported.cost.getD v.index 0 = p.costOf v := by
  simp [exported, costOf, var?, List.getD_eq_getElem?_getD]

theorem exported_rhs_getD_constraint (hc : c ∈ p.constraintIds) :
    p.exported.rhs.getD c.index 0 = p.rhsOf c := by
  have hlt := index_of_mem_constraintIds hc
  simp [exported, rhsOf, constraint?, List.getD_eq_getElem?_getD, List.getElem?_append_left, hlt]

theorem exported_rhs_getD_cone (p : Program ℚ) (r : Nat) :
    p.exported.rhs.getD (p.constraints.size + r) 0 = 0 := by
  simp only [exported, List.getD_eq_getElem?_getD]
  rw [List.getElem?_append_right (by simp)]
  rw [List.getElem?_replicate]
  split <;> rfl

/-- The matrix adds up the entries at a position. -/
theorem exported_at {i j : Nat} (hi : i < p.constraints.size + p.vars.size) (hj : j < p.vars.size) :
    p.exported.matrix.at i j = valueAt p.matrixEntries i j := by
  have hentry : p.exported.matrix.entry? i j = _ := assembled_entry? hi hj
  rw [SparseMatrix.at, hentry]

/-- The matrix holds the coefficients of the constraints. -/
theorem exported_at_constraint (hc : c ∈ p.constraintIds) (hv : v ∈ p.varIds) :
    p.exported.matrix.at c.index v.index = p.entry c v := by
  rw [SparseMatrix.at, exported_entry? hc hv, entry]
  cases p.coefficient? c v with
  | none => rfl
  | some a => exact zero_add a

/-- Each row of a cone member holds a single −1. -/
theorem exported_at_cone {r : Nat} (hr : r < p.vars.size) (hv : v ∈ p.varIds) :
    p.exported.matrix.at (p.constraints.size + r) v.index =
      if p.coneMembers[r]? = some v then -1 else 0 := by
  rw [exported_at (by omega) (index_of_mem_varIds hv), valueAt, entriesAt_coneRow]
  split
  · exact zero_add (-1)
  · rfl

/-! ## Sums over positions -/

theorem sum_range_vars (p : Program ℚ) (F : Nat → ℚ) :
    ∑ j ∈ Finset.range p.vars.size, F j = ∑ v ∈ p.varIds.toFinset, F v.index := by
  rw [← List.toFinset_range, List.sum_toFinset _ List.nodup_range,
    List.sum_toFinset _ p.varIds_nodup, varIds, List.map_map]
  rfl

theorem sum_range_constraints (p : Program ℚ) (F : Nat → ℚ) :
    ∑ i ∈ Finset.range p.constraints.size, F i = ∑ c ∈ p.constraintIds.toFinset, F c.index := by
  rw [← List.toFinset_range, List.sum_toFinset _ List.nodup_range,
    List.sum_toFinset _ p.constraintIds_nodup, constraintIds, List.map_map]
  rfl

/-- A sum over the rows of the cones is a sum over the variables. -/
theorem Partitioned.sum_range_cones (hpart : p.Partitioned) {F : Nat → ℚ} {G : VarId → ℚ}
    (hFG : ∀ v ∈ p.varIds, F (p.coneMembers.idxOf v) = G v) :
    ∑ r ∈ Finset.range p.vars.size, F r = ∑ v ∈ p.varIds.toFinset, G v := by
  have hlist : (List.range p.vars.size).map F = p.coneMembers.map G := by
    apply List.ext_getElem
    · simp [hpart.length_coneMembers]
    · intro r hr _
      have hr' : r < p.coneMembers.length := by simpa [hpart.length_coneMembers] using hr
      have hmem : p.coneMembers[r] ∈ p.varIds := hpart.mem_iff.mp (List.getElem_mem hr')
      have hidx := hFG _ hmem
      rw [hpart.nodup.idxOf_getElem r hr'] at hidx
      simpa using hidx
  rw [← List.toFinset_range, List.sum_toFinset _ List.nodup_range, hlist,
    List.sum_toFinset _ p.varIds_nodup, (hpart.map G).sum_eq]

/-! ## What the conditions say about the program -/

/-- A point, as an assignment. -/
def pointAt (x : List ℚ) (v : VarId) : ℚ :=
  x.getD v.index 0

/-- The multiplier of a constraint that belongs to the multipliers `z` of the rows. -/
def rowValue (z : List ℚ) (c : ConstraintId) : ℚ :=
  -z.getD c.index 0

/-- The dual value of a variable that belongs to the multipliers `z` of the rows. -/
def coneValue (p : Program ℚ) (z : List ℚ) (v : VarId) : ℚ :=
  z.getD (p.constraints.size + p.coneMembers.idxOf v) 0

/-- **The dual value of a variable is its reduced cost.** -/
theorem stationary_coneValue {z : List ℚ} (hpart : p.Partitioned) (h : p.exported.Stationary z)
    (hv : v ∈ p.varIds) : p.coneValue z v =
      p.costOf v - ∑ c ∈ p.constraintIds.toFinset, p.entry c v * rowValue z c := by
  have hstationary := h v.index (by
    rw [length_exported_cost]
    exact index_of_mem_varIds hv)
  have hcones : ∑ r ∈ Finset.range p.vars.size,
      p.exported.matrix.at (p.constraints.size + r) v.index * z.getD (p.constraints.size + r) 0 =
        -p.coneValue z v := by
    have hlt := hpart.idxOf_lt hv
    rw [Finset.sum_eq_single_of_mem (p.coneMembers.idxOf v) (Finset.mem_range.mpr hlt)]
    · rw [exported_at_cone hlt hv, if_pos ((hpart.getElem?_eq_some_iff hv).mpr rfl), neg_one_mul]
      rfl
    · intro r hr hne
      rw [exported_at_cone (Finset.mem_range.mp hr) hv,
        if_neg fun he => hne ((hpart.getElem?_eq_some_iff hv).mp he), zero_mul]
  have hrows : ∑ i ∈ Finset.range p.constraints.size,
      p.exported.matrix.at i v.index * z.getD i 0 =
        -∑ c ∈ p.constraintIds.toFinset, p.entry c v * rowValue z c := by
    rw [sum_range_constraints, ← Finset.sum_neg_distrib]
    refine Finset.sum_congr rfl fun c hc => ?_
    rw [exported_at_constraint (List.mem_toFinset.mp hc) hv, rowValue, mul_neg, neg_neg]
  rw [exported_cost_getD, length_exported_rhs, Finset.sum_range_add, hcones, hrows] at hstationary
  linarith

section

variable {x s z : List ℚ} (h : p.exported.Optimal x s z) (hpart : p.Partitioned)
include h

/-- The point satisfies the constraints. -/
theorem optimal_rowAt (hc : c ∈ p.constraintIds) : p.rowAt c (pointAt x) = p.rhsOf c := by
  have hlt := index_of_mem_constraintIds hc
  have hprimal := h.primal c.index (by rw [length_exported_rhs]; omega)
  rw [h.slack_zero c.index hlt, exported_rhs_getD_constraint hc, add_zero, length_exported_cost,
    sum_range_vars] at hprimal
  unfold rowAt
  rw [← hprimal]
  refine Finset.sum_congr rfl fun v hv => ?_
  rw [exported_at_constraint hc (List.mem_toFinset.mp hv)]
  rfl

include hpart

/-- The slack of a cone row is the coordinate that it repeats. -/
theorem optimal_slack (hv : v ∈ p.varIds) :
    s.getD (p.constraints.size + p.coneMembers.idxOf v) 0 = pointAt x v := by
  have hlt := hpart.idxOf_lt hv
  have hprimal := h.primal (p.constraints.size + p.coneMembers.idxOf v)
    (by rw [length_exported_rhs]; omega)
  have hrow : ∑ j ∈ Finset.range p.exported.cost.length,
      p.exported.matrix.at (p.constraints.size + p.coneMembers.idxOf v) j * x.getD j 0 =
        -pointAt x v := by
    rw [length_exported_cost, sum_range_vars, Finset.sum_eq_single_of_mem v (List.mem_toFinset.mpr hv)]
    · rw [exported_at_cone hlt hv, if_pos ((hpart.getElem?_eq_some_iff hv).mpr rfl), neg_one_mul]
      rfl
    · intro u hu huv
      have hu := List.mem_toFinset.mp hu
      have hne : ¬p.coneMembers[p.coneMembers.idxOf v]? = some u := by
        rw [(hpart.getElem?_eq_some_iff hv).mpr rfl]
        exact fun he => huv (Option.some.inj he).symm
      rw [exported_at_cone hlt hu, if_neg hne, zero_mul]
  rw [hrow, exported_rhs_getD_cone] at hprimal
  linarith

/-- The dual value of a variable is its reduced cost. -/
theorem optimal_coneValue (hv : v ∈ p.varIds) : p.coneValue z v =
    p.costOf v - ∑ c ∈ p.constraintIds.toFinset, p.entry c v * rowValue z c :=
  stationary_coneValue hpart h.stationary hv

theorem optimal_coneValue_nonneg (hv : v ∈ p.varIds) : 0 ≤ p.coneValue z v := by
  have hlt := hpart.idxOf_lt hv
  exact h.multiplier_nonneg _ (by rw [length_exported_rhs]; omega) (Nat.le_add_right _ _)

/-- Coordinates and dual values are complementary. -/
theorem optimal_complementary : ∑ v ∈ p.varIds.toFinset, pointAt x v * p.coneValue z v = 0 := by
  have hcomplementary := h.complementary
  have hrows : ∑ i ∈ Finset.range p.constraints.size, s.getD i 0 * z.getD i 0 = 0 :=
    Finset.sum_eq_zero fun i hi => by rw [h.slack_zero i (Finset.mem_range.mp hi), zero_mul]
  rw [length_exported_rhs, Finset.sum_range_add, hrows, zero_add] at hcomplementary
  rw [← hcomplementary]
  refine (hpart.sum_range_cones fun v hv => ?_).symm
  rw [optimal_slack h hpart hv]
  rfl

omit hpart in
/-- The objective value that belongs to the point. -/
theorem optimal_dot : Vector.dot? p.exported.cost x = some (p.objectiveAt (pointAt x)) := by
  have hlength : x.length = p.vars.size := by
    rw [h.length_x, length_exported_cost]
  exact p.dot?_costs hlength

end

end Program

end Conic
