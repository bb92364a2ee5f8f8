import Mathlib.Algebra.BigOperators.Group.Finset.Basic
import Mathlib.Algebra.BigOperators.Ring.Finset
import Mathlib.Algebra.Order.Ring.Abs
import Mathlib.Algebra.Order.Ring.Rat
import Conic.Program.Measure
import Conic.Proofs.Program.WellFormed
import Conic.Proofs.Staging

/-!
# Feasible points

Over the rationals the sums of a program do not depend on their order, so they are sums over sets of
variables.

* `Program.entry`, `Program.rowAt`, `Program.objectiveAt` — coefficients, left-hand sides and the
  objective at an assignment.
* `Program.residual?_eq`, `Program.objective?_eq` — what the program computes at its own point.
* `Cone.Holds`, `Program.Feasible` — a point that satisfies all constraints and cones.
-/

set_option autoImplicit false

namespace Conic

/-- The terms, summed over any set that contains their variables. -/
theorem Terms.sum_toList (t : Terms ℚ) {s : Finset VarId} (hs : ∀ v ∈ t.vars, v ∈ s)
    (x : VarId → ℚ) : (t.toList.map fun u => u.2 * x u.1).sum =
      ∑ v ∈ s, (t.coefficient? v).getD 0 * x v := by
  have hvars : t.vars.toFinset ⊆ s := fun v hv => hs v (List.mem_toFinset.mp hv)
  rw [← Finset.sum_subset hvars fun v _ hv => ?_]
  · have hnodup : t.vars.Nodup := t.nodup
    rw [List.sum_toFinset _ hnodup, vars, List.map_map]
    congr 1
    refine List.map_congr_left fun u hu => ?_
    have hu' : t.coefficient? u.1 = some u.2 := coefficient?_eq_some_iff.mpr hu
    simp [hu']
  · have hnone : t.coefficient? v = none :=
      coefficient?_eq_none_iff.mpr fun hmem => hv (List.mem_toFinset.mpr hmem)
    simp [hnone]

namespace Program

/-- Variables have coordinates. -/
theorem exists_coordinate? {α : Type} {p : Program α} {v : VarId}
    (hpoint : p.point.size = p.vars.size) (hv : v ∈ p.varIds) : ∃ a, p.coordinate? v = some a :=
  ⟨_, Array.getElem?_eq_getElem (hpoint ▸ index_of_mem_varIds hv)⟩

/-- The residual of a constraint accumulates its terms, on top of the negated right-hand side. -/
theorem residual?_eq_foldl {α : Type} [Scalar α] {p : Program α} {row : Constraint α} {x : VarId → α}
    (hx : ∀ v ∈ row.terms.vars, p.coordinate? v = some (x v)) : p.residual? row =
      some (row.terms.toList.foldl (fun sum t => sum + t.2 * x t.1) (-row.rhs)) := by
  have hfold : ∀ (l : List (VarId × α)) (b : α), (∀ t ∈ l, p.coordinate? t.1 = some (x t.1)) →
      l.foldlM (fun sum t => (p.coordinate? t.1).map fun x => sum + t.2 * x) b =
        some (l.foldl (fun sum t => sum + t.2 * x t.1) b) := by
    intro l
    induction l with
    | nil => exact fun _ _ => rfl
    | cons t l ih =>
      intro b hl
      rw [List.foldlM_cons, hl t List.mem_cons_self, Option.map_some]
      exact ih _ fun u hu => hl u (List.mem_cons_of_mem t hu)
  exact hfold _ _ fun t ht => hx t.1 (List.mem_map_of_mem ht)

variable {p : Program ℚ}

/-! ## Coefficients and sums -/

/-- The coefficient of a variable in a constraint, zero where there is no term. -/
def entry (p : Program ℚ) (c : ConstraintId) (v : VarId) : ℚ :=
  (p.coefficient? c v).getD 0

/-- The left-hand side of a constraint at an assignment. -/
def rowAt (p : Program ℚ) (c : ConstraintId) (x : VarId → ℚ) : ℚ :=
  ∑ v ∈ p.varIds.toFinset, p.entry c v * x v

/-- The objective at an assignment. -/
def objectiveAt (p : Program ℚ) (x : VarId → ℚ) : ℚ :=
  ∑ v ∈ p.varIds.toFinset, p.costOf v * x v

theorem rowAt_congr {c : ConstraintId} {x y : VarId → ℚ} (hxy : ∀ v ∈ p.varIds, x v = y v) :
    p.rowAt c x = p.rowAt c y :=
  Finset.sum_congr rfl fun v hv => by rw [hxy v (List.mem_toFinset.mp hv)]

theorem objectiveAt_congr {x y : VarId → ℚ} (hxy : ∀ v ∈ p.varIds, x v = y v) :
    p.objectiveAt x = p.objectiveAt y :=
  Finset.sum_congr rfl fun v hv => by rw [hxy v (List.mem_toFinset.mp hv)]

/-- The coordinates of the point, as an assignment. -/
def coordinate (p : Program ℚ) (v : VarId) : ℚ :=
  (p.coordinate? v).getD 0

theorem coordinate?_eq {v : VarId} (hpoint : p.point.size = p.vars.size) (hv : v ∈ p.varIds) :
    p.coordinate? v = some (p.coordinate v) := by
  obtain ⟨a, ha⟩ := exists_coordinate? hpoint hv
  rw [coordinate, ha, Option.getD_some]

theorem rowAt_eq_sum_terms {c : ConstraintId} {row : Constraint ℚ} (hrow : p.constraint? c = some row)
    (hvars : ∀ v ∈ row.terms.vars, v ∈ p.varIds) (x : VarId → ℚ) :
    p.rowAt c x = (row.terms.toList.map fun u => u.2 * x u.1).sum := by
  rw [row.terms.sum_toList (s := p.varIds.toFinset) fun v hv => List.mem_toFinset.mpr (hvars v hv)]
  refine Finset.sum_congr rfl fun v _ => ?_
  simp [entry, coefficient?, hrow]

/-- The residual that the program computes. -/
theorem residual?_eq {c : ConstraintId} {row : Constraint ℚ} (hpoint : p.point.size = p.vars.size)
    (hrow : p.constraint? c = some row) (hvars : ∀ v ∈ row.terms.vars, v ∈ p.varIds) :
    p.residual? row = some (p.rowAt c p.coordinate - row.rhs) := by
  have hfold := foldl_add_eq_sum (fun t : VarId × ℚ => t.2 * p.coordinate t.1) row.terms.toList
    (-row.rhs)
  rw [← rowAt_eq_sum_terms hrow hvars, neg_add_eq_sub] at hfold
  exact (residual?_eq_foldl fun v hv => coordinate?_eq hpoint (hvars v hv)).trans
    (congrArg some hfold)

/-- The inner product of the costs with a list of coordinates. -/
theorem dot?_costs (p : Program ℚ) {x : List ℚ} (hx : x.length = p.vars.size) :
    Vector.dot? (p.vars.toList.map (·.cost)) x =
      some (p.objectiveAt fun v => x.getD v.index 0) := by
  have hlen : (p.vars.toList.map (·.cost)).length = x.length := by simp [hx]
  have hzip : ((p.vars.toList.map (·.cost)).zip x).map (fun u => u.1 * u.2) =
      p.varIds.map fun v => p.costOf v * x.getD v.index 0 := by
    apply List.ext_getElem
    · simp [hx]
    · intro i hi _
      have hi' : i < p.vars.size := by simp [hx] at hi; exact hi
      have hi'' : i < x.length := hx ▸ hi'
      simp [varIds, costOf, var?, List.getD_eq_getElem?_getD, hi', hi'']
  have hfold := foldl_add_eq_sum (fun u : ℚ × ℚ => u.1 * u.2)
    ((p.vars.toList.map (·.cost)).zip x) 0
  rw [hzip, zero_add] at hfold
  rw [Vector.dot?, if_pos hlen, objectiveAt, List.sum_toFinset _ p.varIds_nodup]
  exact congrArg some hfold

/-- The objective that the program computes. -/
theorem objective?_eq (hpoint : p.point.size = p.vars.size) :
    p.objective? = some (p.objectiveAt p.coordinate) := by
  have hcoordinate : (fun v : VarId => p.point.toList.getD v.index 0) = p.coordinate := by
    funext v
    simp [coordinate, coordinate?, List.getD_eq_getElem?_getD]
  rw [objective?, p.dot?_costs (by simp [hpoint]), hcoordinate]

end Program

/-! ## Feasible points -/

/-- The coordinates of a cone's members lie in the cone. -/
def Cone.Holds (x : VarId → ℚ) : Cone → Prop
  | .nonneg v => 0 ≤ x v
  | .secondOrder [] => False
  | .secondOrder (apex :: others) =>
    0 ≤ x apex ∧ (others.map fun u => x u * x u).sum ≤ x apex * x apex

instance Cone.decidableHolds (x : VarId → ℚ) : (k : Cone) → Decidable (k.Holds x)
  | .nonneg v => inferInstanceAs (Decidable (0 ≤ x v))
  | .secondOrder [] => inferInstanceAs (Decidable False)
  | .secondOrder (apex :: others) => inferInstanceAs
    (Decidable (0 ≤ x apex ∧ (others.map fun u => x u * x u).sum ≤ x apex * x apex))

/-- A cone of two holds when its first coordinate is at least the absolute value of the second. -/
theorem Cone.holds_pair_iff {x : VarId → ℚ} {y u : VarId} :
    (Cone.secondOrder [y, u]).Holds x ↔ |x u| ≤ x y := by
  simp only [Holds, List.map_cons, List.map_nil, List.sum_cons, List.sum_nil, add_zero]
  constructor
  · rintro ⟨hy, hsq⟩
    rw [← abs_of_nonneg hy]
    exact abs_le_iff_mul_self_le.mpr hsq
  · intro h
    have hy : 0 ≤ x y := (abs_nonneg _).trans h
    refine ⟨hy, abs_le_iff_mul_self_le.mp ?_⟩
    rwa [abs_of_nonneg hy]

/-- The point of a program satisfies its constraints and its cones. -/
structure Program.Feasible (p : Program ℚ) : Prop where
  point_size : p.point.size = p.vars.size
  residual : ∀ {c : ConstraintId} {row : Constraint ℚ}, p.constraint? c = some row →
    p.residual? row = some 0
  cone : ∀ {k : ConeId} {cone : Cone}, p.cone? k = some cone → cone.Holds p.coordinate

theorem Program.feasible_iff {p : Program ℚ} : p.Feasible ↔ p.point.size = p.vars.size ∧
    (∀ row ∈ p.constraints.toList, p.residual? row = some 0) ∧
    ∀ cone ∈ p.cones.toList, cone.Holds p.coordinate := by
  rw [← forall_constraint?_iff, ← forall_cone?_iff]
  exact ⟨fun h => ⟨h.point_size, fun _ _ => h.residual, fun _ _ => h.cone⟩,
    fun ⟨hsize, hrow, hcone⟩ => ⟨hsize, hrow _ _, hcone _ _⟩⟩

instance Program.decidableFeasible (p : Program ℚ) : Decidable p.Feasible :=
  decidable_of_iff _ feasible_iff.symm

/-- A feasible point satisfies the equations. -/
theorem Program.Feasible.rowAt_eq {p : Program ℚ} (h : p.Feasible) (hp : p.WellFormed)
    {c : ConstraintId} (hc : c ∈ p.constraintIds) : p.rowAt c p.coordinate = p.rhsOf c := by
  obtain ⟨row, hrow⟩ := mem_constraintIds_iff.mp hc
  have hvars : ∀ v ∈ row.terms.vars, v ∈ p.varIds := fun v hv =>
    mem_varIds_iff.mpr (hp.term_var hrow hv)
  have hresidual := h.residual hrow
  rw [residual?_eq h.point_size hrow hvars] at hresidual
  unfold rhsOf
  rw [hrow]
  exact sub_eq_zero.mp (Option.some.inj hresidual)

/-- Without other cones, a nonnegative point that satisfies the equations is feasible. -/
theorem Program.WellFormed.feasible {p : Program ℚ} (h : p.WellFormed) (hcones : p.Orthant)
    (hrows : ∀ c ∈ p.constraintIds, p.rowAt c p.coordinate = p.rhsOf c)
    (hvars : ∀ v ∈ p.varIds, 0 ≤ p.coordinate v) : p.Feasible := by
  refine ⟨h.point_size, fun {c row} hrow => ?_, fun {k cone} hcone => ?_⟩
  · rw [residual?_eq h.point_size hrow fun v hv => mem_varIds_iff.mpr (h.term_var hrow hv),
      hrows c (mem_constraintIds_iff.mpr ⟨row, hrow⟩), rhsOf, hrow]
    exact congrArg some (sub_self row.rhs)
  · have hkind := hcones hcone
    cases cone with
    | nonneg v =>
      exact hvars v (h.mem_varIds_of_mem_nonnegVars (mem_nonnegVars_iff.mpr ⟨k, hcone⟩))
    | secondOrder members => cases hkind

/-- Another point of the right length does no harm. -/
theorem Program.WellFormed.withPoint {α : Type} {p : Program α} (h : p.WellFormed) {x : Array α}
    (hx : x.size = p.vars.size) : ({ p with point := x } : Program α).WellFormed :=
  { point_size := hx, dim := h.dim, owned := h.owned, term_var := h.term_var, listed := h.listed,
    recorded_nodup := h.recorded_nodup, recorded := h.recorded }

/-- Every number of a point is the coordinate of a variable. -/
theorem Program.exists_coordinate {p : Program ℚ} (hpoint : p.point.size = p.vars.size) {a : ℚ}
    (ha : a ∈ p.point) : ∃ v ∈ p.varIds, p.coordinate v = a := by
  obtain ⟨i, hi, rfl⟩ := Array.mem_iff_getElem.mp ha
  refine ⟨⟨i⟩, List.mem_map_of_mem (List.mem_range.mpr (hpoint ▸ hi)), ?_⟩
  simp [coordinate, coordinate?, hi]

/-- Without other cones, every coordinate of a feasible point is nonnegative. -/
theorem Program.Feasible.coordinate_nonneg {p : Program ℚ} (h : p.Feasible) (hp : p.WellFormed)
    (hcones : p.Orthant) {v : VarId} (hv : v ∈ p.varIds) : 0 ≤ p.coordinate v := by
  obtain ⟨k, hk⟩ := mem_nonnegVars_iff.mp (hp.mem_nonnegVars_of_mem_varIds hcones hv)
  exact h.cone hk

end Conic
