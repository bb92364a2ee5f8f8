import Mathlib.Algebra.BigOperators.Field
import Conic.Program.Change
import Conic.Proofs.Dual.SolveCycle
import Conic.Proofs.Dual.Tables
import Conic.Proofs.Program.Editing
import Conic.Proofs.Program.ReducedCost

/-!
# Residuals under arbitrary multipliers

Someone sets the multipliers of the dual constraints to any values, optimal or not, and gives every
dual variable its reduced cost for a dual value. Written back, this satisfies a constraint of the
primal with a slack up to the tolerance; without a slack, the dual value of the free multiplier is
what the constraint misses.

* `Program.Residuals` — the residuals, row by row.
* `Program.pricing` — the operations that set reduced costs.
* `Program.changeAll_pricing` — what the operations come to.
* `Program.priceAt_multiplier` — the reduced cost of the multiplier of a constraint.
* `Program.pricedBack_residuals` — **what a constraint with a slack misses, and one without.**
-/

set_option autoImplicit false

namespace Conic.Program

variable {p : Program ℚ} {settings : Settings ℚ} {μ : ConstraintId → ℚ} {c : ConstraintId}
  {v : VarId}

/-! ## The specification -/

/-- What the constraints of a primal miss after its dual `d` was checked in. -/
structure Residuals (p : Program ℚ) (d : Dual ℚ) (settings : Settings ℚ) : Prop where
  /-- A constraint with a slack holds up to the tolerance, exactly if that is zero. -/
  slack : ∀ {c : ConstraintId} {row : Constraint ℚ} {s : VarId}, p.constraint? c = some row →
    p.Picks settings.slackChoice row s → ∃ r x, p.residual? row = some r ∧
      p.coordinate? s = some x ∧ |r| ≤ settings.unitTolerance * |x|
  /-- A constraint without a slack is missed by the dual value of its free multiplier. -/
  free : ∀ {c : ConstraintId} {row : Constraint ℚ}, p.constraint? c = some row →
    (∀ s, ¬p.Picks settings.slackChoice row s) → ∃ f x, d.freeMultiplier? c = some f ∧
      d.program.var? f.apex = some x ∧ p.residual? row = some (-x.reducedCost)

/-! ## Setting reduced costs -/

/-- Sets all multipliers as given, and the dual values of all variables to their reduced costs. -/
def pricing (p : Program ℚ) (μ : ConstraintId → ℚ) : List (Change ℚ) :=
  (p.constraintIds.map fun c => .edit (.setMultiplier c (μ c))) ++
    p.varIds.map fun v => .edit (.setReducedCost v (p.priceAt μ v))

/-- The program after that. -/
def priced (p : Program ℚ) (μ : ConstraintId → ℚ) : Program ℚ :=
  (p.withMultipliers fun c => some (μ c)).withReducedCosts fun v => some (p.priceAt μ v)

/-- Changes that are known after every prefix. -/
theorem changeAll_stages {β : Type} (stage : List β → Program ℚ) (f : β → Change ℚ) {l : List β}
    (hstep : ∀ pre b post, l = pre ++ b :: post →
      (stage pre).change (f b) = .ok (stage (pre ++ [b]))) :
    (stage []).changeAll (l.map f) = some (stage l) := by
  rw [changeAll, List.foldlM_map]
  refine foldlM_stages stage fun pre b post hsplit => ?_
  rw [hstep pre b post hsplit]
  rfl

theorem changeAll_setMultipliers (p : Program ℚ) (μ : ConstraintId → ℚ) :
    p.changeAll (p.constraintIds.map fun c => .edit (.setMultiplier c (μ c))) =
      some (p.withMultipliers fun c => some (μ c)) := by
  let stage (pre : List ConstraintId) : Program ℚ :=
    p.withMultipliers fun c => if c ∈ pre then some (μ c) else none
  have hstep : ∀ pre c post, p.constraintIds = pre ++ c :: post →
      (stage pre).change (.edit (.setMultiplier c (μ c))) = .ok (stage (pre ++ [c])) := by
    intro pre c post hsplit
    have hc : c ∈ p.constraintIds := hsplit ▸ List.mem_append_right pre List.mem_cons_self
    refine found_eq_ok.mpr (setMultiplier?_withMultipliers (index_of_mem_constraintIds hc)
      (if_neg (notMem_of_split p.constraintIds_nodup hsplit)) (by simp) fun d hd => ?_)
    simp [hd]
  have hfold := changeAll_stages stage (fun c => .edit (.setMultiplier c (μ c))) hstep
  have hnil : stage [] = p := by simpa [stage] using p.withMultipliers_none
  rw [hnil] at hfold
  rw [hfold]
  exact congrArg some (withMultipliers_congr fun c hc => if_pos hc)

theorem changeAll_setReducedCosts (p : Program ℚ) (r : VarId → ℚ) :
    p.changeAll (p.varIds.map fun v => .edit (.setReducedCost v (r v))) =
      some (p.withReducedCosts fun v => some (r v)) := by
  let stage (pre : List VarId) : Program ℚ :=
    p.withReducedCosts fun v => if v ∈ pre then some (r v) else none
  have hstep : ∀ pre v post, p.varIds = pre ++ v :: post →
      (stage pre).change (.edit (.setReducedCost v (r v))) = .ok (stage (pre ++ [v])) := by
    intro pre v post hsplit
    have hv : v ∈ p.varIds := hsplit ▸ List.mem_append_right pre List.mem_cons_self
    refine found_eq_ok.mpr (setReducedCost?_withReducedCosts (index_of_mem_varIds hv)
      (if_neg (notMem_of_split p.varIds_nodup hsplit)) (by simp) fun u hu => ?_)
    simp [hu]
  have hfold := changeAll_stages stage (fun v => .edit (.setReducedCost v (r v))) hstep
  have hnil : stage [] = p := by simpa [stage] using p.withReducedCosts_none
  rw [hnil] at hfold
  rw [hfold]
  exact congrArg some (withReducedCosts_congr fun v hv => if_pos hv)

/-- **What the operations come to.** -/
theorem changeAll_pricing (p : Program ℚ) (μ : ConstraintId → ℚ) :
    p.changeAll (p.pricing μ) = some (p.priced μ) := by
  have hids : (p.withMultipliers fun c => some (μ c)).varIds = p.varIds := rfl
  rw [pricing, changeAll, List.foldlM_append]
  have hfirst := changeAll_setMultipliers p μ
  rw [changeAll] at hfirst
  rw [hfirst]
  exact hids ▸ changeAll_setReducedCosts (p.withMultipliers fun c => some (μ c)) (p.priceAt μ)

theorem within_priced (μ : ConstraintId → ℚ) : p.Within (p.priced μ) := by
  constructor <;> simp [priced, withMultipliers, withReducedCosts]

theorem priced_constraint? : (p.priced μ).constraint? c =
    (p.constraint? c).map fun row => { row with multiplier := μ c } :=
  constraint?_withMultipliers fun c => some (μ c)

theorem priced_var? : (p.priced μ).var? v =
    (p.var? v).map fun x => { x with reducedCost := p.priceAt μ v } :=
  var?_withReducedCosts _

/-! ## The primal -/

section

variable (h : p.WellFormed)
include h

/-- What the ordinary variables leave of the right-hand side of a constraint, when they take the
multipliers `μ` of their dual constraints. -/
def remainder (p : Program ℚ) (choice : SlackChoice) (μ : ConstraintId → ℚ) (c : ConstraintId) : ℚ :=
  p.rhsOf c - ∑ u ∈ (p.ordinaryVars choice).toFinset, p.entry c u * μ (p.dualRow choice u)

/-- The primal after its dual was priced at the multipliers `μ` and written back. -/
def pricedBack (p : Program ℚ) (settings : Settings ℚ) (μ : ConstraintId → ℚ) : Program ℚ :=
  p.settledWith settings ((p.derivedDual settings).program.priced μ)

/-- **The reduced cost of the multiplier of a constraint**, divided where the multiplier is. -/
theorem priceAt_multiplier (hc : c ∈ p.constraintIds) :
    (p.derivedDual settings).program.priceAt μ
        (p.partVar settings.slackChoice (.multiplier c)) =
      dividedBy (p.divisorOf? settings c) (p.remainder settings.slackChoice μ c) := by
  rw [(h.derivedDual settings).recordsTerms.priceAt_eq (multiplier_mem_varIds settings hc),
    reducedCost_multiplier h hc]
  rfl

theorem pricedBack_ordinary (hv : v ∈ p.ordinaryVars settings.slackChoice) :
    (p.pricedBack settings μ).coordinate? v = some (μ (p.dualRow settings.slackChoice v)) := by
  have hmem : p.dualRow settings.slackChoice v ∈ (p.derivedDual settings).program.constraintIds :=
    dualRow_mem_constraintIds hv
  obtain ⟨row, hrow⟩ := mem_constraintIds_iff.mp hmem
  have hpriced : ((p.derivedDual settings).program.priced μ).constraint? _ = some _ :=
    priced_constraint?.trans (congrArg _ hrow)
  exact settledWith_ordinary h hv hpriced

/-- The dual value that the multiplier of a constraint has been given. -/
theorem priced_multiplier (hc : c ∈ p.constraintIds) : ∃ x,
    ((p.derivedDual settings).program.priced μ).var?
      (p.partVar settings.slackChoice (.multiplier c)) = some x ∧
    x.reducedCost = dividedBy (p.divisorOf? settings c) (p.remainder settings.slackChoice μ c) := by
  obtain ⟨x, hx⟩ := mem_varIds_iff.mp (multiplier_mem_varIds settings hc)
  exact ⟨_, priced_var?.trans (congrArg _ hx), priceAt_multiplier h hc⟩

theorem pricedBack_slack (hs : p.slackOf settings.slackChoice c = some v) :
    (p.pricedBack settings μ).coordinate? v =
      some (dividedBy (p.divisorOf? settings c) (p.remainder settings.slackChoice μ c)) := by
  obtain ⟨x, hx, hcost⟩ := priced_multiplier h (mem_constraintIds_of_slackOf hs)
  rw [← hcost]
  exact settledWith_slack h hs hx

variable (hcones : p.Orthant)
include hcones

/-- The residual of a constraint: what its slack contributes, without what the other terms leave. -/
theorem pricedBack_residual {row : Constraint ℚ} (hrow : p.constraint? c = some row) :
    (p.pricedBack settings μ).residual? row =
      some (p.atSlack settings.slackChoice
        (fun s => p.entry c s * (p.pricedBack settings μ).coordinate s) c -
          p.remainder settings.slackChoice μ c) := by
  have hc := mem_constraintIds_iff.mpr ⟨row, hrow⟩
  have hsize : (p.pricedBack settings μ).point.size = (p.pricedBack settings μ).vars.size := by
    simp [pricedBack, settledWith, withCoordinates, h.point_size]
  have hsum : ∑ u ∈ (p.ordinaryVars settings.slackChoice).toFinset,
      p.entry c u * (p.pricedBack settings μ).coordinate u =
        ∑ u ∈ (p.ordinaryVars settings.slackChoice).toFinset,
          p.entry c u * μ (p.dualRow settings.slackChoice u) := by
    refine Finset.sum_congr rfl fun u hu => ?_
    rw [coordinate, pricedBack_ordinary h (List.mem_toFinset.mp hu), Option.getD_some]
  have hrowAt : (p.pricedBack settings μ).rowAt c (p.pricedBack settings μ).coordinate =
      p.rowAt c (p.pricedBack settings μ).coordinate := rfl
  have hrhs : p.rhsOf c = row.rhs := by rw [rhsOf, hrow, Option.map_some, Option.getD_some]
  rw [residual?_eq hsize hrow fun v hv => mem_varIds_iff.mpr (h.term_var hrow hv), hrowAt,
    rowAt_eq h hcones settings.slackChoice hc, hsum, remainder, hrhs]
  exact congrArg some (by ring)

/-- **With a slack, a constraint holds up to the tolerance.** -/
theorem pricedBack_residual_slack (hnonzero : p.SlacksNonzero settings.slackChoice)
    (htol : 0 ≤ settings.unitTolerance) {row : Constraint ℚ} (hrow : p.constraint? c = some row)
    (hs : p.slackOf settings.slackChoice c = some v) : ∃ r x,
      (p.pricedBack settings μ).residual? row = some r ∧
      (p.pricedBack settings μ).coordinate? v = some x ∧ |r| ≤ settings.unitTolerance * |x| := by
  obtain ⟨k, hk⟩ := exists_coefficient_of_slackOf hs
  have hk0 : k ≠ 0 := fun he => hnonzero hs (he ▸ hk)
  have hx : (p.pricedBack settings μ).coordinate? v = some _ := pricedBack_slack h hs
  refine ⟨_, _, pricedBack_residual h hcones hrow, hx, ?_⟩
  rw [atSlack, hs, Option.map_some, Option.getD_some, coordinate, hx, Option.getD_some, entry, hk,
    Option.getD_some, divisorOf?_of_slackOf hs hk]
  split
  · rename_i hunit
    have hclose : |k - 1| ≤ settings.unitTolerance := by
      rw [← Scalar.abs_eq]
      exact of_decide_eq_true hunit
    have hfactor : k * p.remainder settings.slackChoice μ c - p.remainder settings.slackChoice μ c =
        (k - 1) * p.remainder settings.slackChoice μ c := by ring
    rw [dividedBy, hfactor, abs_mul]
    exact mul_le_mul_of_nonneg_right hclose (abs_nonneg _)
  · rw [dividedBy, mul_div_cancel₀ _ hk0, sub_self, abs_zero]
    exact mul_nonneg htol (abs_nonneg _)

/-- **Without a slack, a constraint is missed by the dual value of its free multiplier.** -/
theorem pricedBack_residual_free {row : Constraint ℚ} (hrow : p.constraint? c = some row)
    (hnone : p.slackOf settings.slackChoice c = none) : ∃ f x,
      (p.derivedDual settings).freeMultiplier? c = some f ∧
      ((p.derivedDual settings).program.priced μ).var? f.apex = some x ∧
      (p.pricedBack settings μ).residual? row = some (-x.reducedCost) := by
  have hc := mem_constraintIds_iff.mpr ⟨row, hrow⟩
  obtain ⟨x, hx, hcost⟩ := priced_multiplier (p := p) h hc
  refine ⟨_, x, freeMultiplier?_derivedDual_eq_some_iff.mpr ⟨hc, hnone, rfl⟩, hx, ?_⟩
  have hdivisor : p.divisorOf? settings c = none := by rw [divisorOf?, hnone]; rfl
  rw [hcost, hdivisor, pricedBack_residual h hcones hrow, atSlack, hnone]
  exact congrArg some (zero_sub _)

/-- **The residuals of a primal whose dual was priced and written back.** -/
theorem pricedBack_residuals (hnonzero : p.SlacksNonzero settings.slackChoice)
    (htol : 0 ≤ settings.unitTolerance) : (p.pricedBack settings μ).Residuals
      (p.reworkedDual settings ((p.derivedDual settings).program.priced μ)) settings where
  slack hrow hpicks := pricedBack_residual_slack h hcones hnonzero htol hrow
    ((h.slackOf_eq_some_iff_picks hrow).mpr hpicks)
  free hrow hnone := by
    refine pricedBack_residual_free h hcones hrow ?_
    rw [Option.eq_none_iff_forall_ne_some]
    exact fun k hk => hnone k ((h.slackOf_eq_some_iff_picks hrow).mp hk)

end

end Conic.Program
