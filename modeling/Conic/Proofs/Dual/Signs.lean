import Conic.Proofs.Dual.Multipliers
import Conic.Proofs.Dual.Transpose

/-!
# The sign of a multiplier

A slack with coefficient `k` asks of the multiplier `y` of its constraint that `k·y` is not
negative. The dual asks instead that the dual variable of the constraint is not negative, which is
`k·y` when the variable was rescaled and `y` when `k` was tolerated as one.

* `Dual.StandsFor` — the multipliers that the objective and the constraints of a dual use.
* `Program.sign_iff` — numbers alone: when the two demands agree.
* `Dual.AsksSign` — what a dual asks of the multiplier of a constraint with a slack.
* `Exchange.checkOut_sign` — **the sign is right, unless the coefficient is negative and
  tolerated**, for which the tolerance has to be greater than one.
* `Exchange.checkOut_toleratedSign` — a dual where it is wrong.
-/

set_option autoImplicit false

namespace Conic

/-! ## The specification -/

/-- At the assignment `Y` of its variables the dual has the objective that belongs to the
multipliers `y`, and its constraints, apart from the variable that each has for itself, have the
left-hand sides that belong to them. -/
structure Dual.StandsFor (d : Dual ℚ) (p : Program ℚ) (Y : VarId → ℚ) (y : ConstraintId → ℚ) :
    Prop where
  objective : d.program.objectiveAt Y = ∑ c ∈ p.constraintIds.toFinset, p.rhsOf c * y c
  row : ∀ {v r}, d.constraintOf? v = some r → ∃ w, d.OwnsReducedCost r w ∧
    d.program.rowAt r Y = ∑ c ∈ p.constraintIds.toFinset, p.entry c v * y c - Y w

/-- The dual asks of variable `u`, which holds the multiplier of constraint `c`, that it is not
negative. The slack `v` of the constraint, with coefficient `k`, asks that its reduced cost is
not. -/
structure Dual.AsksSign (d : Dual ℚ) (p : Program ℚ) (settings : Settings ℚ) (c : ConstraintId)
    (v : VarId) (k : ℚ) (u : VarId) : Prop where
  multiplier : d.signedMultiplier? c = some u
  nonneg : d.program.coneOf? u = some (.nonneg u)
  /-- Divided by the coefficient of the slack, unless that is tolerated. -/
  value : ∀ Y, p.multiplierAt settings Y c =
    if |k - 1| ≤ settings.unitTolerance then Y u else Y u / k
  reducedCost : ∀ Y, p.reducedCostAt (p.multiplierAt settings Y) v =
    k * p.multiplierAt settings Y c
  /-- The one demand follows from the other but for one exception. -/
  sign : (∀ Y, 0 ≤ Y u → 0 ≤ k * p.multiplierAt settings Y c) ↔
    ¬(k < 0 ∧ |k - 1| ≤ settings.unitTolerance)
  /-- In the exception it is never met. -/
  wrong : k < 0 → |k - 1| ≤ settings.unitTolerance →
    ∀ Y, 0 < Y u → k * p.multiplierAt settings Y c < 0
  /-- A tolerance of one or less leaves no exception. -/
  within : settings.unitTolerance ≤ 1 → ∀ Y, 0 ≤ Y u → 0 ≤ k * p.multiplierAt settings Y c

namespace Program

/-! ## Signs -/

/-- A negative number is farther from one than one. -/
theorem one_lt_of_tolerated {k tol : ℚ} (hk : k < 0) (htol : |k - 1| ≤ tol) : 1 < tol := by
  have hfar : 1 < |k - 1| := by
    rw [abs_of_neg (by linarith)]
    linarith
  exact hfar.trans_le htol

/-- The product with `k` is never negative, unless `k` is negative and tolerated. -/
theorem mul_tolerated_nonneg {k tol δ : ℚ} (hk : k ≠ 0) (hexcept : ¬(k < 0 ∧ |k - 1| ≤ tol))
    (hδ : 0 ≤ δ) : 0 ≤ k * if |k - 1| ≤ tol then δ else δ / k := by
  split
  · rename_i htol
    have hpos : 0 ≤ k := le_of_not_gt fun hneg => hexcept ⟨hneg, htol⟩
    exact mul_nonneg hpos hδ
  · rwa [mul_div_cancel₀ _ hk]

/-- **When the sign is right.** -/
theorem sign_iff {k tol : ℚ} (hk : k ≠ 0) :
    (∀ δ : ℚ, 0 ≤ δ → 0 ≤ k * if |k - 1| ≤ tol then δ else δ / k) ↔ ¬(k < 0 ∧ |k - 1| ≤ tol) := by
  refine ⟨fun h => ?_, fun hexcept δ => mul_tolerated_nonneg hk hexcept⟩
  rintro ⟨hneg, htol⟩
  have hone := h 1 zero_le_one
  rw [if_pos htol, mul_one] at hone
  exact absurd hneg (not_lt_of_ge hone)

/-! ## The derived dual -/

variable {p : Program ℚ} {settings : Settings ℚ} {c : ConstraintId} {v : VarId} {k : ℚ}

/-- The multiplier that the constraints use, by the coefficient of the slack. -/
theorem multiplierAt_of_slackOf (hv : p.slackOf settings.slackChoice c = some v)
    (hk : p.coefficient? c v = some k) (Y : VarId → ℚ) : p.multiplierAt settings Y c =
      if |k - 1| ≤ settings.unitTolerance then
        Y (p.partVar settings.slackChoice (.multiplier c))
      else Y (p.partVar settings.slackChoice (.multiplier c)) / k := by
  rw [multiplierAt, divisorOf?_of_slackOf hv hk, ← Scalar.abs_eq]
  by_cases htol : Scalar.abs (k - 1) ≤ settings.unitTolerance <;>
    simp [Dual.countsAsUnit, htol, dividedBy]

namespace WellFormed

variable (h : p.WellFormed)
include h

theorem derivedDual_standsFor (settings : Settings ℚ) (Y : VarId → ℚ) :
    (p.derivedDual settings).StandsFor p Y (p.multiplierAt settings Y) where
  objective := dualObjectiveAt_eq h
  row hr := by
    obtain ⟨hv, rfl⟩ := (constraintOf?_derivedDual_eq_some_iff h).mp hr
    exact ⟨_, derivedDual_ownsReducedCost h hv, dualRowAt_eq h hv⟩

/-- **What a derived dual asks of the multiplier of a constraint with a slack.** -/
theorem derivedDual_asksSign (hv : p.slackOf settings.slackChoice c = some v)
    (hk : p.coefficient? c v = some k) (hk0 : k ≠ 0) :
    (p.derivedDual settings).AsksSign p settings c v k
      (p.partVar settings.slackChoice (.multiplier c)) := by
  have hc : c ∈ p.constraintIds := mem_constraintIds_of_slackOf hv
  have hvalue := multiplierAt_of_slackOf hv hk
  exact {
    multiplier := signedMultiplier?_derivedDual hv
    nonneg := by
      have hcone : (p.derivedDual settings).program.cone? ⟨c.index⟩ =
          some (p.multiplierCone settings.slackChoice c) := derivedDual_cone?_multiplier hc
      rw [multiplierCone, hv] at hcone
      rw [coneOf?, derivedDual_var?_multiplier hc]
      exact hcone
    value := hvalue
    reducedCost := fun Y => by rw [h.reducedCostAt_of_slackOf hv, entry, hk, Option.getD_some]
    sign := by
      rw [← sign_iff hk0]
      refine ⟨fun hsign δ hδ => ?_, fun hsign Y hY => ?_⟩
      · have hconstant := hsign (fun _ => δ) hδ
        rwa [hvalue] at hconstant
      · rw [hvalue]
        exact hsign _ hY
    wrong := fun hneg htol Y hY => by
      rw [hvalue, if_pos htol]
      exact mul_neg_of_neg_of_pos hneg hY
    within := fun hone Y hY => by
      rw [hvalue]
      refine mul_tolerated_nonneg hk0 ?_ hY
      rintro ⟨hneg, htol⟩
      exact absurd (one_lt_of_tolerated hneg htol) (not_lt_of_ge hone) }

end WellFormed

end Program

/-- **The dual that is checked out asks for the sign that a slack demands**, unless the coefficient
of the slack is negative and tolerated as one. Whether or not the multiplier was rescaled, its
variable is nonnegative; the reduced cost of the slack, at the multipliers that the dual uses, is
then not negative either, and in the exception it is negative wherever the variable is positive. -/
theorem Exchange.checkOut_sign {x : Exchange ℚ} (h : x.Ready) (elapsed : Nat) :
    ∃ x' d, (x.checkOut elapsed).result = .ok x' ∧ x'.state = .checkedOut d ∧
      (∀ Y, d.StandsFor x.primal Y (x.primal.multiplierAt x.settings Y)) ∧
      ∀ {c v k}, x.primal.slackOf x.settings.slackChoice c = some v →
        x.primal.coefficient? c v = some k → k ≠ 0 →
          ∃ u, d.AsksSign x.primal x.settings c v k u := by
  have hp : x.primal.WellFormed := wellFormed_of_checkRecords h.records
  obtain ⟨x', hresult, hstate, _⟩ := checkOut_result h elapsed
  exact ⟨x', _, hresult, hstate, fun Y => hp.derivedDual_standsFor x.settings Y,
    fun hv hk hk0 => ⟨_, hp.derivedDual_asksSign hv hk hk0⟩⟩

/-- The slack of the first constraint has coefficient 4. -/
theorem Exchange.checkOut_sign_twoRows :
    ∃ x' d, ((Exchange.new Program.twoRows .standard).checkOut 0).result = .ok x' ∧
      x'.state = .checkedOut d ∧ ∃ u, d.AsksSign Program.twoRows .standard ⟨0⟩ ⟨1⟩ 4 u := by
  obtain ⟨x', d, hresult, hstate, _, hsign⟩ := checkOut_sign twoRows_ready 0
  exact ⟨x', d, hresult, hstate, hsign (c := ⟨0⟩) (v := ⟨1⟩) rfl rfl (by norm_num)⟩

/-- The least `x₁` with `-½·x₀ + 2·x₁ = 3`; the slack `x₀` has a negative coefficient. -/
def Program.negativeSlack : Program ℚ where
  vars := #[⟨⟨0⟩, 0, 0, [⟨0⟩]⟩, ⟨⟨1⟩, 1, 0, [⟨0⟩]⟩]
  cones := #[.nonneg ⟨0⟩, .nonneg ⟨1⟩]
  constraints := #[⟨⟨[(⟨0⟩, -1/2), (⟨1⟩, 2)], by decide⟩, 3, 0⟩]
  point := #[0, 0]

/-- Every coefficient up to a distance of 2 from one counts as one. -/
def Settings.lenient : Settings ℚ :=
  { (.standard : Settings ℚ) with unitTolerance := 2 }

/-- **A valid tolerance can reach a negative coefficient.** Its multiplier is not rescaled, and the
dual uses the nonnegative variable itself where the slack demands that it is not positive. -/
theorem Exchange.checkOut_toleratedSign :
    Settings.lenient.fault? = none ∧ Program.negativeSlack.consistent = true ∧
    Program.negativeSlack.slackOf .first ⟨0⟩ = some ⟨0⟩ ∧
    Program.negativeSlack.coefficient? ⟨0⟩ ⟨0⟩ = some (-1/2) ∧
    ∃ x' d u r, ((Exchange.new Program.negativeSlack .lenient).checkOut 0).result = .ok x' ∧
      x'.state = .checkedOut d ∧ d.rescaled = 0 ∧ d.signedMultiplier? ⟨0⟩ = some u ∧
      d.program.coneOf? u = some (.nonneg u) ∧ d.program.costOf u = 3 ∧
      d.constraintOf? ⟨1⟩ = some r ∧ d.program.coefficient? r u = some 2 ∧
      (∀ Y, Program.negativeSlack.multiplierAt .lenient Y ⟨0⟩ = Y u) ∧
      ¬∀ Y, 0 ≤ Y u → 0 ≤ (-1/2) * Program.negativeSlack.multiplierAt .lenient Y ⟨0⟩ := by
  have hready : (Exchange.new Program.negativeSlack .lenient).Ready :=
    ⟨rfl, by rfl, by rfl, fun _ => by rfl⟩
  obtain ⟨x', hresult, hstate, _⟩ := checkOut_result hready 0
  have htolerated : Program.negativeSlack.divisorOf? .lenient ⟨0⟩ = none := by decide +kernel
  have hvariable : Program.negativeSlack.partVar .first (.multiplier ⟨0⟩) = ⟨0⟩ := by
    decide +kernel
  have hvalue : ∀ Y, Program.negativeSlack.multiplierAt .lenient Y ⟨0⟩ = Y ⟨0⟩ := fun Y => by
    rw [Program.multiplierAt, htolerated]
    exact congrArg Y hvariable
  refine ⟨by decide +kernel, by decide +kernel, by decide +kernel, by decide +kernel, x', _, ⟨0⟩,
    ⟨0⟩, hresult, hstate, by decide +kernel, by decide +kernel, by decide +kernel,
    by decide +kernel, by decide +kernel, by decide +kernel, hvalue, fun hsign => ?_⟩
  have hone := hsign (fun _ => 1) zero_le_one
  rw [hvalue] at hone
  norm_num at hone

end Conic
