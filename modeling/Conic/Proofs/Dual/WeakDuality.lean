import Mathlib.Algebra.Order.BigOperators.Group.Finset
import Mathlib.Tactic.Linarith
import Conic.Proofs.Dual.Consistent
import Conic.Proofs.Dual.Gap

/-!
# Weak duality

A dual that is checked out bounds its primal: what one costs is never less than minus the cost of
the other.

* `Program.multiplierAt_mul_slack_nonneg` — rescaled or tolerated, the sign of a multiplier is right.
* `Exchange.checkOut_weakDuality` — **weak duality of a checked-out dual.**
-/

set_option autoImplicit false

namespace Conic

theorem Scalar.abs_eq (a : ℚ) : Scalar.abs a = |a| := by
  show (if 0 ≤ a then a else -a) = |a|
  split
  · rw [abs_of_nonneg ‹_›]
  · rw [abs_of_neg (lt_of_not_ge ‹_›)]

namespace Program

variable {p : Program ℚ} {settings : Settings ℚ} {c : ConstraintId} {v : VarId}

/-- The multiplier that the constraints use, times the coefficient of the slack, is not negative:
it is the multiplier variable when that was rescaled, and otherwise the coefficient is positive. -/
theorem multiplierAt_mul_slack_nonneg {Y : VarId → ℚ} (hnonzero : p.SlacksNonzero settings.slackChoice)
    (htol : settings.unitTolerance < 1) (hv : p.slackOf settings.slackChoice c = some v)
    (hy : 0 ≤ Y (p.partVar settings.slackChoice (.multiplier c))) :
    0 ≤ p.multiplierAt settings Y c * p.entry c v := by
  obtain ⟨k, hk⟩ := exists_coefficient_of_slackOf hv
  have hk0 : k ≠ 0 := fun he => hnonzero hv (he ▸ hk)
  unfold multiplierAt
  rw [entry, hk, Option.getD_some, divisorOf?_of_slackOf hv hk]
  split
  · rename_i hunit
    have hclose : |k - 1| ≤ settings.unitTolerance := by
      rw [← Scalar.abs_eq]
      exact of_decide_eq_true hunit
    have hpos : 0 ≤ k := by
      have := (abs_le.mp hclose).1
      linarith
    exact mul_nonneg hy hpos
  · show 0 ≤ Y (p.partVar settings.slackChoice (.multiplier c)) / k * k
    rwa [div_mul_cancel₀ _ hk0]

/-- **Weak duality**, at assignments. -/
theorem weakDuality (h : p.WellFormed) (hcones : p.Orthant)
    (hnonzero : p.SlacksNonzero settings.slackChoice) (htol : settings.unitTolerance < 1)
    {X Y : VarId → ℚ} (hX : ∀ c ∈ p.constraintIds, p.rowAt c X = p.rhsOf c)
    (hY : ∀ v ∈ p.ordinaryVars settings.slackChoice,
      (p.derivedDual settings).program.rowAt (p.dualRow settings.slackChoice v) Y = -p.costOf v)
    (hX0 : ∀ v ∈ p.varIds, 0 ≤ X v)
    (hm : ∀ {c v}, p.slackOf settings.slackChoice c = some v →
      0 ≤ Y (p.partVar settings.slackChoice (.multiplier c)))
    (hw : ∀ v ∈ p.ordinaryVars settings.slackChoice,
      0 ≤ Y (p.partVar settings.slackChoice (.reducedCost v))) :
    0 ≤ p.objectiveAt X + (p.derivedDual settings).program.objectiveAt Y := by
  rw [gap_eq h hcones hX hY]
  refine add_nonneg (Finset.sum_nonneg fun v hv => ?_) (Finset.sum_nonneg fun c _ => ?_)
  · have hv := List.mem_toFinset.mp hv
    exact mul_nonneg (hw v hv) (hX0 v (h.mem_varIds_of_mem_ordinaryVars hv))
  · unfold atSlack
    cases hc : p.slackOf settings.slackChoice c with
    | none => simp
    | some s =>
      rw [Option.map_some, Option.getD_some, ← mul_assoc]
      exact mul_nonneg (multiplierAt_mul_slack_nonneg hnonzero htol hc (hm hc))
        (hX0 s (h.mem_varIds_of_slackOf hc))

end Program

/-- **Weak duality of a checked-out dual**: at feasible points the two objectives have a sum that is
not negative. -/
theorem Exchange.checkOut_weakDuality {x : Exchange ℚ} (h : x.Ready) (hcones : x.primal.Orthant)
    (hnonzero : x.primal.SlacksNonzero x.settings.slackChoice)
    (htol : x.settings.unitTolerance < 1) (elapsed : Nat) :
    ∃ x' d, (x.checkOut elapsed).result = .ok x' ∧ x'.state = .checkedOut d ∧
      ∀ ξ η : Array ℚ, ({ x.primal with point := ξ } : Program ℚ).Feasible →
        ({ d.program with point := η } : Program ℚ).Feasible →
          ∃ a b, ({ x.primal with point := ξ } : Program ℚ).objective? = some a ∧
            ({ d.program with point := η } : Program ℚ).objective? = some b ∧ 0 ≤ a + b := by
  have hp : x.primal.WellFormed := wellFormed_of_checkRecords h.records
  have hd : (x.primal.derivedDual x.settings).program.WellFormed := hp.derivedDual x.settings
  obtain ⟨x', hresult, hstate, _⟩ := checkOut_result h elapsed
  refine ⟨x', _, hresult, hstate, fun ξ η hξ hη => ?_⟩
  refine ⟨_, _, Program.objective?_eq hξ.point_size, Program.objective?_eq hη.point_size, ?_⟩
  have hX : ∀ c ∈ x.primal.constraintIds, x.primal.rowAt c _ = x.primal.rhsOf c :=
    fun c hc => hξ.rowAt_eq (hp.withPoint hξ.point_size) hc
  have hY : ∀ v ∈ x.primal.ordinaryVars x.settings.slackChoice,
      (x.primal.derivedDual x.settings).program.rowAt (x.primal.dualRow x.settings.slackChoice v) _ =
        -x.primal.costOf v := fun v hv =>
    (hη.rowAt_eq (hd.withPoint hη.point_size) (Program.dualRow_mem_constraintIds hv)).trans
      (Program.derivedDual_rhsOf hv)
  refine Program.weakDuality hp hcones hnonzero htol hX hY ?_ ?_ ?_
  · exact fun v hv => hξ.coordinate_nonneg (hp.withPoint hξ.point_size) hcones hv
  · intro c s hs
    have hcone : (x.primal.derivedDual x.settings).program.cone? ⟨c.index⟩ = _ :=
      Program.derivedDual_cone?_multiplier (Program.mem_constraintIds_of_slackOf hs)
    rw [Program.multiplierCone, hs] at hcone
    exact hη.cone hcone
  · exact fun v hv => hη.cone (Program.derivedDual_cone?_reducedCost hv)

theorem Exchange.checkOut_weakDuality_twoRows : ∃ x' d,
    ((Exchange.new Program.twoRows .standard).checkOut 0).result = .ok x' ∧
      x'.state = .checkedOut d ∧
      ({ Program.twoRows with point := #[2, 1/2, 3] } : Program ℚ).Feasible ∧
      ({ d.program with point := #[0, 0, 0, 3, 1] } : Program ℚ).Feasible ∧
      ∃ a b, ({ Program.twoRows with point := #[2, 1/2, 3] } : Program ℚ).objective? = some a ∧
        ({ d.program with point := #[0, 0, 0, 3, 1] } : Program ℚ).objective? = some b ∧
          0 ≤ a + b := by
  obtain ⟨x', d, hresult, hstate, hweak⟩ := checkOut_weakDuality twoRows_ready (by decide)
    (by decide +kernel) (by decide +kernel) 0
  obtain ⟨x'', hresult', hstate', _⟩ := checkOut_result twoRows_ready 0
  obtain rfl : x' = x'' := Except.ok.inj (hresult.symm.trans hresult')
  obtain rfl := State.checkedOut.inj (hstate.symm.trans hstate')
  have hξ : ({ Program.twoRows with point := #[2, 1/2, 3] } : Program ℚ).Feasible := by
    decide +kernel
  have hη : ({ (Program.twoRows.derivedDual .standard).program with
      point := #[0, 0, 0, 3, 1] } : Program ℚ).Feasible := by
    decide +kernel
  exact ⟨x', _, hresult, hstate, hξ, hη, hweak _ _ hξ hη⟩

end Conic
