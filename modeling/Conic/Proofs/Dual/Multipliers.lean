import Conic.Proofs.Dual.WeakDuality

/-!
# The multipliers that a dual admits

The Lagrangian dual of a primal admits all multipliers that leave no reduced cost negative, whatever
their signs. A checked-out dual holds the multiplier of a constraint without slack as the apex of a
second-order cone, and an apex is never negative.

* `Program.Admissible` — the multipliers that the Lagrangian dual admits.
* `Dual.Carries` — a point of a dual with given multipliers.
* `Program.dualPoint` — the point with these multipliers, their reduced costs, and zero elsewhere.
* `Exchange.checkOut_multipliers` — **a checked-out dual carries exactly the admissible multipliers
  that are not negative where there is no slack.**
-/

set_option autoImplicit false

namespace Conic

namespace Program

/-- The cost of a variable and what the multipliers charge for it. -/
def reducedCostAt (p : Program ℚ) (y : ConstraintId → ℚ) (v : VarId) : ℚ :=
  p.costOf v + ∑ c ∈ p.constraintIds.toFinset, p.entry c v * y c

/-- The multipliers leave no reduced cost negative. -/
def Admissible (p : Program ℚ) (y : ConstraintId → ℚ) : Prop :=
  ∀ v ∈ p.varIds, 0 ≤ p.reducedCostAt y v

instance decidableAdmissible (p : Program ℚ) (y : ConstraintId → ℚ) : Decidable (p.Admissible y) :=
  inferInstanceAs (Decidable (∀ v ∈ p.varIds, 0 ≤ p.reducedCostAt y v))

/-- The value of the dual variable that holds the multiplier of a constraint: the multiplier, times
the coefficient of the slack if there is one. -/
def multiplierValue (p : Program ℚ) (choice : SlackChoice) (y : ConstraintId → ℚ)
    (c : ConstraintId) : ℚ :=
  match p.slackOf choice c with
  | some v => p.entry c v * y c
  | none => y c

/-- The value of the dual variable that stands for a part. -/
def partValue (p : Program ℚ) (choice : SlackChoice) (y : ConstraintId → ℚ) : Dual.Part → ℚ
  | .multiplier c => p.multiplierValue choice y c
  | .auxiliary _ => 0
  | .reducedCost v => p.reducedCostAt y v

/-- The point of the dual with the given multipliers. -/
def dualPoint (p : Program ℚ) (choice : SlackChoice) (y : ConstraintId → ℚ) : Array ℚ :=
  ((p.parts choice).map (p.partValue choice y)).toArray

end Program

/-- A feasible point of the dual `d` of `p` that has the given multipliers and the objective that
belongs to them. -/
structure Dual.Carries (d : Dual ℚ) (p : Program ℚ) (choice : SlackChoice) (y : ConstraintId → ℚ)
    (η : Array ℚ) : Prop where
  feasible : ({ d.program with point := η } : Program ℚ).Feasible
  multiplier : ∀ {c}, c ∈ p.constraintIds →
    ∃ u, d.multiplier? c = some u ∧ η[u.index]? = some (p.multiplierValue choice y c)
  objective : ({ d.program with point := η } : Program ℚ).objective? =
    some (∑ c ∈ p.constraintIds.toFinset, p.rhsOf c * y c)

namespace Program

variable {p : Program ℚ} {settings : Settings ℚ} {choice : SlackChoice} {y : ConstraintId → ℚ}
  {c : ConstraintId} {v : VarId}

/-! ## Multipliers and their variables -/

theorem multiplierValue_of_slackOf (hv : p.slackOf choice c = some v) :
    p.multiplierValue choice y c = p.entry c v * y c := by
  rw [multiplierValue, hv]

theorem multiplierValue_of_none (hnone : p.slackOf choice c = none) :
    p.multiplierValue choice y c = y c := by
  rw [multiplierValue, hnone]

/-- With no tolerance the dual constraints use the multipliers themselves: what the slack multiplies
is divided out again. -/
theorem multiplierAt_eq (hnonzero : p.SlacksNonzero settings.slackChoice)
    (htol : settings.unitTolerance = 0) {Y : VarId → ℚ}
    (hY : Y (p.partVar settings.slackChoice (.multiplier c)) =
      p.multiplierValue settings.slackChoice y c) : p.multiplierAt settings Y c = y c := by
  unfold multiplierAt
  rw [hY]
  cases hslack : p.slackOf settings.slackChoice c with
  | none =>
    have hdivisor : p.divisorOf? settings c = none := by simp [divisorOf?, hslack]
    rw [hdivisor, multiplierValue_of_none hslack]
    rfl
  | some v =>
    obtain ⟨k, hk⟩ := exists_coefficient_of_slackOf hslack
    have hk0 : k ≠ 0 := fun he => hnonzero hslack (he ▸ hk)
    rw [multiplierValue_of_slackOf hslack, entry, hk, Option.getD_some,
      divisorOf?_of_slackOf hslack hk]
    split
    · rename_i hunit
      have hclose : |k - 1| ≤ 0 := by
        rw [← Scalar.abs_eq, ← htol]
        exact of_decide_eq_true hunit
      have hone : k = 1 := sub_eq_zero.mp (abs_nonpos_iff.mp hclose)
      rw [hone]
      exact one_mul _
    · exact mul_div_cancel_left₀ _ hk0

/-- The coefficient of a chosen slack times the multiplier is the reduced cost of the slack. -/
theorem WellFormed.reducedCostAt_of_slackOf (h : p.WellFormed) (hv : p.slackOf choice c = some v) :
    p.reducedCostAt y v = p.entry c v * y c := by
  have hother : ∀ d ∈ p.constraintIds.toFinset, d ≠ c → p.entry d v * y d = 0 := by
    intro d _ hdc
    simp [entry, h.coefficient?_of_slackOf hv hdc]
  unfold reducedCostAt
  rw [costOf_of_slackOf h hv, zero_add, Finset.sum_eq_single_of_mem c
    (List.mem_toFinset.mpr (mem_constraintIds_of_slackOf hv)) hother]

/-! ## The point with given multipliers -/

section

variable (p settings y)

/-- The dual at the point with the given multipliers. -/
def dualAt : Program ℚ :=
  { (p.derivedDual settings).program with point := p.dualPoint settings.slackChoice y }

theorem dualAt_coordinate {part : Dual.Part} (hpart : part ∈ p.parts settings.slackChoice) :
    (p.dualAt settings y).coordinate (p.partVar settings.slackChoice part) =
      p.partValue settings.slackChoice y part := by
  simp [dualAt, coordinate, coordinate?, dualPoint, partVar, hpart]

end

theorem dualAt_point_size (h : p.WellFormed) :
    (p.dualPoint settings.slackChoice y).size = (p.derivedDual settings).program.vars.size := by
  have hvars := congrArg List.length (varIds_derivedDual h settings)
  simp only [length_varIds, List.length_map] at hvars
  simp [dualPoint, hvars]

theorem dualAt_multiplierAt (hnonzero : p.SlacksNonzero settings.slackChoice)
    (htol : settings.unitTolerance = 0) (hc : c ∈ p.constraintIds) :
    p.multiplierAt settings (p.dualAt settings y).coordinate c = y c :=
  multiplierAt_eq hnonzero htol (dualAt_coordinate p settings y
    ((p.multiplier_mem_partsOn _).mpr hc))

/-- The equations hold, whatever the multipliers. -/
theorem dualAt_rowAt (h : p.WellFormed) (hnonzero : p.SlacksNonzero settings.slackChoice)
    (htol : settings.unitTolerance = 0) (hv : v ∈ p.ordinaryVars settings.slackChoice) :
    (p.derivedDual settings).program.rowAt (p.dualRow settings.slackChoice v)
      (p.dualAt settings y).coordinate = -p.costOf v := by
  have hsum : ∑ c ∈ p.constraintIds.toFinset,
      p.entry c v * p.multiplierAt settings (p.dualAt settings y).coordinate c =
        ∑ c ∈ p.constraintIds.toFinset, p.entry c v * y c :=
    Finset.sum_congr rfl fun c hc => by
      rw [dualAt_multiplierAt hnonzero htol (List.mem_toFinset.mp hc)]
  rw [dualRowAt_eq h hv, hsum, dualAt_coordinate p settings y
    ((p.reducedCost_mem_partsOn _).mpr hv), partValue, reducedCostAt]
  ring

/-- The cones hold, if the multipliers are admissible and not negative where there is no slack. -/
theorem dualAt_cone (h : p.WellFormed) (hy : p.Admissible y)
    (hsign : ∀ c ∈ p.constraintIds, p.slackOf settings.slackChoice c = none → 0 ≤ y c)
    {k : ConeId} {cone : Cone} (hk : (p.dualAt settings y).cone? k = some cone) :
    cone.Holds (p.dualAt settings y).coordinate := by
  have hvalue : ∀ {c}, c ∈ p.constraintIds → (p.dualAt settings y).coordinate
      (p.partVar settings.slackChoice (.multiplier c)) =
        p.multiplierValue settings.slackChoice y c := fun hc =>
    dualAt_coordinate p settings y ((p.multiplier_mem_partsOn _).mpr hc)
  rcases exists_of_cone? h hk with ⟨c, hc, _, rfl⟩ | ⟨v, hv, _, rfl⟩
  · unfold multiplierCone
    cases hslack : p.slackOf settings.slackChoice c with
    | some v =>
      show 0 ≤ (p.dualAt settings y).coordinate _
      rw [hvalue hc, multiplierValue_of_slackOf hslack, ← h.reducedCostAt_of_slackOf hslack]
      exact hy v (h.mem_varIds_of_slackOf hslack)
    | none =>
      refine Cone.holds_pair_iff.mpr ?_
      rw [hvalue hc, multiplierValue_of_none hslack, dualAt_coordinate p settings y
        ((p.auxiliary_mem_partsOn _).mpr ⟨hc, hslack⟩), partValue, abs_zero]
      exact hsign c hc hslack
  · show 0 ≤ (p.dualAt settings y).coordinate _
    rw [dualAt_coordinate p settings y ((p.reducedCost_mem_partsOn _).mpr hv)]
    exact hy v (h.mem_varIds_of_mem_ordinaryVars hv)

/-! ## Which multipliers are carried -/

/-- The point with the given multipliers carries them. -/
theorem dualPoint_carries (h : p.WellFormed) (hnonzero : p.SlacksNonzero settings.slackChoice)
    (htol : settings.unitTolerance = 0) (hy : p.Admissible y)
    (hsign : ∀ c ∈ p.constraintIds, p.slackOf settings.slackChoice c = none → 0 ≤ y c) :
    (p.derivedDual settings).Carries p settings.slackChoice y
      (p.dualPoint settings.slackChoice y) where
  feasible := by
    have hsize : (p.dualPoint settings.slackChoice y).size =
        (p.derivedDual settings).program.vars.size := dualAt_point_size h
    have hd : (p.dualAt settings y).WellFormed := (h.derivedDual settings).withPoint hsize
    refine ⟨hsize, fun {r row} hr => ?_, dualAt_cone h hy hsign⟩
    obtain ⟨v, hv, rfl⟩ := exists_var_of_constraint? h hr
    have hrhs : -p.costOf v = row.rhs := by
      have hrow : (p.derivedDual settings).program.constraint? _ = _ := derivedDual_constraint? hv
      rw [show (p.derivedDual settings).program.constraint? _ = some row from hr] at hrow
      cases hrow
      rfl
    rw [residual?_eq hsize hr fun u hu => mem_varIds_iff.mpr (hd.term_var hr hu), ← hrhs]
    exact congrArg some (sub_eq_zero.mpr (dualAt_rowAt h hnonzero htol hv))
  multiplier {c} hc := by
    obtain ⟨row, hrow⟩ := mem_constraintIds_iff.mp hc
    have hpart : Dual.Part.multiplier c ∈ p.parts settings.slackChoice :=
      (p.multiplier_mem_partsOn _).mpr hc
    exact ⟨_, multiplier?_derivedDual hrow, by simp [dualPoint, partVar, hpart, partValue]⟩
  objective := by
    have hsize : (p.dualPoint settings.slackChoice y).size =
        (p.derivedDual settings).program.vars.size := dualAt_point_size h
    have hobjective : (p.derivedDual settings).program.objectiveAt (p.dualAt settings y).coordinate =
        ∑ c ∈ p.constraintIds.toFinset, p.rhsOf c * y c := by
      rw [dualObjectiveAt_eq h]
      exact Finset.sum_congr rfl fun c hc => by
        rw [dualAt_multiplierAt hnonzero htol (List.mem_toFinset.mp hc)]
    exact (objective?_eq hsize).trans (congrArg some hobjective)

/-- The apex of a cone is not negative, so neither is a multiplier that it holds. -/
theorem nonneg_of_carries {η : Array ℚ}
    (hη : (p.derivedDual settings).Carries p settings.slackChoice y η) (hc : c ∈ p.constraintIds)
    (hslack : p.slackOf settings.slackChoice c = none) : 0 ≤ y c := by
  obtain ⟨row, hrow⟩ := mem_constraintIds_iff.mp hc
  obtain ⟨u, hu, hvalue⟩ := hη.multiplier hc
  obtain rfl := Option.some.inj ((multiplier?_derivedDual hrow).symm.trans hu)
  have hcone : (p.derivedDual settings).program.cone? ⟨c.index⟩ = _ :=
    derivedDual_cone?_multiplier hc
  rw [multiplierCone, hslack] at hcone
  have hholds := Cone.holds_pair_iff.mp (hη.feasible.cone hcone)
  have hapex : ({ (p.derivedDual settings).program with point := η } : Program ℚ).coordinate
      (p.partVar settings.slackChoice (.multiplier c)) = y c := by
    rw [coordinate, coordinate?, hvalue, multiplierValue_of_none hslack, Option.getD_some]
  exact hapex ▸ (abs_nonneg _).trans hholds

/-- **The dual carries the admissible multipliers that are not negative where there is no slack**,
and no others. -/
theorem exists_carries_iff (h : p.WellFormed) (hnonzero : p.SlacksNonzero settings.slackChoice)
    (htol : settings.unitTolerance = 0) (hy : p.Admissible y) :
    (∃ η, (p.derivedDual settings).Carries p settings.slackChoice y η) ↔
      ∀ c ∈ p.constraintIds, p.slackOf settings.slackChoice c = none → 0 ≤ y c :=
  ⟨fun ⟨_, hη⟩ _ hc hslack => nonneg_of_carries hη hc hslack,
    fun hsign => ⟨_, dualPoint_carries h hnonzero htol hy hsign⟩⟩

end Program

/-- **Which multipliers a checked-out dual carries**: of those that the Lagrangian dual admits, the
ones that are not negative where a constraint has no slack. -/
theorem Exchange.checkOut_multipliers {x : Exchange ℚ} (h : x.Ready)
    (hnonzero : x.primal.SlacksNonzero x.settings.slackChoice)
    (htol : x.settings.unitTolerance = 0) (elapsed : Nat) :
    ∃ x' d, (x.checkOut elapsed).result = .ok x' ∧ x'.state = .checkedOut d ∧
      ∀ y, x.primal.Admissible y →
        ((∃ η, d.Carries x.primal x.settings.slackChoice y η) ↔
          ∀ c ∈ x.primal.constraintIds,
            x.primal.slackOf x.settings.slackChoice c = none → 0 ≤ y c) := by
  have hp : x.primal.WellFormed := wellFormed_of_checkRecords h.records
  obtain ⟨x', hresult, hstate, _⟩ := checkOut_result h elapsed
  exact ⟨x', _, hresult, hstate, fun _ hy => Program.exists_carries_iff hp hnonzero htol hy⟩

/-- Multipliers of either kind: the first constraint has a slack, the second one has none. -/
theorem Exchange.checkOut_multipliers_twoRows : ∃ x' d,
    ((Exchange.new Program.twoRows .standard).checkOut 0).result = .ok x' ∧
      x'.state = .checkedOut d ∧ Program.twoRows.Admissible (fun _ => 1) ∧
        ∃ η, d.Carries Program.twoRows .first (fun _ => 1) η := by
  obtain ⟨x', d, hresult, hstate, hcarries⟩ :=
    checkOut_multipliers twoRows_ready (by decide +kernel) rfl 0
  have hy : Program.twoRows.Admissible fun _ => 1 := by decide +kernel
  exact ⟨x', d, hresult, hstate, hy, (hcarries _ hy).mpr fun _ _ _ => zero_le_one⟩

/-- The least `x₀` with `x₀ = 5`. -/
def Program.fixedValue : Program ℚ where
  vars := #[⟨⟨0⟩, 1, 0, [⟨0⟩]⟩]
  cones := #[.nonneg ⟨0⟩]
  constraints := #[⟨⟨[(⟨0⟩, 1)], by decide⟩, 5, 0⟩]
  point := #[0]

/-- **A multiplier without slack is not free in sign**: −1 leaves no reduced cost negative, but no
feasible point of the dual has it. -/
theorem Exchange.checkOut_fixedValue : ∃ x' d,
    ((Exchange.new Program.fixedValue .standard).checkOut 0).result = .ok x' ∧
      x'.state = .checkedOut d ∧ Program.fixedValue.Admissible (fun _ => -1) ∧
        ¬∃ η, d.Carries Program.fixedValue .first (fun _ => -1) η := by
  have hready : (Exchange.new Program.fixedValue .standard).Ready :=
    ⟨rfl, by rfl, by rfl, fun _ => by rfl⟩
  obtain ⟨x', hresult, hstate, _⟩ := checkOut_result hready 0
  refine ⟨x', _, hresult, hstate, by decide +kernel, fun ⟨η, hη⟩ => ?_⟩
  have hsign : (0 : ℚ) ≤ -1 := Program.nonneg_of_carries hη (c := ⟨0⟩) (by decide) (by decide +kernel)
  exact absurd hsign (by decide)

end Conic
