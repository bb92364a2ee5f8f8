import Mathlib.Algebra.BigOperators.Field
import Conic.Proofs.Dual.Twice
import Conic.Proofs.Dual.WriteBack

/-!
# A solve cycle

Where every constraint has a slack and the tolerance is zero, an optimal triple of the dual's
standard form gives an optimal point of the primal: the multiplier of its dual constraint for an
ordinary variable, the dual value of its multiplier for a slack.

* `Program.recovered` — the point of the primal, as an assignment.
* `Program.rowAt_recovered`, `Program.recovered_nonneg` — it is feasible.
* `Program.objectiveAt_recovered` — **its cost is minus the cost of the dual.**
* `Program.settled` — the primal after the solution was written back.
* `Exchange.checkIn_optimal` — **checking out, solving the standard form and checking in.**
-/

set_option autoImplicit false

namespace Conic

namespace Program

variable {p : Program ℚ} {settings : Settings ℚ} {c : ConstraintId} {v : VarId} {x s z : List ℚ}

theorem multiplier_mem_varIds (settings : Settings ℚ) (hc : c ∈ p.constraintIds) :
    p.partVar settings.slackChoice (.multiplier c) ∈ (p.derivedDual settings).program.varIds :=
  mem_varIds_iff.mpr ⟨_, derivedDual_var?_multiplier hc⟩

theorem reducedCost_mem_varIds (hv : v ∈ p.ordinaryVars settings.slackChoice) :
    p.partVar settings.slackChoice (.reducedCost v) ∈ (p.derivedDual settings).program.varIds :=
  mem_varIds_iff.mpr ⟨_, derivedDual_var?_reducedCost hv⟩

section

variable (h : p.WellFormed)
include h

/-- A sum over the constraints of the dual. -/
theorem sum_dualRows (settings : Settings ℚ) (F : ConstraintId → ℚ) :
    ∑ r ∈ (p.derivedDual settings).program.constraintIds.toFinset, F r =
      ∑ v ∈ (p.ordinaryVars settings.slackChoice).toFinset,
        F (p.dualRow settings.slackChoice v) := by
  rw [List.sum_toFinset _ (constraintIds_nodup _), List.sum_toFinset _ h.ordinaryVars_nodup,
    derivedDual_constraintIds h, List.map_map]
  rfl

/-- The reduced cost of the multiplier of a constraint, at any multipliers `μ` of the dual: what the
ordinary variables leave of the right-hand side when they take those multipliers. -/
theorem reducedCost_multiplier (hc : c ∈ p.constraintIds) (μ : ConstraintId → ℚ) :
    (p.derivedDual settings).program.costOf (p.partVar settings.slackChoice (.multiplier c)) -
        ∑ r ∈ (p.derivedDual settings).program.constraintIds.toFinset,
          (p.derivedDual settings).program.entry r
            (p.partVar settings.slackChoice (.multiplier c)) * μ r =
      dividedBy (p.divisorOf? settings c)
        (p.rhsOf c - ∑ u ∈ (p.ordinaryVars settings.slackChoice).toFinset,
          p.entry c u * μ (p.dualRow settings.slackChoice u)) := by
  have hentry : ∀ u ∈ (p.ordinaryVars settings.slackChoice).toFinset,
      (p.derivedDual settings).program.entry (p.dualRow settings.slackChoice u)
          (p.partVar settings.slackChoice (.multiplier c)) *
            μ (p.dualRow settings.slackChoice u) =
        dividedBy (p.divisorOf? settings c)
          (p.entry c u * μ (p.dualRow settings.slackChoice u)) := by
    intro u hu
    rw [derivedDual_entry_multiplier h (List.mem_toFinset.mp hu) hc]
    cases p.divisorOf? settings c with
    | none => rfl
    | some k => exact div_mul_eq_mul_div _ _ _
  rw [h.derivedDual_costOf_multiplier hc, sum_dualRows h, Finset.sum_congr rfl hentry]
  cases p.divisorOf? settings c with
  | none => rfl
  | some k =>
    simp only [dividedBy]
    rw [← Finset.sum_div, ← sub_div]

/-! ## Dual values of the dual -/

variable (hopt : (p.derivedDual settings).program.exported.Optimal x s z)
  (hpart : (p.derivedDual settings).program.Partitioned)
include hopt hpart

/-- The dual value of a reduced-cost variable is the multiplier of its constraint. -/
theorem coneValue_reducedCost (hv : v ∈ p.ordinaryVars settings.slackChoice) :
    (p.derivedDual settings).program.coneValue z
      (p.partVar settings.slackChoice (.reducedCost v)) =
        rowValue z (p.dualRow settings.slackChoice v) := by
  have hentry : ∀ u ∈ (p.ordinaryVars settings.slackChoice).toFinset,
      (p.derivedDual settings).program.entry (p.dualRow settings.slackChoice u)
          (p.partVar settings.slackChoice (.reducedCost v)) *
            rowValue z (p.dualRow settings.slackChoice u) =
        if u = v then -rowValue z (p.dualRow settings.slackChoice v) else 0 := by
    intro u hu
    rw [derivedDual_entry_reducedCost h (List.mem_toFinset.mp hu) hv]
    by_cases huv : u = v
    · rw [if_pos huv, if_pos huv.symm, huv, neg_one_mul]
    · rw [if_neg huv, if_neg (Ne.symm huv), zero_mul]
  have hmem : v ∈ (p.ordinaryVars settings.slackChoice).toFinset := List.mem_toFinset.mpr hv
  rw [optimal_coneValue hopt hpart (reducedCost_mem_varIds hv), derivedDual_costOf_reducedCost hv,
    sum_dualRows h, Finset.sum_congr rfl hentry, Finset.sum_ite_eq' _ v, if_pos hmem, zero_sub, neg_neg]

/-- The dual value of a multiplier is what its slack has to be. -/
theorem coneValue_multiplier (htol : settings.unitTolerance = 0)
    (hs : p.slackOf settings.slackChoice c = some v) {k : ℚ} (hk : p.coefficient? c v = some k) :
    (p.derivedDual settings).program.coneValue z
      (p.partVar settings.slackChoice (.multiplier c)) =
        (p.rhsOf c - ∑ u ∈ (p.ordinaryVars settings.slackChoice).toFinset,
          p.entry c u * rowValue z (p.dualRow settings.slackChoice u)) / k := by
  have hc := mem_constraintIds_of_slackOf hs
  rw [optimal_coneValue hopt hpart (multiplier_mem_varIds settings hc),
    reducedCost_multiplier h hc, dividedBy_divisorOf? htol hs hk]

end

/-! ## The recovered point -/

/-- The point of the primal that the multipliers `z` of the dual's standard form give. -/
def recovered (p : Program ℚ) (settings : Settings ℚ) (z : List ℚ) (v : VarId) : ℚ :=
  match p.slackRow? settings.slackChoice v with
  | some c => (p.derivedDual settings).program.coneValue z
    (p.partVar settings.slackChoice (.multiplier c))
  | none => rowValue z (p.dualRow settings.slackChoice v)

section

variable (h : p.WellFormed)
include h

theorem recovered_of_slackOf (hv : p.slackOf settings.slackChoice c = some v) :
    p.recovered settings z v = (p.derivedDual settings).program.coneValue z
      (p.partVar settings.slackChoice (.multiplier c)) := by
  unfold recovered
  rw [h.slackRow?_eq_some_iff.mpr hv]

theorem recovered_of_mem_ordinaryVars (hv : v ∈ p.ordinaryVars settings.slackChoice) :
    p.recovered settings z v = rowValue z (p.dualRow settings.slackChoice v) := by
  unfold recovered
  rw [h.slackRow?_eq_none_iff.mpr (h.mem_ordinaryVars_iff.mp hv).2]

variable (hcones : p.Orthant) (hslack : p.SlackEverywhere)
  (hnonzero : p.SlacksNonzero settings.slackChoice) (htol : settings.unitTolerance = 0)
  (hopt : (p.derivedDual settings).program.exported.Optimal x s z)
include hslack

theorem derivedDual_partitioned (settings : Settings ℚ) :
    (p.derivedDual settings).program.Partitioned :=
  (h.derivedDual settings).partitioned (derivedDual_orthant h hslack)

include hopt hcones

/-- The recovered point is nonnegative. -/
theorem recovered_nonneg (hv : v ∈ p.varIds) : 0 ≤ p.recovered settings z v := by
  have hpart := derivedDual_partitioned h hslack settings
  rcases List.mem_append.mp ((varIds_perm h hcones settings.slackChoice).mem_iff.mp hv) with
    hv | hv
  · rw [recovered_of_mem_ordinaryVars h hv, ← coneValue_reducedCost h hopt hpart hv]
    exact optimal_coneValue_nonneg hopt hpart (reducedCost_mem_varIds hv)
  · obtain ⟨c, hc, hs⟩ := List.mem_filterMap.mp hv
    rw [recovered_of_slackOf h hs]
    exact optimal_coneValue_nonneg hopt hpart (multiplier_mem_varIds settings hc)

include htol hnonzero

omit hcones in
/-- The slack of a constraint takes what the other terms leave. -/
theorem atSlack_recovered (hc : c ∈ p.constraintIds) :
    p.atSlack settings.slackChoice (fun s => p.entry c s * p.recovered settings z s) c =
      p.rhsOf c - ∑ u ∈ (p.ordinaryVars settings.slackChoice).toFinset,
        p.entry c u * p.recovered settings z u := by
  obtain ⟨s, hs⟩ := hslack.exists_slackOf settings.slackChoice hc
  obtain ⟨k, hk⟩ := exists_coefficient_of_slackOf hs
  have hk0 : k ≠ 0 := fun he => hnonzero hs (he ▸ hk)
  have hsum : ∑ u ∈ (p.ordinaryVars settings.slackChoice).toFinset,
      p.entry c u * p.recovered settings z u =
        ∑ u ∈ (p.ordinaryVars settings.slackChoice).toFinset,
          p.entry c u * rowValue z (p.dualRow settings.slackChoice u) :=
    Finset.sum_congr rfl fun u hu => by
      rw [recovered_of_mem_ordinaryVars h (List.mem_toFinset.mp hu)]
  unfold atSlack
  rw [hs, Option.map_some, Option.getD_some, entry, hk, Option.getD_some,
    recovered_of_slackOf h hs,
    coneValue_multiplier h hopt (derivedDual_partitioned h hslack settings) htol hs hk, hsum,
    mul_div_cancel₀ _ hk0]

/-- **The recovered point satisfies the constraints.** -/
theorem rowAt_recovered (hc : c ∈ p.constraintIds) :
    p.rowAt c (p.recovered settings z) = p.rhsOf c := by
  rw [rowAt_eq h hcones settings.slackChoice hc,
    atSlack_recovered h hslack hnonzero htol hopt hc]
  ring

/-- **The cost of the recovered point is minus the cost of the dual.** -/
theorem objectiveAt_recovered : p.objectiveAt (p.recovered settings z) =
    -(p.derivedDual settings).program.objectiveAt (pointAt x) := by
  have hpart := derivedDual_partitioned h hslack settings
  have hrows : ∀ v ∈ p.ordinaryVars settings.slackChoice,
      (p.derivedDual settings).program.rowAt (p.dualRow settings.slackChoice v) (pointAt x) =
        -p.costOf v := fun v hv =>
    (optimal_rowAt hopt (dualRow_mem_constraintIds hv)).trans (derivedDual_rhsOf hv)
  have hgap := gap_eq h hcones
    (fun c hc => rowAt_recovered h hcones hslack hnonzero htol hopt hc) hrows
  have hslacks : ∀ c ∈ p.constraintIds.toFinset, p.multiplierAt settings (pointAt x) c *
      p.atSlack settings.slackChoice (fun s => p.entry c s * p.recovered settings z s) c =
        pointAt x (p.partVar settings.slackChoice (.multiplier c)) *
          (p.derivedDual settings).program.coneValue z
            (p.partVar settings.slackChoice (.multiplier c)) := by
    intro c hc
    obtain ⟨s, hs⟩ := hslack.exists_slackOf settings.slackChoice (List.mem_toFinset.mp hc)
    obtain ⟨k, hk⟩ := exists_coefficient_of_slackOf hs
    have hk0 : k ≠ 0 := fun he => hnonzero hs (he ▸ hk)
    unfold multiplierAt
    rw [dividedBy_divisorOf? htol hs hk, atSlack, hs, Option.map_some,
      Option.getD_some, entry, hk, Option.getD_some, recovered_of_slackOf h hs, ← mul_assoc,
      div_mul_cancel₀ _ hk0]
  have hordinary : ∀ v ∈ (p.ordinaryVars settings.slackChoice).toFinset,
      pointAt x (p.partVar settings.slackChoice (.reducedCost v)) * p.recovered settings z v =
        pointAt x (p.partVar settings.slackChoice (.reducedCost v)) *
          (p.derivedDual settings).program.coneValue z
            (p.partVar settings.slackChoice (.reducedCost v)) := by
    intro v hv
    have hv := List.mem_toFinset.mp hv
    rw [recovered_of_mem_ordinaryVars h hv, coneValue_reducedCost h hopt hpart hv]
  have hauxiliary : ∀ c ∈ p.constraintIds.toFinset,
      (if (p.slackOf settings.slackChoice c).isSome = true then 0 else
        pointAt x (p.partVar settings.slackChoice (.auxiliary c)) *
          (p.derivedDual settings).program.coneValue z
            (p.partVar settings.slackChoice (.auxiliary c))) = 0 := by
    intro c hc
    obtain ⟨s, hs⟩ := hslack.exists_slackOf settings.slackChoice (List.mem_toFinset.mp hc)
    rw [hs]
    exact if_pos rfl
  -- The gap is the sum that complementarity says is zero.
  have hzero := optimal_complementary hopt hpart
  rw [sum_dualVars h, Finset.sum_eq_zero hauxiliary, add_zero, add_comm] at hzero
  rw [Finset.sum_congr rfl hordinary, Finset.sum_congr rfl hslacks, hzero] at hgap
  exact eq_neg_of_add_eq_zero_left hgap

end

/-! ## Writing the solution back -/

/-- The dual that holds a solution of its standard form. -/
def solvedDual (p : Program ℚ) (settings : Settings ℚ) (x z : List ℚ) : Dual ℚ :=
  { p.derivedDual settings with program := (p.derivedDual settings).program.solved x z }

section

variable (h : p.WellFormed)
include h

/-- The tables of a derived dual resolve, whatever solution it holds. -/
theorem solvedDual_resolves : (p.solvedDual settings x z).Resolves p where
  rows_size := by
    show (p.rowTable settings.slackChoice _).size ≤ p.point.size
    simp [rowTable, h.point_size]
  slacks_size := by
    show (p.slackTable settings.slackChoice _).size ≤ p.point.size
    simp [slackTable, h.point_size]
  row := by
    intro v r hr
    obtain ⟨hv, rfl⟩ := (constraintOf?_derivedDual_eq_some_iff h).mp hr
    rw [solvedDual, solved_constraint?, derivedDual_constraint? hv]
    exact ⟨_, rfl⟩
  var := by
    intro v y hy
    obtain ⟨c, hc, rfl⟩ := (slackVarOf?_derivedDual_eq_some_iff h).mp hy
    rw [solvedDual, solved_var?, derivedDual_var?_multiplier (mem_constraintIds_of_slackOf hc)]
    exact ⟨_, rfl⟩

/-- The primal after the solution was written back. -/
def settled (p : Program ℚ) (settings : Settings ℚ) (x z : List ℚ) : Program ℚ :=
  (p.withCoordinates (p.solvedDual settings x z).multiplierOf?).withCoordinates
    (p.solvedDual settings x z).reducedCostOf?

theorem settled_coordinate (hcones : p.Orthant) (hv : v ∈ p.varIds) :
    (p.settled settings x z).coordinate v = p.recovered settings z v := by
  have hsettled : p.settled settings x z =
      p.settledWith settings ((p.derivedDual settings).program.solved x z) := rfl
  unfold coordinate
  rcases List.mem_append.mp ((varIds_perm h hcones settings.slackChoice).mem_iff.mp hv) with
    hv | hv
  · have hmem : p.dualRow settings.slackChoice v ∈ (p.derivedDual settings).program.constraintIds :=
      dualRow_mem_constraintIds hv
    obtain ⟨row, hr⟩ := mem_constraintIds_iff.mp hmem
    have hrow : ((p.derivedDual settings).program.solved x z).constraint? _ = some _ :=
      solved_constraint?.trans (congrArg _ hr)
    rw [hsettled, settledWith_ordinary h hv hrow, recovered_of_mem_ordinaryVars h hv]
    rfl
  · obtain ⟨c, hc, hs⟩ := List.mem_filterMap.mp hv
    obtain ⟨y, hy⟩ := mem_varIds_iff.mp (multiplier_mem_varIds settings hc)
    have hvar : ((p.derivedDual settings).program.solved x z).var? _ = some _ :=
      solved_var?.trans (congrArg _ hy)
    rw [hsettled, settledWith_slack h hs hvar, recovered_of_slackOf h hs]
    rfl

theorem settled_wellFormed : (p.settled settings x z).WellFormed := by
  have hsize : (p.settled settings x z).point.size = p.vars.size := by
    simp [settled, withCoordinates, h.point_size]
  exact h.withPoint hsize

variable (hcones : p.Orthant) (hslack : p.SlackEverywhere)
  (hopt : (p.derivedDual settings).program.exported.Optimal x s z)
include hcones hslack hopt

theorem settled_coordinate_nonneg (hv : v ∈ p.varIds) :
    0 ≤ (p.settled settings x z).coordinate v := by
  rw [settled_coordinate h hcones hv]
  exact recovered_nonneg h hcones hslack hopt hv

/-- No number of the point is negative. -/
theorem settled_point_nonneg {a : ℚ} (ha : a ∈ (p.settled settings x z).point) : 0 ≤ a := by
  obtain ⟨v, hv, rfl⟩ := exists_coordinate (settled_wellFormed h).point_size ha
  exact settled_coordinate_nonneg h hcones hslack hopt hv

variable (hnonzero : p.SlacksNonzero settings.slackChoice) (htol : settings.unitTolerance = 0)
include hnonzero htol

/-- **The primal is feasible.** -/
theorem settled_feasible : (p.settled settings x z).Feasible := by
  have hwf : (p.settled settings x z).WellFormed := settled_wellFormed h
  refine hwf.feasible hcones (fun c hc => ?_) fun v hv =>
    settled_coordinate_nonneg h hcones hslack hopt hv
  show p.rowAt c (p.settled settings x z).coordinate = p.rhsOf c
  rw [rowAt_congr fun v hv => settled_coordinate h hcones hv]
  exact rowAt_recovered h hcones hslack hnonzero htol hopt hc

/-- **Its cost is minus the cost of the dual.** -/
theorem settled_objective? : (p.settled settings x z).objective? =
    some (-(p.derivedDual settings).program.objectiveAt (pointAt x)) := by
  have hwf : (p.settled settings x z).WellFormed := settled_wellFormed h
  have hobjective : p.objectiveAt (p.settled settings x z).coordinate =
      p.objectiveAt (p.recovered settings z) :=
    objectiveAt_congr fun v hv => settled_coordinate h hcones hv
  rw [objective?_eq hwf.point_size, ← objectiveAt_recovered h hcones hslack hnonzero htol hopt,
    ← hobjective]
  rfl

end

end Program

/-- Storing a solution of the standard form in a dual that is checked out. -/
theorem Exchange.editDual_apply {x : Exchange ℚ} {p : Program ℚ} (hp : p.WellFormed)
    (hslack : p.SlackEverywhere) {settings : Settings ℚ}
    (hstate : x.state = .checkedOut (p.derivedDual settings)) {ξ s z : List ℚ}
    (hopt : (p.derivedDual settings).program.exported.Optimal ξ s z) :
    x.editDual (fun q =>
      ((p.derivedDual settings).program.exported.apply q ξ z).map fun q => (q, ())) =
        .ok (.ok ({ x with state := .checkedOut (p.solvedDual settings ξ z) }, ())) := by
  have hd : (p.derivedDual settings).program.WellFormed := hp.derivedDual settings
  have happly := Program.apply_exported (Program.derivedDual_partitioned hp hslack settings)
    hd.point_size (hopt.length_x.trans (Program.length_exported_cost _))
    (hopt.length_z.trans (Program.length_exported_rhs _))
  have hdual : x.dual = .ok (p.derivedDual settings) := by rw [dual, hstate]
  unfold editDual
  rw [hdual]
  show Except.ok (Except.map _ (Except.map _ (_ : Except _ _))) = _
  rw [happly]
  rfl

/-- **A solve cycle**: check the dual out, take any optimal triple of its standard form, store it in
the dual and check the dual in. The primal then holds a feasible point, whose cost is minus that of
the dual. -/
theorem Exchange.checkIn_optimal {x : Exchange ℚ} (h : x.Ready) (hcones : x.primal.Orthant)
    (hslack : x.primal.SlackEverywhere) (hnonzero : x.primal.SlacksNonzero x.settings.slackChoice)
    (htol : x.settings.unitTolerance = 0) (elapsed : Nat) :
    ∃ x₁ d f, (x.checkOut elapsed).result = .ok x₁ ∧ x₁.state = .checkedOut d ∧
      d.program.standardForm = .ok f ∧
      ∀ ξ s z, f.Optimal ξ s z → ∃ x₂ x₃,
        x₁.editDual (fun q => (f.apply q ξ z).map fun q => (q, ())) = .ok (.ok (x₂, ())) ∧
        x₂.checkIn.result = .ok x₃ ∧
        x₃.primal = { x.primal with point := x₃.primal.point } ∧
        x₃.primal.Feasible ∧ (∀ a ∈ x₃.primal.point, 0 ≤ a) ∧
        ∃ o, Vector.dot? f.cost ξ = some o ∧ x₃.primal.objective? = some (-o) := by
  have hp : x.primal.WellFormed := wellFormed_of_checkRecords h.records
  have hd : (x.primal.derivedDual x.settings).program.WellFormed := hp.derivedDual x.settings
  have hpart := Program.derivedDual_partitioned hp hslack x.settings
  obtain ⟨x₁, hresult, hstate, hprimal, _⟩ := checkOut_result h elapsed
  refine ⟨x₁, _, _, hresult, hstate, hd.standardForm_eq hpart, fun ξ s z hopt => ?_⟩
  let x₂ : Exchange ℚ :=
    { x₁ with state := .checkedOut (x.primal.solvedDual x.settings ξ z) }
  have hresolves : (x.primal.solvedDual x.settings ξ z).Resolves x₂.primal := by
    show Dual.Resolves _ x₁.primal
    rw [hprimal]
    exact Program.solvedDual_resolves hp
  obtain ⟨x₃, hcheckIn, _, _, hsettled⟩ := checkIn_result (x := x₂) rfl hresolves
  have hprimal' : x₃.primal = x.primal.settled x.settings ξ z := by
    show _ = Program.withCoordinates (Program.withCoordinates _ _) _
    rw [hsettled, ← hprimal]
  refine ⟨x₂, x₃, editDual_apply hp hslack hstate hopt, hcheckIn, ?_, ?_, ?_, _,
    Program.optimal_dot hopt, ?_⟩
  · rw [hprimal']
    rfl
  · rw [hprimal']
    exact Program.settled_feasible hp hcones hslack hopt hnonzero htol
  · rw [hprimal']
    exact fun a ha => Program.settled_point_nonneg hp hcones hslack hopt ha
  · rw [hprimal']
    exact Program.settled_objective? hp hcones hslack hopt hnonzero htol

theorem Exchange.checkIn_optimal_slackRows : ∃ x₁ d f,
    ((Exchange.new Program.slackRows .standard).checkOut 0).result = .ok x₁ ∧
      x₁.state = .checkedOut d ∧ d.program.standardForm = .ok f ∧
      f.Optimal [0, 6, 0] [0, 0, 6, 0] [-1, 1, 0, 1] ∧ ∃ x₂ x₃,
        x₁.editDual (fun q => (f.apply q [0, 6, 0] [-1, 1, 0, 1]).map fun q => (q, ())) =
          .ok (.ok (x₂, ())) ∧
        x₂.checkIn.result = .ok x₃ ∧
        x₃.primal = { Program.slackRows with point := x₃.primal.point } ∧
        x₃.primal.Feasible ∧ (∀ a ∈ x₃.primal.point, 0 ≤ a) ∧
        ∃ o, Vector.dot? f.cost [0, 6, 0] = some o ∧ x₃.primal.objective? = some (-o) := by
  obtain ⟨x₁, d, f, hresult, hstate, hform, hcycle⟩ := checkIn_optimal slackRows_ready (by decide)
    (by decide +kernel) (by decide +kernel) rfl 0
  obtain ⟨x₁', hresult', hstate', _⟩ := checkOut_result slackRows_ready 0
  obtain rfl : x₁ = x₁' := Except.ok.inj (hresult.symm.trans hresult')
  obtain rfl := State.checkedOut.inj (hstate.symm.trans hstate')
  have hp : Program.slackRows.WellFormed := wellFormed_of_checkRecords slackRows_ready.records
  have hpart := Program.derivedDual_partitioned hp (by decide +kernel) .standard
  obtain rfl := Except.ok.inj (hform.symm.trans ((hp.derivedDual .standard).standardForm_eq hpart))
  let q := (Program.slackRows.derivedDual .standard).program
  have hopt : q.exported.Optimal [0, 6, 0] [0, 0, 6, 0] [-1, 1, 0, 1] := by
    have hat : ∀ i < 4, ∀ j < 3, q.exported.matrix.at i j =
        SparseMatrix.valueAt q.matrixEntries i j :=
      fun i hi j hj => Program.exported_at hi hj
    refine ⟨rfl, rfl, rfl, fun i hi => ?_, fun j hj => ?_, ?_, ?_, ?_, ?_⟩
    · rw [Finset.sum_congr rfl fun j hj => by rw [hat i hi j (Finset.mem_range.mp hj)]]
      revert i
      decide +kernel
    · rw [Finset.sum_congr rfl fun i hi => by rw [hat i (Finset.mem_range.mp hi) j hj]]
      revert j
      decide +kernel
    all_goals decide +kernel
  exact ⟨x₁, _, _, hresult, hstate, hform, hopt, hcycle _ _ _ hopt⟩

end Conic
