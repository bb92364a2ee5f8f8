import Mathlib.Tactic.Ring
import Mathlib.Algebra.BigOperators.Group.Finset.Sigma
import Mathlib.Tactic.LinearCombination
import Conic.Proofs.Dual.Lookup
import Conic.Proofs.Program.Feasible

/-!
# The duality gap

Over the rationals, at any two assignments that satisfy the equations of a primal and of its dual.

* `Program.multiplierAt` — the multiplier of a constraint that the dual constraints use.
* `Program.dualRowAt_eq`, `Program.dualObjectiveAt_eq` — constraints and objective of the dual.
* `Program.gap_eq` — **both objectives together are a sum of products of reduced costs and
  coordinates.**
-/

set_option autoImplicit false

namespace Conic.Program

variable {p : Program ℚ} {settings : Settings ℚ} {c : ConstraintId} {v : VarId} {Y : VarId → ℚ}

/-- The multiplier of a constraint that the dual constraints use: the multiplier variable, divided
by the coefficient of the slack where it was rescaled. -/
def multiplierAt (p : Program ℚ) (settings : Settings ℚ) (Y : VarId → ℚ) (c : ConstraintId) : ℚ :=
  dividedBy (p.divisorOf? settings c) (Y (p.partVar settings.slackChoice (.multiplier c)))

/-- Dividing either factor of a product. -/
theorem dividedBy_mul (k : Option ℚ) (a b : ℚ) : dividedBy k a * b = a * dividedBy k b := by
  cases k with
  | none => rfl
  | some k => exact div_mul_comm a k b |>.trans (mul_comm _ _)

/-! ## Sums over the dual -/

theorem sum_flatMap {β γ : Type} (l : List β) (g : β → List γ) (f : γ → ℚ) :
    ((l.flatMap g).map f).sum = (l.map fun b => ((g b).map f).sum).sum := by
  induction l with
  | nil => rfl
  | cons b l ih => simp [ih]

section

variable (h : p.WellFormed)
include h

/-- A sum over the variables of the dual, by what they stand for. -/
theorem sum_dualVars (settings : Settings ℚ) (F : VarId → ℚ) :
    ∑ u ∈ (p.derivedDual settings).program.varIds.toFinset, F u =
      ∑ c ∈ p.constraintIds.toFinset, F (p.partVar settings.slackChoice (.multiplier c)) +
      ∑ c ∈ p.constraintIds.toFinset, (if (p.slackOf settings.slackChoice c).isSome then 0
        else F (p.partVar settings.slackChoice (.auxiliary c))) +
      ∑ v ∈ (p.ordinaryVars settings.slackChoice).toFinset,
        F (p.partVar settings.slackChoice (.reducedCost v)) := by
  have hparts : ∀ c, ((p.partsOf settings.slackChoice c).map
      (F ∘ p.partVar settings.slackChoice)).sum =
      F (p.partVar settings.slackChoice (.multiplier c)) +
        if (p.slackOf settings.slackChoice c).isSome then 0
        else F (p.partVar settings.slackChoice (.auxiliary c)) := by
    intro c
    unfold partsOf
    split <;> simp
  rw [List.sum_toFinset _ (varIds_nodup _), List.sum_toFinset _ h.ordinaryVars_nodup,
    ← Finset.sum_add_distrib, List.sum_toFinset _ p.constraintIds_nodup, varIds_derivedDual h,
    parts, partsOn, List.map_map, List.map_append, List.sum_append, sum_flatMap, List.map_map]
  simp only [hparts]
  rfl

/-- **The objective of the dual.** -/
theorem dualObjectiveAt_eq : (p.derivedDual settings).program.objectiveAt Y =
    ∑ c ∈ p.constraintIds.toFinset, p.rhsOf c * p.multiplierAt settings Y c := by
  have hmultiplier : ∀ c ∈ p.constraintIds.toFinset, (p.derivedDual settings).program.costOf
      (p.partVar settings.slackChoice (.multiplier c)) *
        Y (p.partVar settings.slackChoice (.multiplier c)) =
          p.rhsOf c * p.multiplierAt settings Y c := by
    intro c hc
    rw [h.derivedDual_costOf_multiplier (List.mem_toFinset.mp hc)]
    exact dividedBy_mul _ _ _
  have hauxiliary : ∀ c ∈ p.constraintIds.toFinset,
      (if (p.slackOf settings.slackChoice c).isSome = true then 0 else
        (p.derivedDual settings).program.costOf (p.partVar settings.slackChoice (.auxiliary c)) *
          Y (p.partVar settings.slackChoice (.auxiliary c))) = 0 := by
    intro c hc
    split
    · rfl
    · rename_i hslack
      rw [derivedDual_costOf_auxiliary (List.mem_toFinset.mp hc) (by simpa using hslack), zero_mul]
  have hreducedCost : ∀ v ∈ (p.ordinaryVars settings.slackChoice).toFinset,
      (p.derivedDual settings).program.costOf (p.partVar settings.slackChoice (.reducedCost v)) *
        Y (p.partVar settings.slackChoice (.reducedCost v)) = 0 := by
    intro v hv
    rw [derivedDual_costOf_reducedCost (List.mem_toFinset.mp hv), zero_mul]
  unfold objectiveAt
  rw [sum_dualVars h, Finset.sum_congr rfl hmultiplier, Finset.sum_eq_zero hauxiliary,
    Finset.sum_eq_zero hreducedCost, add_zero, add_zero]

/-! ## The constraints of the dual -/

section

variable (hv : v ∈ p.ordinaryVars settings.slackChoice)
include hv

theorem derivedDual_entry_multiplier (hc : c ∈ p.constraintIds) :
    (p.derivedDual settings).program.entry (p.dualRow settings.slackChoice v)
      (p.partVar settings.slackChoice (.multiplier c)) =
        dividedBy (p.divisorOf? settings c) (p.entry c v) := by
  unfold entry
  rw [h.derivedDual_coefficient?_multiplier hv hc]
  cases p.coefficient? c v with
  | some a => rfl
  | none => cases p.divisorOf? settings c <;> simp [dividedBy]

theorem derivedDual_entry_auxiliary (hc : c ∈ p.constraintIds)
    (hnone : p.slackOf settings.slackChoice c = none) :
    (p.derivedDual settings).program.entry (p.dualRow settings.slackChoice v)
      (p.partVar settings.slackChoice (.auxiliary c)) = 0 := by
  unfold entry
  rw [h.derivedDual_coefficient?_auxiliary hv hc hnone]
  rfl

theorem derivedDual_entry_reducedCost {u : VarId} (hu : u ∈ p.ordinaryVars settings.slackChoice) :
    (p.derivedDual settings).program.entry (p.dualRow settings.slackChoice v)
      (p.partVar settings.slackChoice (.reducedCost u)) = if u = v then -1 else 0 := by
  unfold entry
  rw [h.derivedDual_coefficient?_reducedCost hv hu]
  split <;> rfl

/-- **The left-hand side of a dual constraint.** -/
theorem dualRowAt_eq : (p.derivedDual settings).program.rowAt (p.dualRow settings.slackChoice v) Y =
    ∑ c ∈ p.constraintIds.toFinset, p.entry c v * p.multiplierAt settings Y c -
      Y (p.partVar settings.slackChoice (.reducedCost v)) := by
  have hmultiplier : ∀ c ∈ p.constraintIds.toFinset, (p.derivedDual settings).program.entry
      (p.dualRow settings.slackChoice v) (p.partVar settings.slackChoice (.multiplier c)) *
        Y (p.partVar settings.slackChoice (.multiplier c)) =
          p.entry c v * p.multiplierAt settings Y c := by
    intro c hc
    rw [derivedDual_entry_multiplier h hv (List.mem_toFinset.mp hc)]
    exact dividedBy_mul _ _ _
  have hauxiliary : ∀ c ∈ p.constraintIds.toFinset,
      (if (p.slackOf settings.slackChoice c).isSome = true then 0 else
        (p.derivedDual settings).program.entry (p.dualRow settings.slackChoice v)
          (p.partVar settings.slackChoice (.auxiliary c)) *
            Y (p.partVar settings.slackChoice (.auxiliary c))) = 0 := by
    intro c hc
    split
    · rfl
    · rename_i hslack
      rw [derivedDual_entry_auxiliary h hv (List.mem_toFinset.mp hc) (by simpa using hslack),
        zero_mul]
  have hreducedCost : ∀ u ∈ (p.ordinaryVars settings.slackChoice).toFinset,
      (p.derivedDual settings).program.entry (p.dualRow settings.slackChoice v)
          (p.partVar settings.slackChoice (.reducedCost u)) *
            Y (p.partVar settings.slackChoice (.reducedCost u)) =
        if u = v then -Y (p.partVar settings.slackChoice (.reducedCost v)) else 0 := by
    intro u hu
    rw [derivedDual_entry_reducedCost h hv (List.mem_toFinset.mp hu)]
    split
    · rename_i huv
      rw [huv, neg_one_mul]
    · exact zero_mul _
  have hmem : v ∈ (p.ordinaryVars settings.slackChoice).toFinset := List.mem_toFinset.mpr hv
  unfold rowAt
  rw [sum_dualVars h, Finset.sum_congr rfl hmultiplier, Finset.sum_eq_zero hauxiliary,
    Finset.sum_congr rfl hreducedCost, Finset.sum_ite_eq' _ v, if_pos hmem, add_zero, sub_eq_add_neg]

end

/-! ## Sums over the primal -/

/-- What the chosen slack of a constraint contributes to a sum over variables. -/
def atSlack (p : Program ℚ) (choice : SlackChoice) (F : VarId → ℚ) (c : ConstraintId) : ℚ :=
  ((p.slackOf choice c).map F).getD 0

omit h in
theorem sum_filterMap {β γ : Type} (l : List β) (g : β → Option γ) (f : γ → ℚ) :
    ((l.filterMap g).map f).sum = (l.map fun b => ((g b).map f).getD 0).sum := by
  induction l with
  | nil => rfl
  | cons b l ih => cases hb : g b <;> simp [hb, ih]

/-- Every variable is either ordinary or the chosen slack of one constraint. -/
theorem varIds_perm (hcones : p.Orthant) (choice : SlackChoice) :
    p.varIds.Perm (p.ordinaryVars choice ++ p.constraintIds.filterMap (p.slackOf choice)) := by
  have hslacks : (p.constraintIds.filterMap (p.slackOf choice)).Nodup :=
    p.constraintIds_nodup.filterMap fun c d v hc hd => h.slackOf_unique hc hd
  have hnd : (p.ordinaryVars choice ++ p.constraintIds.filterMap (p.slackOf choice)).Nodup := by
    refine List.nodup_append.mpr ⟨h.ordinaryVars_nodup, hslacks, fun v hv u hu he => ?_⟩
    obtain ⟨c, _, hc⟩ := List.mem_filterMap.mp hu
    exact (h.mem_ordinaryVars_iff.mp hv).2 c (he ▸ hc)
  refine (List.perm_ext_iff_of_nodup p.varIds_nodup hnd).mpr fun v => ?_
  rw [List.mem_append, h.mem_ordinaryVars_iff, List.mem_filterMap]
  constructor
  · intro hv
    have hnonneg := h.mem_nonnegVars_of_mem_varIds hcones hv
    by_cases hslack : ∃ c, p.slackOf choice c = some v
    · obtain ⟨c, hc⟩ := hslack
      exact Or.inr ⟨c, mem_constraintIds_of_slackOf hc, hc⟩
    · exact Or.inl ⟨hnonneg, fun c hc => hslack ⟨c, hc⟩⟩
  · rintro (⟨hv, _⟩ | ⟨c, _, hc⟩)
    · exact h.mem_varIds_of_mem_nonnegVars hv
    · exact h.mem_varIds_of_slackOf hc

/-- A sum over the variables of the primal: ordinary variables and chosen slacks. -/
theorem sum_primalVars (hcones : p.Orthant) (choice : SlackChoice) (F : VarId → ℚ) :
    ∑ v ∈ p.varIds.toFinset, F v = ∑ v ∈ (p.ordinaryVars choice).toFinset, F v +
      ∑ c ∈ p.constraintIds.toFinset, p.atSlack choice F c := by
  rw [List.sum_toFinset _ p.varIds_nodup, List.sum_toFinset _ h.ordinaryVars_nodup,
    List.sum_toFinset _ p.constraintIds_nodup, ((varIds_perm h hcones choice).map F).sum_eq,
    List.map_append, List.sum_append, sum_filterMap]
  rfl

/-- The left-hand side of a constraint, with the chosen slack set apart. -/
theorem rowAt_eq (hcones : p.Orthant) (choice : SlackChoice) (hc : c ∈ p.constraintIds)
    (X : VarId → ℚ) : p.rowAt c X = ∑ v ∈ (p.ordinaryVars choice).toFinset, p.entry c v * X v +
      p.atSlack choice (fun s => p.entry c s * X s) c := by
  have hother : ∀ d ∈ p.constraintIds.toFinset, d ≠ c →
      p.atSlack choice (fun s => p.entry c s * X s) d = 0 := by
    intro d _ hdc
    unfold atSlack
    cases hd : p.slackOf choice d with
    | none => rfl
    | some s => simp [entry, h.coefficient?_of_slackOf hd hdc.symm]
  unfold rowAt
  rw [sum_primalVars h hcones choice,
    Finset.sum_eq_single_of_mem c (List.mem_toFinset.mpr hc) hother]

theorem costOf_of_slackOf {choice : SlackChoice} (hv : p.slackOf choice c = some v) :
    p.costOf v = 0 := by
  obtain ⟨x, hx, _, _, hcost⟩ := h.slackOf_var hv
  unfold costOf
  rw [hx]
  exact eq_of_beq hcost

/-- Chosen slacks cost nothing. -/
theorem objectiveAt_eq (hcones : p.Orthant) (choice : SlackChoice) (X : VarId → ℚ) :
    p.objectiveAt X = ∑ v ∈ (p.ordinaryVars choice).toFinset, p.costOf v * X v := by
  have hslack : ∀ c ∈ p.constraintIds.toFinset,
      p.atSlack choice (fun s => p.costOf s * X s) c = 0 := by
    intro c _
    unfold atSlack
    cases hc : p.slackOf choice c with
    | none => rfl
    | some s =>
      simp [costOf_of_slackOf h hc]
  unfold objectiveAt
  rw [sum_primalVars h hcones choice, Finset.sum_eq_zero hslack, add_zero]

/-! ## The gap -/

/-- **The duality gap**, at assignments that satisfy the equations of both programs. -/
theorem gap_eq (hcones : p.Orthant) {X : VarId → ℚ}
    (hX : ∀ c ∈ p.constraintIds, p.rowAt c X = p.rhsOf c)
    (hY : ∀ v ∈ p.ordinaryVars settings.slackChoice,
      (p.derivedDual settings).program.rowAt (p.dualRow settings.slackChoice v) Y = -p.costOf v) :
    p.objectiveAt X + (p.derivedDual settings).program.objectiveAt Y =
      ∑ v ∈ (p.ordinaryVars settings.slackChoice).toFinset,
        Y (p.partVar settings.slackChoice (.reducedCost v)) * X v +
      ∑ c ∈ p.constraintIds.toFinset, p.multiplierAt settings Y c *
        p.atSlack settings.slackChoice (fun s => p.entry c s * X s) c := by
  have hcost : ∀ v ∈ (p.ordinaryVars settings.slackChoice).toFinset, p.costOf v * X v =
      Y (p.partVar settings.slackChoice (.reducedCost v)) * X v -
        ∑ c ∈ p.constraintIds.toFinset, p.multiplierAt settings Y c * (p.entry c v * X v) := by
    intro v hv
    have hrow := hY v (List.mem_toFinset.mp hv)
    rw [dualRowAt_eq h (List.mem_toFinset.mp hv)] at hrow
    have hsum : ∑ c ∈ p.constraintIds.toFinset, p.multiplierAt settings Y c * (p.entry c v * X v) =
        (∑ c ∈ p.constraintIds.toFinset, p.entry c v * p.multiplierAt settings Y c) * X v := by
      rw [Finset.sum_mul]
      exact Finset.sum_congr rfl fun c _ => by ring
    rw [hsum]
    linear_combination X v * hrow
  have hrhs : ∀ c ∈ p.constraintIds.toFinset, p.rhsOf c * p.multiplierAt settings Y c =
      ∑ v ∈ (p.ordinaryVars settings.slackChoice).toFinset,
        p.multiplierAt settings Y c * (p.entry c v * X v) +
      p.multiplierAt settings Y c *
        p.atSlack settings.slackChoice (fun s => p.entry c s * X s) c := by
    intro c hc
    rw [← hX c (List.mem_toFinset.mp hc),
      rowAt_eq h hcones settings.slackChoice (List.mem_toFinset.mp hc), ← Finset.mul_sum]
    ring
  -- The products of coefficients cancel once both sums run over the same pairs.
  rw [objectiveAt_eq h hcones settings.slackChoice, Finset.sum_congr rfl hcost,
    Finset.sum_sub_distrib, dualObjectiveAt_eq h, Finset.sum_congr rfl hrhs,
    Finset.sum_add_distrib, Finset.sum_comm]
  ring

end

end Conic.Program
