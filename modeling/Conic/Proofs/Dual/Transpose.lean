import Conic.Proofs.Dual.Lookup

/-!
# The dual is the transpose

The specification of a checked-out dual reads the dual through its tables alone.

* `Program.normalized` — a number of a constraint as it stands in the dual.
* `Dual.OwnsReducedCost` — a variable that occurs in one constraint only and costs nothing.
* `Dual.Transposes` — the multipliers, the order of the dual constraints, and their terms.
* `Exchange.checkOut_transposes` — **an exchange that is ready checks out the transpose.**
-/

set_option autoImplicit false

namespace Conic

variable {α : Type} [Scalar α]

/-! ## The specification -/

/-- A number of constraint `c` as it stands in the dual: divided by the coefficient of the chosen
slack, unless there is no slack or its coefficient is as close to one as the tolerance allows. -/
def Program.normalized (p : Program α) (settings : Settings α) (c : ConstraintId) (a : α) : α :=
  match (p.slackOf settings.slackChoice c).bind (p.coefficient? c) with
  | none => a
  | some k => if Scalar.abs (k - 1) ≤ settings.unitTolerance then a else a / k

namespace Dual

/-- Variable `w` is nonnegative, costs nothing, is no multiplier, and has its only term in
constraint `r`. -/
structure OwnsReducedCost (d : Dual α) (r : ConstraintId) (w : VarId) : Prop where
  nonneg : ∃ x, d.program.var? w = some x ∧ d.program.cone? x.cone = some (.nonneg w) ∧ x.cost = 0
  fresh : ∀ c, d.multiplier? c ≠ some w
  only : ∀ {r' : ConstraintId} {row : Constraint α}, d.program.constraint? r' = some row →
    w ∈ row.terms.vars → r' = r

/-- Variable `u` costs nothing and has no term. -/
structure IsIdle (d : Dual α) (u : VarId) : Prop where
  cost : ∃ x, d.program.var? u = some x ∧ x.cost = 0 ∧ x.constraints = []
  no_term : ∀ {r : ConstraintId} {row : Constraint α}, d.program.constraint? r = some row →
    u ∉ row.terms.vars

/-- The dual is the transpose of a primal. -/
structure Transposes (d : Dual α) (p : Program α) (settings : Settings α) : Prop where
  /-- Every constraint has a multiplier. -/
  multiplier_isSome : ∀ {c : ConstraintId} {row : Constraint α}, p.constraint? c = some row →
    (d.multiplier? c).isSome = true
  multiplier_injective : ∀ {c c' : ConstraintId} {y : VarId},
    d.multiplier? c = some y → d.multiplier? c' = some y → c = c'
  /-- The multiplier costs what the right-hand side was. -/
  multiplier_cost : ∀ {c : ConstraintId} {row : Constraint α} {y : VarId},
    p.constraint? c = some row → d.multiplier? c = some y →
      ∃ x, d.program.var? y = some x ∧ x.cost = p.normalized settings c row.rhs
  /-- With a slack among the terms the multiplier is nonnegative. -/
  signed : ∀ {c : ConstraintId} {row : Constraint α} {y : VarId},
    p.constraint? c = some row → d.multiplier? c = some y →
      (∃ v ∈ row.terms.vars, p.isSlack? v = some true) →
        ∃ x, d.program.var? y = some x ∧ d.program.cone? x.cone = some (.nonneg y)
  /-- Otherwise it is the apex of a second-order cone with one idle member. -/
  free : ∀ {c : ConstraintId} {row : Constraint α} {y : VarId},
    p.constraint? c = some row → d.multiplier? c = some y →
      (¬ ∃ v ∈ row.terms.vars, p.isSlack? v = some true) →
        ∃ x u, d.program.var? y = some x ∧
          d.program.cone? x.cone = some (.secondOrder [y, u]) ∧ d.IsIdle u
  /-- The dual constraints are those of the ordinary variables, in the order of their cones. -/
  rows : (p.ordinaryVars settings.slackChoice).map d.constraintOf? =
    d.program.constraintIds.map some
  rows_only : ∀ {v : VarId} {r : ConstraintId}, d.constraintOf? v = some r →
    v ∈ p.ordinaryVars settings.slackChoice
  /-- The dual constraint of a variable: minus one times its reduced cost, and a term on the
  multiplier of each constraint with a term on the variable. -/
  row : ∀ {v : VarId} {x : Variable α} {r : ConstraintId}, p.var? v = some x →
    d.constraintOf? v = some r →
      ∃ row w, d.program.constraint? r = some row ∧ row.rhs = -x.cost ∧ d.OwnsReducedCost r w ∧
        ∀ u b, row.terms.coefficient? u = some b ↔ (u = w ∧ b = -1) ∨
          ∃ c a, p.coefficient? c v = some a ∧ d.multiplier? c = some u ∧
            b = p.normalized settings c a
  /-- There are no other variables. -/
  vars : ∀ {u : VarId} {x : Variable α}, d.program.var? u = some x →
    (∃ c, d.multiplier? c = some u) ∨
    (∃ y, d.program.cone? x.cone = some (.secondOrder [y, u]) ∧ d.IsIdle u) ∨
    ∃ v r, d.constraintOf? v = some r ∧ d.OwnsReducedCost r u

end Dual

/-! ## The closed form meets it -/

namespace Program

variable {p : Program α} {settings : Settings α} {c : ConstraintId} {v : VarId}

theorem normalized_eq (p : Program α) (settings : Settings α) (c : ConstraintId) (a : α) :
    p.normalized settings c a = dividedBy (p.divisorOf? settings c) a := by
  unfold normalized divisorOf? dividedBy
  cases (p.slackOf settings.slackChoice c).bind (p.coefficient? c) with
  | none => rfl
  | some k =>
    by_cases hk : Scalar.abs (k - 1) ≤ settings.unitTolerance <;>
      simp [Option.filter, Dual.countsAsUnit, hk]

variable (h : p.WellFormed)
include h

theorem derivedDual_isIdle (hc : c ∈ p.constraintIds)
    (hnone : p.slackOf settings.slackChoice c = none) :
    (p.derivedDual settings).IsIdle (p.partVar settings.slackChoice (.auxiliary c)) := by
  have hpart : Dual.Part.auxiliary c ∈ p.parts settings.slackChoice :=
    (p.auxiliary_mem_partsOn _).mpr ⟨hc, hnone⟩
  refine ⟨⟨_, derivedDual_var?_auxiliary hc hnone, rfl, rfl⟩, fun hr hy => ?_⟩
  obtain ⟨v, _, _, he | ⟨d, _, he⟩⟩ := h.mem_vars_of_derivedDual_constraint? hr hy
  · cases partVar_injective hpart he
  · cases partVar_injective hpart he

theorem derivedDual_ownsReducedCost (hv : v ∈ p.ordinaryVars settings.slackChoice) :
    (p.derivedDual settings).OwnsReducedCost (p.dualRow settings.slackChoice v)
      (p.partVar settings.slackChoice (.reducedCost v)) := by
  have hpart : Dual.Part.reducedCost v ∈ p.parts settings.slackChoice :=
    (p.reducedCost_mem_partsOn _).mpr hv
  refine ⟨⟨_, derivedDual_var?_reducedCost hv, derivedDual_cone?_reducedCost hv, rfl⟩,
    fun c hc => ?_, fun hr hy => ?_⟩
  · obtain ⟨_, he⟩ := multiplier?_derivedDual_eq_some_iff.mp hc
    cases partVar_injective hpart he
  · obtain ⟨u, _, rfl, he | ⟨d, _, he⟩⟩ := h.mem_vars_of_derivedDual_constraint? hr hy
    · cases partVar_injective hpart he
      rfl
    · cases partVar_injective hpart he

/-- **The closed form of the dual is the transpose.** -/
theorem derivedDual_transposes : (p.derivedDual settings).Transposes p settings where
  multiplier_isSome hrow := by rw [multiplier?_derivedDual hrow]; rfl
  multiplier_injective hc hc' := by
    obtain ⟨hmem, rfl⟩ := multiplier?_derivedDual_eq_some_iff.mp hc
    obtain ⟨_, he⟩ := multiplier?_derivedDual_eq_some_iff.mp hc'
    exact partVar_multiplier_inj hmem he
  multiplier_cost hrow hy := by
    obtain ⟨hc, rfl⟩ := multiplier?_derivedDual_eq_some_iff.mp hy
    refine ⟨_, derivedDual_var?_multiplier hc, ?_⟩
    rw [h.finalDraft_cost, normalized_eq, rhsOf, hrow]
    rfl
  signed hrow hy hslack := by
    obtain ⟨hc, rfl⟩ := multiplier?_derivedDual_eq_some_iff.mp hy
    refine ⟨_, derivedDual_var?_multiplier hc, ?_⟩
    rw [derivedDual_cone?_multiplier hc, multiplierCone, if_pos ((slackOf_isSome_iff hrow).mpr hslack)]
  free {c row y} hrow hy hslack := by
    obtain ⟨hc, rfl⟩ := multiplier?_derivedDual_eq_some_iff.mp hy
    have hnone : p.slackOf settings.slackChoice c = none := by
      rwa [← Option.not_isSome_iff_eq_none, slackOf_isSome_iff hrow]
    refine ⟨_, _, derivedDual_var?_multiplier hc, ?_, derivedDual_isIdle h hc hnone⟩
    rw [derivedDual_cone?_multiplier hc, multiplierCone, hnone]
    rfl
  rows := by
    rw [constraintIds_derivedDual]
    apply List.ext_getElem
    · simp
    · intro j hj _
      have hj' : j < (p.ordinaryVars settings.slackChoice).length := by simpa using hj
      simp only [List.getElem_map, List.getElem_range]
      exact (constraintOf?_derivedDual_eq_some_iff h).mpr ⟨List.getElem_mem hj',
        (dualRow_of_getElem? h (List.getElem?_eq_getElem hj')).symm⟩
  rows_only hr := ((constraintOf?_derivedDual_eq_some_iff h).mp hr).1
  row hx hr := by
    obtain ⟨hv, rfl⟩ := (constraintOf?_derivedDual_eq_some_iff h).mp hr
    refine ⟨_, _, derivedDual_constraint? hv, ?_, derivedDual_ownsReducedCost h hv, fun u b => ?_⟩
    · unfold costOf
      rw [hx]
      rfl
    · rw [h.coefficient?_finalDraft_iff]
      refine or_congr_right (exists₂_congr fun c a => and_congr_right fun ha => ?_)
      obtain ⟨row, hrow, _⟩ := Option.bind_eq_some_iff.mp ha
      rw [multiplier?_derivedDual hrow, normalized_eq, Option.some.injEq, eq_comm (a := u)]
  vars hx := by
    obtain ⟨part, hpart, rfl⟩ := exists_part_of_var? h hx
    cases part with
    | multiplier c =>
      have hc : c ∈ p.constraintIds := (p.multiplier_mem_partsOn _).mp hpart
      exact Or.inl ⟨c, multiplier?_derivedDual_eq_some_iff.mpr ⟨hc, rfl⟩⟩
    | auxiliary c =>
      obtain ⟨hc, hnone⟩ := (p.auxiliary_mem_partsOn _).mp hpart
      rw [derivedDual_var?_auxiliary hc hnone] at hx
      cases hx
      refine Or.inr (Or.inl ⟨p.partVar settings.slackChoice (.multiplier c), ?_,
        derivedDual_isIdle h hc hnone⟩)
      rw [derivedDual_cone?_multiplier hc, multiplierCone, hnone]
      rfl
    | reducedCost v =>
      have hv := (p.reducedCost_mem_partsOn _).mp hpart
      exact Or.inr (Or.inr ⟨v, _, (constraintOf?_derivedDual_eq_some_iff h).mpr ⟨hv, rfl⟩,
        derivedDual_ownsReducedCost h hv⟩)

end Program

/-! ## Checking out -/

/-- **An exchange that is ready checks out the transpose of its primal.** -/
theorem Exchange.checkOut_transposes {x : Exchange α} (h : x.Ready) (elapsed : Nat) :
    ∃ x' d, (x.checkOut elapsed).result = .ok x' ∧ x'.state = .checkedOut d ∧
      d.Transposes x.primal x.settings := by
  obtain ⟨x', hresult, hstate, _⟩ := checkOut_result h elapsed
  exact ⟨x', _, hresult, hstate,
    Program.derivedDual_transposes (wellFormed_of_checkRecords h.records)⟩

theorem Exchange.checkOut_transposes_twoRows :
    ∃ x' d, ((Exchange.new Program.twoRows .standard).checkOut 0).result = .ok x' ∧
      x'.state = .checkedOut d ∧ d.Transposes Program.twoRows .standard :=
  checkOut_transposes twoRows_ready 0

end Conic
