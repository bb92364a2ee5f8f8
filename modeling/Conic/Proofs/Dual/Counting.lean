import Conic.Proofs.Dual.Rearranging

/-!
# The size of a dual

How large a dual is can be counted on the primal: by its constraints, by those of them that have a
slack, and by its nonnegative cones.

* `Program.slackCount`, `Program.nonnegCount`, `Program.rescaledCount` — what is counted.
* `Program.signedCount_derivedDual`, `Program.freeCount_derivedDual` — **every constraint has one
  multiplier, signed or free.**
* `Program.length_partsOn`, `Program.derivedDual_cones_size` — variables and cones.
* `WellFormed.slackCount_add_constraints` — **a nonnegative variable is a slack or has a
  constraint.**
* `WellFormed.rescaled_derivedDual` — **rescaled slacks are counted by their coefficients.**
-/

set_option autoImplicit false

namespace Conic

variable {α : Type} [Scalar α]

/-! ## What is counted -/

/-- The number of constraints with a slack. -/
def Program.slackCount (p : Program α) (choice : SlackChoice) : Nat :=
  p.constraintIds.countP fun c => (p.slackOf choice c).isSome

/-- The number of chosen slacks whose coefficient is farther from one than the tolerance. -/
def Program.rescaledCount (p : Program α) (settings : Settings α) : Nat :=
  p.constraintIds.countP fun c =>
    ((p.slackOf settings.slackChoice c).bind (p.coefficient? c)).any fun k =>
      ¬Scalar.abs (k - 1) ≤ settings.unitTolerance

/-- The number of cones of one variable. -/
def Program.nonnegCount (p : Program α) : Nat :=
  p.cones.toList.countP fun k => k.kind = .nonneg

namespace Program

variable {p : Program α} {settings : Settings α} {choice : SlackChoice}

/-! ## Multipliers -/

/-- A constraint has a signed multiplier or a free one. -/
theorem slackCount_add (p : Program α) (choice : SlackChoice) : p.slackCount choice +
    (p.constraintIds.countP fun c => (p.slackOf choice c).isNone) = p.constraints.size := by
  have hall := List.length_eq_countP_add_countP (fun c => (p.slackOf choice c).isSome)
    (l := p.constraintIds)
  rw [length_constraintIds] at hall
  rw [slackCount, hall]
  congr 1
  refine List.countP_congr fun c _ => ?_
  cases p.slackOf choice c <;> simp

theorem signedCount_derivedDual (p : Program α) (settings : Settings α) :
    (p.derivedDual settings).signedCount = p.slackCount settings.slackChoice := by
  show (p.signedTable settings.slackChoice p.constraintIds).toList.countP Option.isSome = _
  rw [signedTable, List.countP_map, slackCount]
  refine List.countP_congr fun c hc => ?_
  cases hslack : p.slackOf settings.slackChoice c <;> simp [hc, hslack]

theorem freeCount_derivedDual (p : Program α) (settings : Settings α) :
    (p.derivedDual settings).freeCount =
      p.constraintIds.countP fun c => (p.slackOf settings.slackChoice c).isNone := by
  show (p.freeTable settings.slackChoice p.constraintIds).toList.countP Option.isSome = _
  rw [freeTable, List.countP_map]
  refine List.countP_congr fun c hc => ?_
  cases hslack : p.slackOf settings.slackChoice c <;> simp [hc, hslack]

/-- One variable for each signed multiplier and two for each free one. -/
theorem length_partsOn (cs : List ConstraintId) : (p.partsOn choice cs []).length =
    cs.countP (fun c => (p.slackOf choice c).isSome) +
      2 * cs.countP fun c => (p.slackOf choice c).isNone := by
  induction cs with
  | nil => rfl
  | cons c cs ih =>
    simp only [partsOn, List.map_nil, List.append_nil] at ih ⊢
    rw [List.flatMap_cons, List.length_append, ih, List.countP_cons, List.countP_cons, partsOf]
    cases p.slackOf choice c <;> simp <;> omega

/-! ## Nonnegative variables -/

omit [Scalar α] in
theorem length_nonnegVars (p : Program α) : p.nonnegVars.length = p.nonnegCount := by
  rw [nonnegVars, nonnegCount, List.length_filterMap_eq_countP]
  refine List.countP_congr fun cone _ => ?_
  cases cone <;> simp [Cone.kind]

theorem derivedDual_cones_size (p : Program α) (settings : Settings α) :
    (p.derivedDual settings).program.cones.size =
      p.constraints.size + (p.ordinaryVars settings.slackChoice).length := by
  simp [derivedDual_program, Dual.Draft.program, Dual.Draft.programOn, length_constraintIds]

/-! ## Rescaling -/

/-- A multiplier is rescaled if the coefficient of the slack is farther from one than allowed. -/
theorem divisorOf?_isSome (c : ConstraintId) : (p.divisorOf? settings c).isSome =
    ((p.slackOf settings.slackChoice c).bind (p.coefficient? c)).any fun k =>
      ¬Scalar.abs (k - 1) ≤ settings.unitTolerance := by
  unfold divisorOf?
  cases (p.slackOf settings.slackChoice c).bind (p.coefficient? c) with
  | none => rfl
  | some k =>
    rw [Option.filter_some, Option.any_some, Dual.countsAsUnit]
    by_cases hunit : Scalar.abs (k - 1) ≤ settings.unitTolerance <;> simp [hunit]

namespace WellFormed

variable (h : p.WellFormed)
include h

/-- Slacks that are rescaled are counted by the constraints that they belong to. -/
theorem rescaled_derivedDual (settings : Settings α) :
    (p.derivedDual settings).rescaled = p.rescaledCount settings := by
  have hperm : (p.rescaledRows settings).Perm
      (p.constraintIds.filter fun c => (p.divisorOf? settings c).isSome) := by
    refine (List.perm_ext_iff_of_nodup h.rescaledRows_nodup
      (p.constraintIds_nodup.filter _)).mpr fun c => ?_
    rw [List.mem_filter]
    exact ⟨fun hc => ⟨h.rescaledRows_sub c hc, h.mem_rescaledRows_iff.mp hc⟩,
      fun hc => h.mem_rescaledRows_iff.mpr hc.2⟩
  show (p.rescaledRows settings).length = _
  rw [hperm.length_eq, ← List.countP_eq_length_filter, funext divisorOf?_isSome]
  rfl

/-- A nonnegative variable is a chosen slack, or the dual has a constraint for it. -/
theorem slackCount_add_constraints (settings : Settings α) :
    p.slackCount settings.slackChoice + (p.derivedDual settings).program.constraints.size =
      p.nonnegCount := by
  rw [derivedDual_constraints_size, ← length_nonnegVars]
  exact h.length_ordinaryVars settings.slackChoice

end WellFormed

end Program

end Conic
