import Conic.Proofs.Program.Measuring
import Conic.Proofs.Undefined

/-!
# Points with undefined coordinates

A point may have undefined coordinates. The residual of every constraint that reads one is
undefined, and so is the violation of the constraints then. The violation of the cones is a maximum
that passes over undefined numbers: a cone with an undefined coordinate counts as one that holds.

* `Cone.excess`, `Cone.Passes` — by how much a cone is missed, and when that does not count.
* `WellFormed.constraintViolation?_eq`, `WellFormed.coneViolation?_eq` — the two measures.
* `Program.violations_passOver` — **what the two measures tell of undefined coordinates, and what
  they pass over.**
* `Program.undefinedPoint_feasible` — both are zero at a point without a single defined coordinate.
-/

set_option autoImplicit false

namespace Conic

/-! ## Cones -/

namespace Cone

variable {α : Type} [RootScalar α] {x : VarId → α} {k : Cone}

/-- By how much the coordinates of the members miss the cone; not positive where they do not. -/
def excess (x : VarId → α) : Cone → α
  | .nonneg v => -x v
  | .secondOrder [] => 0
  | .secondOrder (apex :: others) =>
    RootScalar.sqrt (Vector.squaredLength (others.map x)) - x apex

/-- The cone holds its coordinates, or it cannot be told by how much they miss it. -/
def Passes (x : VarId → α) : Cone → Prop
  | .nonneg v => 0 ≤ x v ∨ Scalar.isNaN (x v) = true
  | k@(.secondOrder _) => k.excess x ≤ 0 ∨ Scalar.isNaN (k.excess x) = true

theorem coneShortfall?_eq_excess (hne : k.members ≠ []) :
    Program.coneShortfall? k.kind (k.members.map x) = some (larger 0 (k.excess x)) := by
  match k with
  | .nonneg v => rfl
  | .secondOrder [] => exact absurd rfl hne
  | .secondOrder (apex :: others) => rfl

variable [StrictScalar α]

theorem passes_iff : k.Passes x ↔ ¬0 < k.excess x := by
  cases k with
  | nonneg v => rw [Passes, excess, StrictScalar.neg_pos_iff, StrictScalar.not_neg_iff]
  | secondOrder members => rw [Passes, StrictScalar.not_pos_iff]

/-- A cone with an undefined coordinate passes, whatever the others are. -/
theorem passes_of_undefined (h : ∃ v ∈ k.members, Scalar.isNaN (x v) = true) : k.Passes x := by
  obtain ⟨v, hv, hnan⟩ := h
  match k with
  | .nonneg u =>
    obtain rfl := List.mem_singleton.mp hv
    exact .inr hnan
  | .secondOrder [] => cases hv
  | .secondOrder (apex :: others) =>
    refine .inr (StrictScalar.isNaN_sub ?_)
    obtain rfl | hv := List.mem_cons.mp hv
    · exact .inr hnan
    · exact .inl <| StrictScalar.isNaN_sqrt <|
        Vector.isNaN_squaredLength ⟨x v, List.mem_map_of_mem hv, hnan⟩

end Cone

namespace Program

variable {α : Type} [RootScalar α] {p : Program α} {x : VarId → α}

/-! ## The two measures -/

/-- What a constraint misses at a point. -/
def residualAt (x : VarId → α) (row : Constraint α) : α :=
  row.terms.toList.foldl (fun sum t => sum + t.2 * x t.1) (-row.rhs)

/-- A constraint that reads an undefined coordinate has no residual. -/
theorem isNaN_residualAt [StrictScalar α] {row : Constraint α} {v : VarId}
    (hv : v ∈ row.terms.vars) (hnan : Scalar.isNaN (x v) = true) :
    Scalar.isNaN (residualAt x row) = true := by
  obtain ⟨a, ha⟩ := Terms.mem_vars_iff.mp hv
  exact isNaN_foldl_add (fun t : VarId × α => t.2 * x t.1)
    (.inr ⟨(v, a), ha, StrictScalar.isNaN_mul (.inr hnan)⟩)

namespace WellFormed

variable (h : p.WellFormed) (hx : ∀ v ∈ p.varIds, p.coordinate? v = some (x v))
include h

omit [RootScalar α] in
theorem members_ne_nil {k : Cone} (hk : k ∈ p.cones.toList) : k.members ≠ [] := by
  have hdim := forall_cone?_iff.mp (fun _ cone hcone members hmembers =>
    h.dim (hmembers ▸ hcone) : ∀ k cone, p.cone? k = some cone →
      ∀ members, cone = .secondOrder members → 2 ≤ members.length) k hk
  cases k with
  | nonneg v => exact List.cons_ne_nil v []
  | secondOrder members =>
    have hlength := hdim members rfl
    exact List.ne_nil_of_length_pos (show 0 < members.length by omega)

include hx

theorem residual?_eq {row : Constraint α} (hrow : row ∈ p.constraints.toList) :
    p.residual? row = some (residualAt x row) := by
  have hterm : ∀ row ∈ p.constraints.toList, ∀ v ∈ row.terms.vars, ∃ y, p.var? v = some y :=
    forall_constraint?_iff.mp fun _ _ hrow _ hv => h.term_var hrow hv
  exact residual?_eq_foldl fun v hv => hx v (mem_varIds_iff.mpr (hterm row hrow v hv))

theorem constraintViolation?_eq : p.constraintViolation? =
    some (Vector.maxAbs (p.constraints.toList.map (residualAt x))) := by
  rw [constraintViolation?, mapM_eq_some_map fun row hrow => h.residual?_eq hx hrow]
  rfl

theorem coneViolation?_eq : p.coneViolation? =
    some ((p.cones.toList.map fun k => larger 0 (k.excess x)).foldl larger 0) := by
  have howned : ∀ k ∈ p.cones.toList, ∀ v ∈ k.members, ∃ y, p.var? v = some y :=
    forall_cone?_iff.mp fun _ _ hk _ hv => (h.owned hk hv).imp fun _ hy => hy.1
  exact coneViolation?_eq_foldl
    (fun k hk v hv => hx v (mem_varIds_iff.mpr (howned k hk v hv)))
    fun k hk => Cone.coneShortfall?_eq_excess (h.members_ne_nil hk)

end WellFormed

/-! ## What the measures tell -/

/-- What the violation of the constraints, `missed`, and the violation of the cones, `widened`, tell
of undefined coordinates of the point `x`. -/
structure PassesOver (p : Program α) (x : VarId → α) (missed widened : α) : Prop where
  residual : Scalar.isNaN missed = true ↔
    ∃ row ∈ p.constraints.toList, ∃ r, p.residual? row = some r ∧ Scalar.isNaN r = true
  read : ∀ v, Scalar.isNaN (x v) = true →
    (∃ row ∈ p.constraints.toList, v ∈ row.terms.vars) → Scalar.isNaN missed = true
  defined : Scalar.isNaN widened = false
  undefined : ∀ k ∈ p.cones.toList, (∃ v ∈ k.members, Scalar.isNaN (x v) = true) → k.Passes x
  zero_iff : (widened == 0) = true ↔ ∀ k ∈ p.cones.toList, k.Passes x
  feasible : (missed == 0) = true → (widened == 0) = true → ∀ v,
    (Scalar.isNaN (x v) = true → ∀ row ∈ p.constraints.toList, v ∉ row.terms.vars) ∧
    (.nonneg v ∈ p.cones.toList → 0 ≤ x v ∨ Scalar.isNaN (x v) = true)

theorem WellFormed.passesOver [StrictScalar α] (h : p.WellFormed)
    (hx : ∀ v ∈ p.varIds, p.coordinate? v = some (x v)) :
    p.PassesOver x (Vector.maxAbs (p.constraints.toList.map (residualAt x)))
      ((p.cones.toList.map fun k => larger 0 (k.excess x)).foldl larger 0) := by
  have hresidual : Scalar.isNaN (Vector.maxAbs (p.constraints.toList.map (residualAt x))) = true ↔
      ∃ row ∈ p.constraints.toList, Scalar.isNaN (residualAt x row) = true := by
    simp [Vector.isNaN_maxAbs_iff]
  have hread : ∀ v, Scalar.isNaN (x v) = true →
      (∃ row ∈ p.constraints.toList, v ∈ row.terms.vars) →
      Scalar.isNaN (Vector.maxAbs (p.constraints.toList.map (residualAt x))) = true :=
    fun v hnan ⟨row, hrow, hv⟩ => hresidual.mpr ⟨row, hrow, isNaN_residualAt hv hnan⟩
  have hzero : ((p.cones.toList.map fun k => larger 0 (k.excess x)).foldl larger 0 == 0) = true ↔
      ∀ k ∈ p.cones.toList, k.Passes x := by
    rw [StrictScalar.foldl_larger_beq_zero_iff, List.forall_mem_map]
    refine forall₂_congr fun k _ => ?_
    rw [StrictScalar.larger_zero_pos_iff, Cone.passes_iff]
  constructor
  case residual =>
    rw [hresidual]
    refine exists_congr fun row => and_congr_right fun hrow => ?_
    simp [h.residual?_eq hx hrow]
  case read => exact hread
  case defined => exact StrictScalar.isNaN_foldl_larger _
  case undefined => exact fun _ _ hnan => Cone.passes_of_undefined hnan
  case zero_iff => exact hzero
  case feasible =>
    refine fun hmissed hwidened v => ⟨fun hnan row hrow hv => ?_, fun hk => hzero.mp hwidened _ hk⟩
    have hdefined := EqualityScalar.isNaN_of_beq (PartialEquivBEq.symm hmissed)
    rw [hread v hnan ⟨row, hrow, hv⟩] at hdefined
    cases hdefined

/-- **What the two measures tell of undefined coordinates.** The violation of the constraints is
undefined exactly if a residual is, which is so for every constraint that reads an undefined
coordinate. The violation of the cones never is; it passes over every cone with an undefined
coordinate, and it is zero when all others hold. So both are zero also at points with undefined
coordinates, as long as no constraint reads them. -/
theorem violations_passOver {p : Program Float} {x : VarId → Float} (h : p.consistent = true)
    (hx : ∀ v ∈ p.varIds, p.coordinate? v = some (x v)) :
    ∃ missed widened, p.constraintViolation? = some missed ∧ p.coneViolation? = some widened ∧
      p.PassesOver x missed widened :=
  have hwf := consistent_iff_wellFormed.mp h
  ⟨_, _, hwf.constraintViolation?_eq hx, hwf.coneViolation?_eq hx, hwf.passesOver hx⟩

/-- `x₂ = 3` and `|x₁| ≤ x₀` at a point whose first coordinate is undefined. -/
def undefinedApex : Program Float where
  vars := #[⟨⟨0⟩, 0, 0, []⟩, ⟨⟨0⟩, 0, 0, []⟩, ⟨⟨1⟩, 0, 0, [⟨0⟩]⟩]
  cones := #[.secondOrder [⟨0⟩, ⟨1⟩], .nonneg ⟨2⟩]
  constraints := #[⟨⟨[(⟨2⟩, 1)], by decide⟩, 3, 0⟩]
  point := #[0 / 0, 5, 3]

/-- Nothing is missed, and the undefined coordinate is read by no constraint. -/
theorem violations_passOver_undefinedApex : undefinedApex.consistent = true ∧
    undefinedApex.PassesOver (fun v => undefinedApex.point.getD v.index 0) 0 0 := by
  have hp : undefinedApex.consistent = true := by decide +kernel
  have hx : ∀ v ∈ undefinedApex.varIds,
      undefinedApex.coordinate? v = some (undefinedApex.point.getD v.index 0) := by
    intro v hv
    have hlt : v.index < undefinedApex.point.size := index_of_mem_varIds hv
    simp [coordinate?, Array.getD, hlt]
  obtain ⟨missed, widened, hmissed, hwidened, hpasses⟩ := violations_passOver hp hx
  have hzero : undefinedApex.constraintViolation? = some 0 ∧
      undefinedApex.coneViolation? = some 0 := by decide +kernel
  obtain rfl := Option.some.inj (hmissed.symm.trans hzero.1)
  obtain rfl := Option.some.inj (hwidened.symm.trans hzero.2)
  exact ⟨hp, hpasses⟩

/-- A nonnegative variable without a coordinate that is defined. -/
def undefinedPoint : Program Float where
  vars := #[⟨⟨0⟩, 0, 0, []⟩]
  cones := #[.nonneg ⟨0⟩]
  constraints := #[]
  point := #[0 / 0]

/-- **A point without a single defined coordinate can miss nothing.** -/
theorem undefinedPoint_feasible : undefinedPoint.consistent = true ∧
    undefinedPoint.constraintViolation? = some 0 ∧ undefinedPoint.coneViolation? = some 0 ∧
      ∃ a, undefinedPoint.coordinate? ⟨0⟩ = some a ∧ a.isNaN = true ∧ ¬0 ≤ a :=
  ⟨by decide +kernel, rfl, rfl, _, rfl, by decide +kernel, by decide +kernel⟩

end Program

end Conic
