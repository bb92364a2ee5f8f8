import Mathlib.Data.List.Nodup
import Conic.Program.Basic

/-!
# Reading a program

The data of a program by handle, with a default where a handle does not exist.

* `Program.varIds_nodup`, `Program.mem_varIds_iff` — the lists of all handles.
* `Program.Orthant` — all cones are nonnegative variables.
* `Program.costOf`, `Program.rhsOf` — the numbers of variables and constraints.
* `Program.termsOf`, `Program.coefficient?` — the terms of a constraint.
-/

set_option autoImplicit false

namespace Conic.Program

variable {α : Type}

/-! ## All handles -/

theorem mem_varIds_iff {p : Program α} {v : VarId} : v ∈ p.varIds ↔ ∃ x, p.var? v = some x := by
  obtain ⟨i⟩ := v
  simp [varIds, var?, Array.getElem?_eq_some_iff]

theorem mem_constraintIds_iff {p : Program α} {c : ConstraintId} :
    c ∈ p.constraintIds ↔ ∃ row, p.constraint? c = some row := by
  obtain ⟨i⟩ := c
  simp [constraintIds, constraint?, Array.getElem?_eq_some_iff]

theorem index_of_mem_constraintIds {p : Program α} {c : ConstraintId} (hc : c ∈ p.constraintIds) :
    c.index < p.constraints.size := by
  obtain ⟨row, hrow⟩ := mem_constraintIds_iff.mp hc
  exact (Array.getElem?_eq_some_iff.mp hrow).1

theorem index_of_mem_varIds {p : Program α} {v : VarId} (hv : v ∈ p.varIds) :
    v.index < p.vars.size := by
  obtain ⟨x, hx⟩ := mem_varIds_iff.mp hv
  exact (Array.getElem?_eq_some_iff.mp hx).1

theorem varIds_nodup (p : Program α) : p.varIds.Nodup := by
  refine List.nodup_range.map fun i j hij => ?_
  cases hij
  rfl

theorem constraintIds_nodup (p : Program α) : p.constraintIds.Nodup := by
  refine List.nodup_range.map fun i j hij => ?_
  cases hij
  rfl

@[simp] theorem length_varIds (p : Program α) : p.varIds.length = p.vars.size := by
  simp [varIds]

@[simp] theorem length_constraintIds (p : Program α) :
    p.constraintIds.length = p.constraints.size := by
  simp [constraintIds]

theorem mem_nonnegVars_iff {p : Program α} {v : VarId} :
    v ∈ p.nonnegVars ↔ ∃ k, p.cone? k = some (.nonneg v) := by
  simp only [nonnegVars, List.mem_filterMap, cone?]
  constructor
  · rintro ⟨cone, hmem, hv⟩
    cases cone with
    | nonneg u =>
      cases hv
      obtain ⟨i, hi⟩ := List.mem_iff_getElem?.mp hmem
      exact ⟨⟨i⟩, by simpa using hi⟩
    | secondOrder members => cases hv
  · rintro ⟨k, hk⟩
    exact ⟨.nonneg v, by simpa using Array.mem_of_getElem? hk, rfl⟩

/-! ## All records -/

theorem forall_var?_iff {p : Program α} {P : Variable α → Prop} :
    (∀ v x, p.var? v = some x → P x) ↔ ∀ x ∈ p.vars.toList, P x := by
  constructor
  · intro h x hx
    obtain ⟨i, hi⟩ := List.mem_iff_getElem?.mp hx
    exact h ⟨i⟩ x (by simpa [var?] using hi)
  · exact fun h v x hx => h x (by simpa using Array.mem_of_getElem? hx)

theorem forall_constraint?_iff {p : Program α} {P : Constraint α → Prop} :
    (∀ c row, p.constraint? c = some row → P row) ↔ ∀ row ∈ p.constraints.toList, P row := by
  constructor
  · intro h row hrow
    obtain ⟨i, hi⟩ := List.mem_iff_getElem?.mp hrow
    exact h ⟨i⟩ row (by simpa [constraint?] using hi)
  · exact fun h c row hc => h row (by simpa using Array.mem_of_getElem? hc)

theorem forall_cone?_iff {p : Program α} {P : Cone → Prop} :
    (∀ k cone, p.cone? k = some cone → P cone) ↔ ∀ cone ∈ p.cones.toList, P cone := by
  constructor
  · intro h cone hcone
    obtain ⟨i, hi⟩ := List.mem_iff_getElem?.mp hcone
    exact h ⟨i⟩ cone (by simpa [cone?] using hi)
  · exact fun h k cone hk => h cone (by simpa using Array.mem_of_getElem? hk)

/-- Each kind that occurs is listed, and no other. -/
theorem mem_coneKinds_iff {p : Program α} {kind : Cone.Kind} :
    kind ∈ p.coneKinds ↔ ∃ cone ∈ p.cones.toList, cone.kind = kind := by
  have hfold : ∀ (cones : List Cone) (kinds : List Cone.Kind),
      kind ∈ cones.foldl (fun kinds k =>
        if k.kind ∈ kinds then kinds else kinds ++ [k.kind]) kinds ↔
          kind ∈ kinds ∨ ∃ cone ∈ cones, cone.kind = kind := by
    intro cones
    induction cones with
    | nil => simp
    | cons cone cones ih =>
      intro kinds
      have hadded : kind ∈ (if cone.kind ∈ kinds then kinds else kinds ++ [cone.kind]) ↔
          kind ∈ kinds ∨ cone.kind = kind := by
        split
        · rename_i hmem
          exact ⟨Or.inl, fun h => h.elim id fun he => he ▸ hmem⟩
        · simp [eq_comm]
      rw [List.foldl_cons, ih, hadded]
      simp [or_assoc]
  simpa [coneKinds] using hfold p.cones.toList []

/-- All cones are nonnegative variables. -/
def Orthant (p : Program α) : Prop :=
  ∀ {k : ConeId} {cone : Cone}, p.cone? k = some cone → cone.kind = .nonneg

instance decidableOrthant (p : Program α) : Decidable p.Orthant :=
  decidable_of_iff (∀ cone ∈ p.cones.toList, cone.kind = .nonneg)
    (forall_cone?_iff.symm.trans ⟨fun h _ _ => h _ _, fun h _ _ => h⟩)

/-! ## Numbers -/

/-- The objective coefficient of a variable. -/
def costOf [Scalar α] (p : Program α) (v : VarId) : α :=
  ((p.var? v).map (·.cost)).getD 0

/-- The right-hand side of a constraint. -/
def rhsOf [Scalar α] (p : Program α) (c : ConstraintId) : α :=
  ((p.constraint? c).map (·.rhs)).getD 0

/-! ## Terms -/

/-- The terms of a constraint. -/
def termsOf (p : Program α) (c : ConstraintId) : List (VarId × α) :=
  ((p.constraint? c).map (·.terms.toList)).getD []

/-- The coefficient of a variable in a constraint. -/
def coefficient? (p : Program α) (c : ConstraintId) (v : VarId) : Option α :=
  (p.constraint? c).bind fun row => row.terms.coefficient? v

theorem coefficient?_eq {p : Program α} {c : ConstraintId} {row : Constraint α}
    (hrow : p.constraint? c = some row) (v : VarId) :
    p.coefficient? c v = row.terms.coefficient? v := by
  unfold coefficient?
  rw [hrow, Option.bind_some]

theorem mem_keys_termsOf_iff {p : Program α} {c : ConstraintId} {v : VarId} :
    v ∈ (p.termsOf c).map Prod.fst ↔ ∃ a, p.coefficient? c v = some a := by
  unfold termsOf coefficient?
  cases p.constraint? c with
  | none => simp
  | some row => exact Terms.mem_vars_iff_coefficient?

theorem keys_termsOf_nodup (p : Program α) (c : ConstraintId) :
    ((p.termsOf c).map Prod.fst).Nodup := by
  unfold termsOf
  cases p.constraint? c with
  | none => exact List.nodup_nil
  | some row => exact row.terms.nodup

end Conic.Program
