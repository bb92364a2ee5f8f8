import Conic.Program.Change
import Conic.Proofs.Program.Records

/-!
# Programs before they are solved

Whoever solves a program stores a point, multipliers and dual values in it. `Program.unsolved` is
the program as it was before.

* `Program.unsolved` — two programs with the same one differ in what is stored of a solution, and in
  nothing else.
* `unsolved_var?`, `unsolved_constraint?` — what is read of it.
* `Edit.StoresSolution`, `Change.StoresSolution` — operations that store something and do no more.
* `Program.change_unsolved` — **such an operation leaves the unsolved program as it is.**
-/

set_option autoImplicit false

namespace Conic

/-- The variable without its dual value. -/
def Variable.unsolved {α : Type} [Zero α] (x : Variable α) : Variable α :=
  { x with reducedCost := 0 }

/-- The constraint without its multiplier. -/
def Constraint.unsolved {α : Type} [Zero α] (row : Constraint α) : Constraint α :=
  { row with multiplier := 0 }

namespace Program

variable {α : Type} [Zero α] {p q : Program α} {v : VarId} {c : ConstraintId}

/-- The program with nothing stored in it: point, multipliers and dual values are zero. -/
def unsolved (p : Program α) : Program α where
  vars := p.vars.map Variable.unsolved
  cones := p.cones
  constraints := p.constraints.map Constraint.unsolved
  point := Array.replicate p.vars.size 0

/-! ## Reading -/

@[simp] theorem unsolved_cones (p : Program α) : p.unsolved.cones = p.cones := rfl

@[simp] theorem unsolved_vars_size (p : Program α) : p.unsolved.vars.size = p.vars.size := by
  simp [unsolved]

@[simp] theorem unsolved_constraints_size (p : Program α) :
    p.unsolved.constraints.size = p.constraints.size := by
  simp [unsolved]

@[simp] theorem unsolved_var? (p : Program α) (v : VarId) :
    p.unsolved.var? v = (p.var? v).map Variable.unsolved := by
  simp [unsolved, var?]

@[simp] theorem unsolved_cone? (p : Program α) (k : ConeId) : p.unsolved.cone? k = p.cone? k := rfl

@[simp] theorem unsolved_constraint? (p : Program α) (c : ConstraintId) :
    p.unsolved.constraint? c = (p.constraint? c).map Constraint.unsolved := by
  simp [unsolved, constraint?]

@[simp] theorem unsolved_constraintIds (p : Program α) :
    p.unsolved.constraintIds = p.constraintIds := by
  simp [constraintIds]

@[simp] theorem unsolved_nonnegVars (p : Program α) : p.unsolved.nonnegVars = p.nonnegVars := rfl

@[simp] theorem unsolved_coneKinds (p : Program α) : p.unsolved.coneKinds = p.coneKinds := rfl

/-! ## Storing a solution -/

theorem map_modify_eq_self {β γ : Type} {f : β → β} {g : β → γ} (hfg : ∀ b, g (f b) = g b)
    (xs : Array β) (i : Nat) : (xs.modify i f).map g = xs.map g := by
  apply Array.toList_inj.mp
  rw [Array.toList_map, Array.toList_map, map_modify_of_eq hfg]

theorem unsolved_modifyVariable {f : Variable α → Variable α}
    (hf : ∀ x, (f x).unsolved = x.unsolved) :
    (p.modifyVariable v f).unsolved = p.unsolved := by
  simp only [unsolved, modifyVariable, map_modify_eq_self hf, Array.size_modify]

theorem unsolved_modifyConstraint {f : Constraint α → Constraint α}
    (hf : ∀ row, (f row).unsolved = row.unsolved) :
    (p.modifyConstraint c f).unsolved = p.unsolved := by
  simp only [unsolved, modifyConstraint, map_modify_eq_self hf]

theorem setCoordinate?_unsolved {a : α} (hq : p.setCoordinate? v a = some q) :
    q.unsolved = p.unsolved := by
  unfold setCoordinate? at hq
  split at hq
  · cases hq
    rfl
  · cases hq

theorem setMultiplier?_unsolved {a : α} (hq : p.setMultiplier? c a = some q) :
    q.unsolved = p.unsolved := by
  obtain ⟨row, _, rfl⟩ := Option.map_eq_some_iff.mp hq
  exact unsolved_modifyConstraint fun _ => rfl

theorem setReducedCost?_unsolved {a : α} (hq : p.setReducedCost? v a = some q) :
    q.unsolved = p.unsolved := by
  obtain ⟨x, _, rfl⟩ := Option.map_eq_some_iff.mp hq
  exact unsolved_modifyVariable fun _ => rfl

variable {α : Type} [Scalar α] {p q : Program α}

/-- Storing a solution of a standard form. -/
theorem apply_unsolved {form : StandardForm α} {x z : List α} (hq : form.apply p x z = .ok q) :
    q.unsolved = p.unsolved := by
  unfold StandardForm.apply at hq
  split at hq
  · cases hq
  · split at hq
    · cases hq
    · obtain ⟨r, hr, hq⟩ := Option.bind_eq_some_iff.mp (found_eq_ok.mp hq)
      calc q.unsolved = r.unsolved :=
            view_foldlM unsolved (fun _ hs => setReducedCost?_unsolved hs) hq
        _ = ({ p with point := x.toArray } : Program α).unsolved :=
            view_foldlM unsolved (fun _ hs => setMultiplier?_unsolved hs) hr
        _ = p.unsolved := rfl

end Program

/-! ## Operations -/

/-- The operation stores a part of a solution. -/
def Edit.StoresSolution {α : Type} : Edit α → Prop
  | .setReducedCost _ _ => True
  | .setMultiplier _ _ => True
  | .setCoordinate _ _ => True
  | _ => False

/-- The change stores a solution or a part of one. -/
def Change.StoresSolution {α : Type} : Change α → Prop
  | .edit operation => operation.StoresSolution
  | .store _ _ _ => True

/-- **What a program is apart from its solution stays when a solution is stored.** -/
theorem Program.change_unsolved {α : Type} [Scalar α] {p q : Program α} {c : Change α}
    (hc : c.StoresSolution) (hq : p.change c = .ok q) : q.unsolved = p.unsolved := by
  cases c with
  | store form x z => exact apply_unsolved hq
  | edit operation =>
    cases operation with
    | setReducedCost v a => exact setReducedCost?_unsolved (found_eq_ok.mp hq)
    | setMultiplier c a => exact setMultiplier?_unsolved (found_eq_ok.mp hq)
    | setCoordinate v a => exact setCoordinate?_unsolved (found_eq_ok.mp hq)
    | addNonnegCone | addSecondOrderCone | addConstraint | addTerm | removeTerm | setCost | setRhs =>
      exact hc.elim

end Conic
