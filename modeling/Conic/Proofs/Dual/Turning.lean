import Mathlib.Data.List.Rotate
import Conic.Proofs.Dual.Rescaling

/-!
# Dividing one multiplier

A multiplier is divided in one constraint after another: its term is removed and the quotient is
entered. Each time the membership list that names these constraints changes, since the constraint
goes to its end. The constraints are the ones that the list named at the start, so the list comes
full circle.

* `Dual.Turns` — what dividing a variable does and leaves alone.
* `Draft.turns` — **the membership list of a multiplier turns once.**
-/

set_option autoImplicit false

namespace Conic

/-- Dividing the variable `y` of `p` by `k` ends in `q`. -/
structure Dual.Turns {α : Type} [Scalar α] (p : Program α) (y : VarId) (k : α) (q : Program α) :
    Prop where
  rescale : Dual.rescale p y k = .ok q
  /-- The membership list, from which the constraints were read at the start, has turned by `j` once
  `j` of them are done. -/
  rotates : ∃ x start, p.var? y = some x ∧ p.setCost? y (x.cost / k) = some start ∧
    ∀ j ≤ x.constraints.length, ∃ r z,
      (x.constraints.take j).foldlM (Dual.rescaleTerm y k) start = .ok r ∧ r.var? y = some z ∧
        z.constraints = x.constraints.rotate j
  /-- In the end only the objective coefficient of `y` is another one, and every membership list is
  as it was. -/
  var : ∀ u, q.var? u = (p.var? u).map fun x => if u = y then { x with cost := x.cost / k } else x
  /-- The term on `y`, if there is one, is divided and the last one. The others are as they were, and
  in the same order. -/
  terms : ∀ {r row}, p.constraint? r = some row → ∃ terms,
    q.constraint? r = some { row with terms } ∧ terms.toList =
      row.terms.toList.filter (fun t => t.1 ≠ y) ++
        ((row.terms.coefficient? y).map fun a => (y, a / k)).toList
  /-- No coefficient of any other variable changes. -/
  other : ∀ {u}, u ≠ y → ∀ r, q.coefficient? r u = p.coefficient? r u
  cones : q.cones = p.cones
  constraints : q.constraintIds = p.constraintIds
  point : q.point = p.point

theorem Dual.Turns.members {α : Type} [Scalar α] {p q : Program α} {y : VarId} {k : α}
    (h : Dual.Turns p y k q) (u : VarId) :
    (q.var? u).map (·.constraints) = (p.var? u).map (·.constraints) := by
  rw [h.var, Option.map_map]
  refine Option.map_congr fun x _ => ?_
  rw [Function.comp_apply]
  split <;> rfl

theorem Terms.coefficient?_redivided_of_ne {α : Type} [Div α] {v u : VarId} (hu : u ≠ v)
    (t : Terms α) (k : α) : (t.redivided v k).coefficient? u = t.coefficient? u := by
  apply Option.ext
  intro b
  rw [coefficient?_eq_some_iff, toList_redivided, List.mem_append, List.mem_filter,
    coefficient?_eq_some_iff]
  cases t.coefficient? v <;> simp [hu]

theorem Program.var?_modifyVariable {α : Type} {p : Program α} {v u : VarId}
    (f : Variable α → Variable α) :
    (p.modifyVariable v f).var? u = (p.var? u).map fun x => if u = v then f x else x := by
  obtain ⟨i⟩ := u
  obtain ⟨j⟩ := v
  simp only [modifyVariable, var?, Array.getElem?_modify, VarId.mk.injEq, eq_comm (a := j)]
  split <;> simp

namespace Dual.Draft

variable {α : Type} [Scalar α] {D : Draft α} {p : Program α} {choice : SlackChoice}
  {c : ConstraintId} {k : α} {vs : List VarId}

/-! ## Look-up after a whole turn -/

theorem membership_divided (hlists : D.Lists p choice c vs) :
    (D.divided p choice c k vs vs).membership = D.membership := by
  simp [divided, ← hlists.membership]

theorem var?_divided (hlists : D.Lists p choice c vs) (u : VarId) :
    ((D.divided p choice c k vs vs).program p choice).var? u = (D.program p choice).var? u := by
  have hvar : (D.divided p choice c k vs vs).var p choice = D.var p choice :=
    var_congr p choice (by rfl) (membership_divided hlists)
  simp only [program, programOn, Program.var?, hvar]

theorem constraint?_divided (hlists : D.Lists p choice c vs) (r : ConstraintId) :
    ((D.divided p choice c k vs vs).program p choice).constraint? r =
      ((D.program p choice).constraint? r).map fun row =>
        { row with terms := row.terms.redivided (p.partVar choice (.multiplier c)) k } := by
  simp only [program, programOn, Program.constraint?, List.getElem?_toArray, List.getElem?_map,
    Option.map_map]
  refine Option.map_congr fun v hv => ?_
  have hterms : (D.divided p choice c k vs vs).terms v =
      (D.terms v).redivided (p.partVar choice (.multiplier c)) k := by
    by_cases hvs : v ∈ vs
    · simp [divided, hvs]
    · -- The list leaves out no constraint with a term, so nothing is left to divide.
      simp [divided, hvs,
        Terms.redivided_of_none (hlists.no_term v (List.mem_of_getElem? hv) hvs)]
  simp only [row, Function.comp_apply, hterms]

/-! ## The turn -/

section

variable (h : p.WellFormed) (hc : c ∈ p.constraintIds)
include h hc

theorem var?_withCost (a : α) (u : VarId) : ((D.withCost c a).program p choice).var? u =
    ((D.program p choice).var? u).map fun x =>
      if u = p.partVar choice (.multiplier c) then { x with cost := a } else x := by
  have hset : (D.program p choice).setCost? (p.partVar choice (.multiplier c)) a = _ :=
    setCost?_program h hc a
  rw [Program.setCost?, var?_multiplier hc, Option.map_some] at hset
  rw [← Option.some.inj hset, Program.var?_modifyVariable]

/-- **A multiplier is divided, and its membership list turns once.** -/
theorem turns (hlists : D.Lists p choice c vs) :
    Turns (D.program p choice) (p.partVar choice (.multiplier c)) k
      (((D.withCost c (D.cost c / k)).divided p choice c k vs vs).program p choice) where
  rescale := rescale_program h hc hlists
  rotates := by
    refine ⟨_, _, var?_multiplier hc, setCost?_program h hc _, fun j hj => ?_⟩
    simp only [hlists.membership, List.length_map] at hj ⊢
    have hfold := foldlM_rescaleTerm (k := k) h hc (hlists.withCost (D.cost c / k))
      (List.take_append_drop j vs).symm
    rw [List.map_take] at hfold
    refine ⟨_, _, hfold, var?_multiplier hc, ?_⟩
    simp only [divided, Function.update_self, List.length_take, Nat.min_eq_left hj]
    rw [← List.map_rotate, List.rotate_eq_drop_append_take hj]
  var u := by
    rw [var?_divided (hlists.withCost _), var?_withCost h hc]
    refine Option.map_congr fun x hx => ?_
    by_cases hu : u = p.partVar choice (.multiplier c)
    · subst hu
      cases hx.symm.trans (var?_multiplier hc)
      simp
    · simp [hu]
  terms hrow :=
    ⟨_, by rw [constraint?_divided (hlists.withCost _)]; exact congrArg _ hrow,
      Terms.toList_redivided _ _ _⟩
  other hu r := by
    unfold Program.coefficient?
    rw [constraint?_divided (hlists.withCost _)]
    show (((D.program p choice).constraint? r).map _).bind _ = _
    cases (D.program p choice).constraint? r with
    | some row => exact Terms.coefficient?_redivided_of_ne hu row.terms k
    | none => rfl
  cones := rfl
  constraints := by simp [program, programOn, Program.constraintIds]
  point := rfl

end

end Dual.Draft

end Conic
