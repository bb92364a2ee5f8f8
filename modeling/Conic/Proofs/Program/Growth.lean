import Mathlib.Data.List.Basic
import Conic.Program.Edit

/-!
# Growing a program

What a program is after it has got a new variable, pair or row, written out once, so that no
later proof opens the operations that build programs.

* `Program.withNonneg` — a fresh nonnegative variable with a cost.
* `Program.withPair` — a fresh second-order cone of two, whose apex has a cost.
* `Program.withConstraint`, `Program.withRow` — a fresh constraint, without terms or with a fresh
  nonnegative variable of coefficient −1 as its only term.
-/

set_option autoImplicit false

namespace Conic.Program

variable {α : Type}

@[ext] theorem ext {P Q : Program α} (vars : P.vars = Q.vars) (cones : P.cones = Q.cones)
    (constraints : P.constraints = Q.constraints) (point : P.point = Q.point) : P = Q := by
  cases P; cases Q; cases vars; cases cones; cases constraints; cases point; rfl

theorem modify_push_size {β : Type} (xs : Array β) (b : β) (f : β → β) :
    (xs.push b).modify xs.size f = xs.push (f b) := by
  apply Array.ext'
  simp [List.modify_eq_take_cons_drop]

theorem modify_push_push_size {β : Type} (xs : Array β) (b c : β) (f : β → β) :
    ((xs.push b).push c).modify xs.size f = (xs.push (f b)).push c := by
  apply Array.ext'
  have hdrop : (xs.toList ++ [b, c]).drop (xs.size + 1) = [c] := by
    rw [← Array.length_toList, ← List.drop_drop, List.drop_left]
    rfl
  simp [List.modify_eq_take_cons_drop, hdrop]

section

variable [Zero α] (P : Program α)

/-- A fresh nonnegative variable with cost `a`. -/
def withNonneg (a : α) : Program α :=
  { P with
    vars := P.vars.push ⟨P.nextCone, a, 0, []⟩
    cones := P.cones.push (.nonneg P.nextVar)
    point := P.point.push 0 }

/-- A fresh pair, the first of which has cost `a`. -/
def withPair (a : α) : Program α :=
  { P with
    vars := (P.vars.push ⟨P.nextCone, a, 0, []⟩).push ⟨P.nextCone, 0, 0, []⟩
    cones := P.cones.push (.secondOrder [P.nextVar, ⟨P.vars.size + 1⟩])
    point := (P.point.push 0).push 0 }

/-- A fresh constraint without terms and with right-hand side `b`. -/
def withConstraint (b : α) : Program α :=
  { P with constraints := P.constraints.push ⟨.empty, b, 0⟩ }

/-- A fresh constraint with right-hand side `b` on a fresh nonnegative variable. -/
def withRow [Neg α] [One α] (b : α) : Program α :=
  { vars := P.vars.push ⟨P.nextCone, 0, 0, [P.nextConstraint]⟩
    cones := P.cones.push (.nonneg P.nextVar)
    constraints := P.constraints.push ⟨Terms.empty.put P.nextVar (-1), b, 0⟩
    point := P.point.push 0 }

theorem addNonnegCone_eq : P.addNonnegCone = (P.withNonneg 0, P.nextCone) := by
  have hvars : P.vars ++ Array.replicate 1 ⟨P.nextCone, (0 : α), 0, []⟩ =
      P.vars.push ⟨P.nextCone, 0, 0, []⟩ := by simp
  have hpoint : P.point ++ Array.replicate 1 (0 : α) = P.point.push 0 := by simp
  simp only [addNonnegCone, addVariables, withNonneg, hvars, hpoint]

@[simp] theorem cone?_withNonneg (a : α) :
    (P.withNonneg a).cone? P.nextCone = some (.nonneg P.nextVar) := by
  simp only [withNonneg, cone?, nextCone, Array.getElem?_push_size]

@[simp] theorem cone?_withPair (a : α) : (P.withPair a).cone? P.nextCone =
    some (.secondOrder [P.nextVar, ⟨P.vars.size + 1⟩]) := by
  simp only [withPair, cone?, nextCone, Array.getElem?_push_size]

theorem setCost?_withNonneg (a : α) :
    (P.withNonneg 0).setCost? P.nextVar a = some (P.withNonneg a) := by
  simp only [setCost?, withNonneg, var?, nextVar, modifyVariable, modify_push_size,
    Array.getElem?_push_size, Option.map_some]

theorem addSecondOrderCone_two : P.addSecondOrderCone 2 = .ok (P.withPair 0, P.nextCone) := by
  have hvars : P.vars ++ Array.replicate 2 ⟨P.nextCone, (0 : α), 0, []⟩ =
      (P.vars.push ⟨P.nextCone, 0, 0, []⟩).push ⟨P.nextCone, 0, 0, []⟩ := by
    apply Array.ext'
    simp
  have hpoint : P.point ++ Array.replicate 2 (0 : α) = (P.point.push 0).push 0 := by
    apply Array.ext'
    simp
  simp [addSecondOrderCone, maxLength, addVariables, withPair, hvars, hpoint, nextVar]
  rfl

theorem setCost?_withPair (a : α) : (P.withPair 0).setCost? P.nextVar a = some (P.withPair a) := by
  have hlt : P.vars.size < (P.withPair (0 : α)).vars.size := by
    simp only [withPair, Array.size_push]
    omega
  unfold setCost?
  rw [var?, nextVar, Array.getElem?_eq_getElem hlt, Option.map_some]
  simp only [withPair, modifyVariable, modify_push_push_size]

theorem setRhs?_addConstraint (b : α) :
    P.addConstraint.1.setRhs? P.nextConstraint b = some (P.withConstraint b) := by
  simp only [setRhs?, addConstraint, withConstraint, constraint?, nextConstraint, modifyConstraint,
    modify_push_size, Array.getElem?_push_size, Option.map_some]

variable [Neg α] [One α]

theorem addTerm_withConstraint (b : α) :
    ((P.withConstraint b).withNonneg 0).addTerm P.nextConstraint P.nextVar (-1) =
      .ok (P.withRow b) := by
  have hnone : (Terms.empty : Terms α).contains P.nextVar = false := rfl
  simp only [addTerm, withConstraint, withNonneg, withRow, constraint?, var?, nextConstraint,
    nextVar, nextCone, modifyConstraint, modifyVariable, Array.getElem?_push_size, modify_push_size,
    List.nil_append]
  simp only [nextVar] at hnone
  simp [hnone]

theorem setCost?_withRow (b : α) :
    (P.withRow b).setCost? P.nextVar 0 = some (P.withRow b) := by
  simp only [setCost?, withRow, var?, nextVar, modifyVariable, modify_push_size,
    Array.getElem?_push_size, Option.map_some]

end

end Conic.Program
