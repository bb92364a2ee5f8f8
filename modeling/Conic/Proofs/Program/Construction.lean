import Mathlib.Algebra.GroupWithZero.Nat
import Mathlib.Algebra.BigOperators.Group.List.Basic
import Conic.Program.InPlace
import Conic.Proofs.Program.Changing
import Conic.Proofs.Program.Export

/-!
# Programs made in place

* `Program.step_eq` — **no operation writes anything before it is declined.**
* `WellFormed.sum_recorded` — terms counted in the membership lists and in the constraints.
* `Program.Arena`, `Program.construct_arena` — **what operations make of the empty program.**
-/

set_option autoImplicit false

namespace Conic

namespace Program

variable {α : Type} {p q : Program α} {v : VarId} {c : ConstraintId}

/-! ## Writes -/

namespace InPlace

variable {β : Type}

@[simp] theorem run_throw (fault : Fault Error) :
    (throw fault : InPlace α β).run p = .error fault p := rfl

@[simp] theorem run_find (read : Program α → Option β) : (find read).run p =
    match read p with
    | some b => .ok b p
    | none => .error .outOfRange p := by
  cases h : read p <;> simp [find, h]

@[simp] theorem run_writeVariable (f : Variable α → Variable α) : (writeVariable v f).run p =
    match p.var? v with
    | some _ => .ok () (p.modifyVariable v f)
    | none => .error .outOfRange p := by
  cases h : p.var? v <;> simp [writeVariable, h]

@[simp] theorem run_writeConstraint (f : Constraint α → Constraint α) :
    (writeConstraint c f).run p =
      match p.constraint? c with
      | some _ => .ok () (p.modifyConstraint c f)
      | none => .error .outOfRange p := by
  cases h : p.constraint? c <;> simp [writeConstraint, h]

end InPlace

theorem freshVars_succ [Zero α] (p : Program α) (k : ConeId) (n : Nat) :
    p.freshVars (n + 1) = p.nextVar :: (p.addVariables k 1).freshVars n := by
  simp [freshVars, nextVar, addVariables, List.range'_succ]

theorem addVariables_add [Zero α] (p : Program α) (k : ConeId) (m n : Nat) :
    p.addVariables k (m + n) = (p.addVariables k m).addVariables k n := by
  simp only [addVariables, ← Array.replicate_append_replicate, Array.append_assoc]

namespace InPlace

@[simp] theorem run_pushVariable [Zero α] (p : Program α) (k : ConeId) :
    (pushVariable k).run p = .ok p.nextVar (p.addVariables k 1) :=
  rfl

/-- Variables that are pushed one after the other are the next ones. -/
@[simp] theorem run_pushVariables [Zero α] (p : Program α) (k : ConeId) (n : Nat) :
    (pushVariables k n).run p = .ok (p.freshVars n) (p.addVariables k n) := by
  induction n generalizing p with
  | zero => simp [pushVariables, freshVars, addVariables]
  | succ n ih =>
    have hrest := ih (p.addVariables k 1)
    unfold pushVariables at hrest ⊢
    rw [List.replicate_succ, List.mapM_cons, Nat.add_comm n 1, addVariables_add, Nat.add_comm 1 n,
      freshVars_succ p k]
    simp [-bind_pure_comp, hrest]

/-- An answer that is thrown away. -/
theorem outcome_bind_return {β : Type} (m : InPlace α β) :
    (m >>= fun _ => pure ()).outcome p = m.outcome p := by
  unfold outcome
  rw [EStateM.run_bind]
  cases m.run p with
  | ok b q => rfl
  | error fault q => cases fault <;> rfl

theorem outcome_addNonnegCone [Zero α] :
    (addNonnegCone : InPlace α Unit).outcome p = some (p.addNonnegCone.1, none) :=
  rfl

theorem outcome_addSecondOrderCone [Zero α] (n : Nat) :
    (addSecondOrderCone n).outcome p =
      Checked.outcome p ((p.addSecondOrderCone n).map Prod.fst) := by
  by_cases hsmall : n < 2
  · simp [outcome, addSecondOrderCone, Program.addSecondOrderCone, hsmall, Except.map,
      Checked.outcome]
  · by_cases hlarge : maxLength < n <;>
      simp [outcome, addSecondOrderCone, Program.addSecondOrderCone, hsmall, hlarge, Except.map,
        Checked.outcome, freshVars]

theorem outcome_addTerm (a : α) :
    (addTerm c v a).outcome p = Checked.outcome p (p.addTerm c v a) := by
  simp only [outcome, addTerm, Program.addTerm, EStateM.run_bind, run_find]
  cases hrow : p.constraint? c with
  | none => rfl
  | some row =>
    by_cases hv : v ∈ row.terms.vars
    · simp [hv, Checked.outcome]
    · -- The term is written before the variable is looked up, but not where it is looked up.
      have hvar : ∀ f, (p.modifyConstraint c f).var? v = p.var? v := fun _ => rfl
      cases hx : p.var? v <;> simp [hrow, hv, hvar, hx, Checked.outcome]

theorem outcome_removeTerm :
    (removeTerm c v).outcome p = Checked.outcome p ((p.removeTerm c v).map Prod.fst) := by
  simp only [outcome, removeTerm, Program.removeTerm, EStateM.run_bind, run_find]
  cases hrow : p.constraint? c with
  | none => rfl
  | some row =>
    cases ha : row.terms.coefficient? v with
    | none => simp [ha, Except.map, Checked.outcome]
    | some a =>
      have hvar : ∀ f, (p.modifyConstraint c f).var? v = p.var? v := fun _ => rfl
      cases hx : p.var? v <;>
        simp [-bind_pure_comp, hrow, ha, hvar, hx, Except.map, Checked.outcome]

theorem outcome_writeVariable (f : Variable α → Variable α) : (writeVariable v f).outcome p =
    Checked.outcome p (Checked.found ((p.var? v).map fun _ => p.modifyVariable v f)) := by
  cases hx : p.var? v <;> simp [outcome, hx, Checked.outcome]

theorem outcome_writeConstraint (f : Constraint α → Constraint α) :
    (writeConstraint c f).outcome p =
      Checked.outcome p (Checked.found ((p.constraint? c).map fun _ => p.modifyConstraint c f)) := by
  cases hrow : p.constraint? c <;> simp [outcome, hrow, Checked.outcome]

theorem outcome_setCoordinate (a : α) :
    (setCoordinate v a).outcome p = Checked.outcome p (Checked.found (p.setCoordinate? v a)) := by
  by_cases hv : v.index < p.point.size <;>
    simp [outcome, setCoordinate, setCoordinate?, hv, Checked.outcome]

end InPlace

/-- **No operation writes anything before it is declined**: a step is the outcome of an
operation. -/
theorem step_eq [Zero α] (p : Program α) (edit : Edit α) :
    p.step edit = (p.edit edit).outcome p := by
  cases edit with
  | addNonnegCone => exact InPlace.outcome_addNonnegCone
  | addSecondOrderCone n => exact InPlace.outcome_addSecondOrderCone n
  | addConstraint => rfl
  | addTerm c v a => exact InPlace.outcome_addTerm a
  | removeTerm c v => exact (InPlace.outcome_bind_return _).trans InPlace.outcome_removeTerm
  | setCost v a | setReducedCost v a => exact InPlace.outcome_writeVariable _
  | setRhs c a | setMultiplier c a => exact InPlace.outcome_writeConstraint _
  | setCoordinate v a => exact InPlace.outcome_setCoordinate a

/-! ## Terms counted twice -/

theorem sum_ite_eq_countP {β : Type} (f : β → Bool) (l : List β) :
    (l.map fun b => if f b then 1 else 0).sum = l.countP f := by
  induction l with
  | nil => rfl
  | cons b l ih =>
    rw [List.map_cons, List.sum_cons, ih, List.countP_cons, Nat.add_comm]

/-- Pairs are counted from either side. -/
theorem sum_countP_comm {β γ : Type} (r : β → γ → Bool) (bs : List β) (cs : List γ) :
    (bs.map fun b => cs.countP (r b)).sum = (cs.map fun c => bs.countP (r · c)).sum := by
  induction cs with
  | nil => simp
  | cons c cs ih =>
    simp only [List.countP_cons, List.sum_map_add, ih, List.map_cons, List.sum_cons]
    rw [sum_ite_eq_countP (r · c), Nat.add_comm]

/-- The variables of a constraint, counted among all variables. -/
theorem WellFormed.countP_contains (h : p.WellFormed) {row : Constraint α}
    (hrow : p.constraint? c = some row) :
    (p.varIds.countP fun v => row.terms.contains v) = row.terms.size := by
  have hperm : (p.varIds.filter fun v => row.terms.contains v).Perm row.terms.vars := by
    refine (List.perm_ext_iff_of_nodup (p.varIds_nodup.filter _) row.terms.nodup).mpr fun v => ?_
    rw [List.mem_filter, Terms.contains_iff, mem_varIds_iff]
    exact ⟨And.right, fun hv => ⟨h.term_var hrow hv, hv⟩⟩
  rw [List.countP_eq_length_filter, hperm.length_eq, Terms.vars, List.length_map, Terms.size]

/-- **The membership lists hold as many entries as the constraints hold terms.** -/
theorem WellFormed.sum_recorded (h : p.WellFormed) :
    (p.vars.toList.map (·.constraints.length)).sum = p.termCount := by
  have hlengths : p.vars.toList.map (·.constraints.length) = p.varIds.map p.occurrences := by
    apply List.ext_getElem
    · simp
    · intro i hi _
      have hi' : i < p.vars.size := by simpa using hi
      have hx : p.var? ⟨i⟩ = some p.vars[i] := Array.getElem?_eq_getElem hi'
      simpa [varIds] using
        (recorded_iff.mpr ⟨h.recorded_nodup hx, fun c => h.recorded c hx⟩).2.1
  have hsizes : (p.constraints.toList.map fun row =>
      p.varIds.countP fun v => row.terms.contains v) = p.constraints.toList.map (·.terms.size) :=
    List.map_congr_left (forall_constraint?_iff.mp fun _ _ hrow => h.countP_contains hrow)
  calc (p.vars.toList.map (·.constraints.length)).sum
      = (p.varIds.map fun v => p.constraints.toList.countP fun row => row.terms.contains v).sum := by
        rw [hlengths]; rfl
    _ = (p.constraints.toList.map fun row => p.varIds.countP fun v => row.terms.contains v).sum :=
        sum_countP_comm (fun v (row : Constraint α) => row.terms.contains v) _ _
    _ = p.termCount := by
        rw [hsizes, List.sum_eq_foldr, List.foldr_map, termCount]

/-! ## Runs -/

/-- What operations make of the empty program. -/
structure Arena [Zero α] (p : Program α) : Prop where
  consistent : p.inconsistency? = none
  members : p.coneMembers = p.varIds
  coordinates : p.point.size = p.vars.size
  recorded : ∀ {v x} (c : ConstraintId), p.var? v = some x →
    (c ∈ x.constraints ↔ ∃ row, p.constraint? c = some row ∧ v ∈ row.terms.vars)
  recorded_once : ∀ {v x c}, p.var? v = some x → c ∈ x.constraints → x.constraints.count c = 1
  recorded_total : (p.vars.toList.map (·.constraints.length)).sum = p.termCount
  declined : ∀ {edit q cause}, p.step edit = some (q, some cause) → q = p

theorem eq_of_outcome {ε β : Type} {b b' : β} {cause : ε} {r : Checked ε β}
    (h : Checked.outcome b r = some (b', some cause)) : b' = b := by
  unfold Checked.outcome at h
  split at h <;> cases h
  rfl

theorem Built.arena [Zero α] (h : p.Built) : p.Arena where
  consistent := Option.isNone_iff_eq_none.mp (consistent_iff_wellFormed.mpr h.wellFormed)
  members := h.inOrder
  coordinates := h.wellFormed.point_size
  recorded c hx := h.wellFormed.recorded c hx
  recorded_once hx hc := List.count_eq_one_of_mem (h.wellFormed.recorded_nodup hx) hc
  recorded_total := h.wellFormed.sum_recorded
  declined hq := eq_of_outcome (step_eq p _ ▸ hq)

/-- What a step leaves is a program made by operations. -/
theorem Built.step [Zero α] (h : p.Built) {edit : Edit α} {cause : Option Error}
    (hq : p.step edit = some (q, cause)) : q.Built := by
  rw [step_eq] at hq
  cases hresult : p.edit edit with
  | ok r =>
    rw [hresult] at hq
    cases hq
    exact h.edit edit hresult
  | error fault =>
    rw [hresult] at hq
    cases fault with
    | outOfRange => cases hq
    | refused cause =>
      cases hq
      exact h

/-- What several steps leave is one as well. -/
theorem Built.steps [Zero α] (h : p.Built) {edits : List (Edit α)}
    (hq : edits.foldlM (fun p edit => (p.step edit).map Prod.fst) p = some q) : q.Built := by
  induction edits generalizing p with
  | nil =>
    cases hq
    exact h
  | cons edit edits ih =>
    rw [List.foldlM_cons] at hq
    obtain ⟨r, hr, hq⟩ := Option.bind_eq_some_iff.mp hq
    obtain ⟨⟨r, cause⟩, hstep, rfl⟩ := Option.map_eq_some_iff.mp hr
    exact ih (h.step hstep) hq

theorem construct_eq [Scalar α] (edits : List (Edit α)) :
    construct edits = (empty : Program α).changeAll (edits.map .edit) := by
  rw [construct, changeAll, List.foldlM_map]
  simp only [step_eq]
  rfl

/-- **Whatever operations make of the empty program, it is consistent, its cones list its variables
in order, every term is recorded once, and a declined operation leaves it as it is.** A run whose
handles exist makes a program. -/
theorem construct_arena [Scalar α] (edits : List (Edit α)) :
    ((empty : Program α).Admits (edits.map .edit) → ∃ p, construct edits = some p) ∧
      ∀ {p : Program α}, construct edits = some p → p.Arena := by
  refine ⟨fun hrange => ?_, fun hp => (Built.empty.steps hp).arena⟩
  obtain ⟨p, hp, _⟩ := Built.empty.wellFormed.changeAll hrange
  exact ⟨p, (construct_eq edits).trans hp⟩

/-- A nonnegative variable, a cone that is too small and one that is not, and a constraint that
takes a term on `v₁` twice, loses one that it does not have, and loses and regains the other. -/
def trialEdits : List (Edit ℚ) :=
  [.addNonnegCone, .addSecondOrderCone 1, .addSecondOrderCone 2, .addConstraint,
    .addTerm ⟨0⟩ ⟨1⟩ 3, .addTerm ⟨0⟩ ⟨1⟩ 4, .removeTerm ⟨0⟩ ⟨0⟩, .addTerm ⟨0⟩ ⟨0⟩ 1,
    .removeTerm ⟨0⟩ ⟨1⟩, .addTerm ⟨0⟩ ⟨1⟩ 5, .setCoordinate ⟨2⟩ 7]

theorem construct_arena_trialEdits :
    (empty : Program ℚ).Admits (trialEdits.map .edit) ∧
      ∃ p, construct trialEdits = some p ∧ p.Arena := by
  have hrange : (empty : Program ℚ).Admits (trialEdits.map .edit) := by decide
  have ⟨hsome, harena⟩ := construct_arena trialEdits
  obtain ⟨p, hp⟩ := hsome hrange
  exact ⟨hrange, p, hp, harena hp⟩

end Program

end Conic
