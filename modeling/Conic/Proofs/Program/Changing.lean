import Conic.Program.Change
import Conic.Proofs.Program.Editing

/-!
# Changes whose handles exist

* `Edit.InRange`, `Change.InRange` — the handles exist; then nothing is out of range.
* `WellFormed.change` — **such a change is declined, or it keeps a program well-formed.**
* `WellFormed.changeAll` — several of them keep it well-formed.
-/

set_option autoImplicit false

namespace Conic

/-! ## Handles that exist -/

/-- The handles of an operation exist, and the size that it asks for is possible. -/
def Edit.InRange {α : Type} (p : Program α) : Edit α → Prop
  | .addNonnegCone => True
  | .addSecondOrderCone n => n ≤ maxLength
  | .addConstraint => True
  | .addTerm c v _ => c ∈ p.constraintIds ∧ v ∈ p.varIds
  | .removeTerm c v => c ∈ p.constraintIds ∧ v ∈ p.varIds
  | .setCost v _ => v ∈ p.varIds
  | .setReducedCost v _ => v ∈ p.varIds
  | .setRhs c _ => c ∈ p.constraintIds
  | .setMultiplier c _ => c ∈ p.constraintIds
  | .setCoordinate v _ => v ∈ p.varIds

instance Edit.decidableInRange {α : Type} (p : Program α) : (edit : Edit α) → Decidable (edit.InRange p)
  | .addNonnegCone => isTrue trivial
  | .addSecondOrderCone n => inferInstanceAs (Decidable (n ≤ maxLength))
  | .addConstraint => isTrue trivial
  | .addTerm c v _ => inferInstanceAs (Decidable (c ∈ p.constraintIds ∧ v ∈ p.varIds))
  | .removeTerm c v => inferInstanceAs (Decidable (c ∈ p.constraintIds ∧ v ∈ p.varIds))
  | .setCost v _ => inferInstanceAs (Decidable (v ∈ p.varIds))
  | .setReducedCost v _ => inferInstanceAs (Decidable (v ∈ p.varIds))
  | .setRhs c _ => inferInstanceAs (Decidable (c ∈ p.constraintIds))
  | .setMultiplier c _ => inferInstanceAs (Decidable (c ∈ p.constraintIds))
  | .setCoordinate v _ => inferInstanceAs (Decidable (v ∈ p.varIds))

/-- The handles of a change exist, and a solution that is stored belongs to an export. -/
def Change.InRange {α : Type} [Scalar α] (p : Program α) : Change α → Prop
  | .edit operation => operation.InRange p
  | .store form _ _ => ∃ q : Program α, q.standardForm = .ok form

namespace Program

variable {α : Type} {p q : Program α}

theorem edit_ne_outOfRange [Zero α] {edit : Edit α} (hpoint : p.point.size = p.vars.size)
    (hrange : edit.InRange p) : p.edit edit ≠ .error .outOfRange := by
  cases edit with
  | addNonnegCone => simp [Program.edit]
  | addSecondOrderCone n =>
    have hn : ¬maxLength < n := Nat.not_lt.mpr hrange
    by_cases hsmall : n < 2 <;> simp [Program.edit, addSecondOrderCone, hn, hsmall, Except.map]
  | addConstraint => simp [Program.edit]
  | addTerm c v a =>
    obtain ⟨row, hrow⟩ := mem_constraintIds_iff.mp hrange.1
    obtain ⟨x, hx⟩ := mem_varIds_iff.mp hrange.2
    by_cases hv : v ∈ row.terms.vars <;> simp [Program.edit, addTerm, hrow, hx, hv]
  | removeTerm c v =>
    obtain ⟨row, hrow⟩ := mem_constraintIds_iff.mp hrange.1
    obtain ⟨x, hx⟩ := mem_varIds_iff.mp hrange.2
    cases ha : row.terms.coefficient? v <;>
      simp [Program.edit, removeTerm, hrow, hx, ha, Except.map]
  | setCost v a | setReducedCost v a =>
    obtain ⟨x, hx⟩ := mem_varIds_iff.mp hrange
    simp [Program.edit, setCost?, setReducedCost?, hx]
  | setRhs c a | setMultiplier c a =>
    obtain ⟨row, hrow⟩ := mem_constraintIds_iff.mp hrange
    simp [Program.edit, setRhs?, setMultiplier?, hrow]
  | setCoordinate v a =>
    have hlt : v.index < p.point.size := hpoint ▸ index_of_mem_varIds hrange
    simp [Program.edit, setCoordinate?, hlt]

variable [Scalar α] {form : StandardForm α} {x z : List α}

/-- An export knows the sizes of its program, and its rows stand for variables that exist. -/
theorem standardForm_sizes (hform : q.standardForm = .ok form) :
    form.cost.length = q.vars.size ∧ ∀ u ∈ form.coneRows, u.index < q.vars.size := by
  unfold standardForm at hform
  dsimp only at hform
  cases hA : SparseMatrix.ofEntries (q.constraints.size + q.vars.size) q.vars.size
      q.matrixEntries with
  | error fault =>
    rw [hA] at hform
    cases hform
  | ok A =>
    rw [hA] at hform
    cases hform
    refine ⟨by simp, fun u hu => ?_⟩
    have hinside : q.matrixEntries.all (SparseMatrix.Entry.inside
        (q.constraints.size + q.vars.size) q.vars.size) = true := by
      unfold SparseMatrix.ofEntries at hA
      split at hA
      · cases hA
      · rename_i hall
        simpa using hall
    obtain ⟨i, hi⟩ := List.mem_iff_getElem?.mp hu
    have hentry : (⟨q.constraints.size + i, u.index, -1⟩ : SparseMatrix.Entry α) ∈
        q.matrixEntries := List.mem_append_right _ (List.mem_map.mpr
      ⟨(u, i), List.mem_zipIdx_iff_getElem?.mpr hi, rfl⟩)
    have := List.all_eq_true.mp hinside _ hentry
    simp only [SparseMatrix.Entry.inside, Bool.and_eq_true, decide_eq_true_eq] at this
    exact this.2

theorem setMultipliers?_records (hq : StandardForm.setMultipliers? p z = some q) :
    q.records = p.records :=
  view_foldlM records (fun _ hr => setMultiplier?_records hr) hq

omit [Scalar α] in
theorem setReducedCosts?_records {l : List (VarId × α)}
    (hq : StandardForm.setReducedCosts? p l = some q) : q.records = p.records :=
  view_foldlM records (fun _ hr => setReducedCost?_records hr) hq

theorem exists_setMultipliers? (hz : z.length ≤ p.constraints.size) :
    ∃ q, StandardForm.setMultipliers? p z = some q := by
  refine exists_foldlM (fun _ hr => setMultiplier?_records hr) fun {q t} ht hrec => ?_
  obtain ⟨_, hlt, _⟩ := List.mem_zipIdx ht
  have hrow : (⟨t.2⟩ : ConstraintId) ∈ q.constraintIds := by
    have hsize := constraints_size_of_records hrec
    simp [constraintIds]
    omega
  obtain ⟨row, hrow⟩ := mem_constraintIds_iff.mp hrow
  exact ⟨_, congrArg (Option.map _) hrow⟩

omit [Scalar α] in
theorem exists_setReducedCosts? {l : List (VarId × α)}
    (hvars : ∀ t ∈ l, t.1.index < p.vars.size) :
    ∃ q, StandardForm.setReducedCosts? p l = some q := by
  refine exists_foldlM (fun _ hr => setReducedCost?_records hr) fun {q t} ht hrec => ?_
  have hvar : t.1 ∈ q.varIds := by
    rw [← vars_size_of_records hrec] at hvars
    exact List.mem_map.mpr ⟨t.1.index, List.mem_range.mpr (hvars t ht), rfl⟩
  obtain ⟨y, hy⟩ := mem_varIds_iff.mp hvar
  exact ⟨_, congrArg (Option.map _) hy⟩

/-- Storing a solution keeps the records. -/
theorem apply_records (hq : form.apply p x z = .ok q) : q.records = p.records := by
  unfold StandardForm.apply at hq
  split at hq
  · cases hq
  · split at hq
    · cases hq
    · rename_i hpoint
      obtain ⟨r, hr, hq⟩ := Option.bind_eq_some_iff.mp (found_eq_ok.mp hq)
      refine (setReducedCosts?_records hq).trans ((setMultipliers?_records hr).trans ?_)
      simp only [records, List.size_toArray, Decidable.not_not.mp hpoint]

theorem apply_ne_outOfRange (hpoint : p.point.size = p.vars.size)
    (hform : q.standardForm = .ok form) : form.apply p x z ≠ .error .outOfRange := by
  obtain ⟨hcost, hrows⟩ := standardForm_sizes hform
  unfold StandardForm.apply
  cases hmismatch : form.mismatch? p x z with
  | some error => simp
  | none =>
    unfold StandardForm.mismatch? at hmismatch
    split at hmismatch
    · cases hmismatch
    · rename_i hx
      split at hmismatch
      · cases hmismatch
      · rename_i hz
        rw [not_or, not_not, not_not] at hx hz
        have hlength : ¬p.point.size ≠ x.length := by omega
        let r₀ : Program α := { p with point := x.toArray }
        have htake : (z.take form.equalities).length ≤ r₀.constraints.size := by
          show _ ≤ p.constraints.size
          rw [List.length_take, hz.2]
          exact Nat.min_le_left _ _
        obtain ⟨r, hr⟩ := exists_setMultipliers? htake
        have hsize : r.vars.size = r₀.vars.size := vars_size_of_records (setMultipliers?_records hr)
        obtain ⟨r', hr'⟩ := exists_setReducedCosts? (p := r)
          (l := form.coneRows.zip (z.drop form.equalities)) fun t ht => by
            have hlt := hrows t.1 (List.of_mem_zip ht).1
            rw [hsize]
            show t.1.index < p.vars.size
            omega
        show (if p.point.size ≠ x.length then _ else Checked.found ((StandardForm.setMultipliers? r₀
          (z.take form.equalities)).bind _)) ≠ _
        rw [if_neg hlength, hr, Option.bind_some, hr']
        simp

/-! ## Changes -/

/-- **A change whose handles exist is declined, or it keeps a program well-formed.** -/
theorem WellFormed.change (h : p.WellFormed) {c : Change α} (hrange : c.InRange p) :
    (∃ cause, p.change c = .error (.refused cause)) ∨
      ∃ q, p.change c = .ok q ∧ q.WellFormed ∧ p.Within q := by
  have hfault : p.change c ≠ .error .outOfRange := by
    cases c with
    | edit edit => exact edit_ne_outOfRange h.point_size hrange
    | store form x z =>
      obtain ⟨q, hq⟩ := hrange
      exact apply_ne_outOfRange h.point_size hq
  cases hresult : p.change c with
  | error fault =>
    cases fault with
    | outOfRange => exact absurd hresult hfault
    | refused cause => exact Or.inl ⟨cause, rfl⟩
  | ok q =>
    refine Or.inr ⟨q, rfl, ?_⟩
    cases c with
    | edit edit =>
      have hedited := edit_edited hresult
      exact ⟨hedited.wellFormed h, hedited.within⟩
    | store form x z =>
      have hrec := apply_records hresult
      exact ⟨h.of_records hrec, .of_records hrec⟩

/-- Only the operation for second-order cones brings one in. -/
theorem Orthant.change (h : p.Orthant) {c : Change α} (hq : p.change c = .ok q)
    (hc : ∀ n, c ≠ .edit (.addSecondOrderCone n)) : q.Orthant := by
  cases c with
  | edit edit => exact (edit_edited hq).orthant h fun n hn => hc n (hn ▸ rfl)
  | store form x z => exact h.of_records (apply_records hq)

/-- The handles of several changes exist at the time when they are used. -/
def Admits (p : Program α) : List (Change α) → Prop
  | [] => True
  | c :: changes => c.InRange p ∧
      ∀ {q cause}, (p.change c).outcome p = some (q, cause) → q.Admits changes

instance decidableAdmits {α : Type} [Scalar α] :
    (edits : List (Edit α)) → (p : Program α) → Decidable (p.Admits (edits.map .edit))
  | [], _ => isTrue trivial
  | edit :: edits, p =>
    have : DecidablePred fun r : Program α × Option Error => r.1.Admits (edits.map .edit) :=
      fun r => decidableAdmits edits r.1
    decidable_of_iff (edit.InRange p ∧
        ∀ r ∈ (p.edit edit).outcome p, r.1.Admits (edits.map .edit))
      (and_congr_right fun _ => ⟨fun h {_ _} hq => h _ hq, fun h _ hr => h hr⟩)

theorem changeAll_cons (p : Program α) (c : Change α) (changes : List (Change α)) :
    p.changeAll (c :: changes) =
      ((p.change c).outcome p).bind fun next => next.1.changeAll changes := by
  rw [Program.changeAll, List.foldlM_cons]
  cases (p.change c).outcome p <;> rfl

/-- Several changes whose handles exist keep a program well-formed. -/
theorem WellFormed.changeAll (h : p.WellFormed) {changes : List (Change α)}
    (hrange : p.Admits changes) :
    ∃ q, p.changeAll changes = some q ∧ q.WellFormed ∧ p.Within q := by
  induction changes generalizing p with
  | nil => exact ⟨p, rfl, h, .refl p⟩
  | cons c changes ih =>
    obtain ⟨hc, hrest⟩ := hrange
    have hstep : ∃ q cause,
        (p.change c).outcome p = some (q, cause) ∧ q.WellFormed ∧ p.Within q := by
      rcases h.change hc with ⟨cause, hresult⟩ | ⟨q, hresult, hq, hwithin⟩
      · exact ⟨p, some cause, by rw [hresult]; rfl, h, .refl p⟩
      · exact ⟨q, none, by rw [hresult]; rfl, hq, hwithin⟩
    obtain ⟨q, cause, hresult, hq, hwithin⟩ := hstep
    obtain ⟨r, hr, hwf, hwithin'⟩ := ih hq (hrest hresult)
    refine ⟨r, ?_, hwf, hwithin.trans hwithin'⟩
    rw [changeAll_cons, hresult]
    exact hr

end Program

end Conic
