import Mathlib.Algebra.BigOperators.Field
import Conic.Proofs.Dual.Residual
import Conic.Proofs.Exchange.Acceptance
import Conic.Proofs.Exchange.Settling

/-!
# A cycle with arbitrary multipliers

* `Session.run_changeDual` — changes of a dual that is out, one after the other.
* `Session.exists_pricing_cycle` — checking out, pricing and checking in.
* `Session.checkIn_residual` — **what the constraints of the primal miss after a cycle in which the
  dual was priced at arbitrary multipliers.**
-/

set_option autoImplicit false

namespace Conic

namespace Exchange

/-- Over the rationals, an exchange with a consistent primal without second-order cones is ready. -/
theorem ready_of_orthant {x : Exchange ℚ} (hstate : x.state = .checkedIn)
    (hp : x.primal.consistent = true) (hcones : x.primal.Orthant)
    (htol : 0 ≤ x.settings.unitTolerance) : x.Ready where
  state := hstate
  settings := by
    have hfinite : Scalar.isFinite x.settings.unitTolerance = true := rfl
    have hfault : x.settings.fault? = none := by simp [Settings.fault?, hfinite, htol]
    rw [checkSettings, hfault]
  records := by
    rw [checkRecords, Option.isNone_iff_eq_none.mp hp]
  cones _ := checkCones_eq_ok (find?_coneKinds_of_orthant hcones)

end Exchange

namespace Session

open Exchange

section

variable {α : Type} [Scalar α] {s : Session α} {d : Dual α} {changes : List (Change α)}
  {q : Program α}

/-- Changes of a dual that is out. -/
theorem run_changeDual (hstate : s.exchange.state = .checkedOut d)
    (hq : d.program.changeAll changes = some q) :
    s.run (changes.map .changeDual) = some
      { s with exchange :=
        { s.exchange with state := .checkedOut { d with program := q } } } := by
  induction changes generalizing s d with
  | nil =>
    cases hq
    rw [← hstate]
    rfl
  | cons change changes ih =>
    rw [Program.changeAll, List.foldlM_cons] at hq
    obtain ⟨r, hr, hrest⟩ := Option.bind_eq_some_iff.mp hq
    have hdual : s.exchange.dual = .ok d := by rw [Exchange.dual, hstate]
    rw [List.map_cons, run, List.foldlM_cons]
    cases hchange : d.program.change change with
    | ok q₁ =>
      rw [hchange] at hr
      cases hr
      have hstep : s.step (.changeDual change) = some ({ s with exchange :=
          { s.exchange with state := .checkedOut { d with program := q₁ } } }, none) := by
        simp only [step_eq, call, editDual, hdual, Except.map, hchange]
        rfl
      rw [hstep]
      exact ih (d := { d with program := q₁ }) rfl hrest
    | error fault =>
      rw [hchange] at hr
      cases fault with
      | outOfRange => cases hr
      | refused cause =>
        cases hr
        have hstep : s.step (.changeDual change) = some (s, some (.program cause)) := by
          simp only [step_eq, call, editDual, hdual, Except.map, hchange]
          rfl
        rw [hstep]
        exact ih hstate hrest

end

/-- A cycle in which the dual is priced at the multipliers `μ`. -/
theorem exists_pricing_cycle {s t : Session ℚ} (hp : s.exchange.primal.WellFormed) {elapsed : Nat}
    (hout : s.step (.checkOut elapsed) = some (t, none))
    (hd : t.exchange.state = .checkedOut (s.exchange.primal.derivedDual s.exchange.settings))
    (μ : ConstraintId → ℚ) : ∃ u v,
      t.run (((s.exchange.primal.derivedDual s.exchange.settings).program.pricing μ).map
        .changeDual) = some u ∧
      u.exchange.state = .checkedOut (s.exchange.primal.reworkedDual s.exchange.settings
        ((s.exchange.primal.derivedDual s.exchange.settings).program.priced μ)) ∧
      u.step .checkIn = some (v, none) ∧
      v.exchange.primal = s.exchange.primal.pricedBack s.exchange.settings μ := by
  obtain ⟨u, hrun, hu, hprimal⟩ : ∃ u, t.run (_ : List (Call ℚ)) = some u ∧
      u.exchange.state = .checkedOut (s.exchange.primal.reworkedDual s.exchange.settings
        ((s.exchange.primal.derivedDual s.exchange.settings).program.priced μ)) ∧
      u.exchange.primal = s.exchange.primal :=
    ⟨_, run_changeDual hd (Program.changeAll_pricing _ μ), rfl, (holds_checkOut hp hout).primal⟩
  rw [← hprimal] at hp hu hrun ⊢
  have hfits := (hp.derivedDual_fits s.exchange.settings).grown
    (Program.within_priced (p := (u.exchange.primal.derivedDual s.exchange.settings).program) μ)
  obtain ⟨v, hin, _, hback, _⟩ := step_checkIn_reworked hp hfits hu
  exact ⟨u, v, hrun, hu, hin, hback⟩

/-- **What the constraints miss**, after the dual was checked out, its constraints were given any
multipliers `μ` and its variables their reduced costs, and it was checked in: a constraint with a
slack no more than the tolerance allows, and one without a slack the dual value of the apex of its
cone. -/
theorem checkIn_residual {s : Session ℚ} (hstate : s.exchange.state = .checkedIn)
    (hp : s.exchange.primal.consistent = true) (hcones : s.exchange.primal.Orthant)
    (hnonzero : s.exchange.primal.SlacksNonzero s.exchange.settings.slackChoice)
    (htol : 0 ≤ s.exchange.settings.unitTolerance) (elapsed : Nat) :
    ∃ t d, s.step (.checkOut elapsed) = some (t, none) ∧ t.exchange.state = .checkedOut d ∧
      ∀ μ : ConstraintId → ℚ, ∃ u v,
        t.run ((d.program.pricing μ).map .changeDual) = some u ∧
        u.exchange.state = .checkedOut { d with program := d.program.priced μ } ∧
        u.step .checkIn = some (v, none) ∧
        v.exchange.primal = { s.exchange.primal with point := v.exchange.primal.point } ∧
        v.exchange.primal.Residuals { d with program := d.program.priced μ } s.exchange.settings := by
  have h : s.exchange.primal.WellFormed := Program.consistent_iff_wellFormed.mp hp
  obtain ⟨t, hout, hd⟩ := step_checkOut (ready_of_orthant hstate hp hcones htol) elapsed
  refine ⟨t, _, hout, hd, fun μ => ?_⟩
  obtain ⟨u, v, hrun, hu, hin, hback⟩ := exists_pricing_cycle h hout hd μ
  refine ⟨u, v, hrun, hu, hin, ?_⟩
  rw [hback]
  exact ⟨rfl, Program.pricedBack_residuals h hcones hnonzero htol⟩

/-- With tolerance three the slack of the first constraint, whose coefficient is four, counts as a
unit slack; the second constraint has no slack. -/
theorem checkIn_residual_twoRows :
    let settings : Settings ℚ := { (Settings.standard : Settings ℚ) with unitTolerance := 3 }
    let μ : ConstraintId → ℚ := fun r => if r = ⟨0⟩ then 2 else -1
    ∃ t d u v, (start (.new Program.twoRows settings)).step (.checkOut 0) = some (t, none) ∧
      t.exchange.state = .checkedOut d ∧
      t.run ((d.program.pricing μ).map .changeDual) = some u ∧ u.step .checkIn = some (v, none) ∧
      v.exchange.primal.Residuals { d with program := d.program.priced μ } settings := by
  intro settings μ
  obtain ⟨t, d, hout, hd, hcycle⟩ := checkIn_residual
    (s := start (.new Program.twoRows settings)) rfl (by decide) (by decide) (by decide +kernel)
    (by decide) 0
  obtain ⟨u, v, hrun, _, hin, _, hresiduals⟩ := hcycle μ
  exact ⟨t, d, u, v, hout, hd, hrun, hin, hresiduals⟩

end Session

end Conic
