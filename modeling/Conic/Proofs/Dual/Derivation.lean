import Conic.Exchange.Basic
import Conic.Proofs.Dual.Rescaling

/-!
# The construction as a whole

* `WellFormed.dual_result` — **the construction succeeds and ends in `Program.derivedDual`.**
* `Exchange.checkOut_result` — **so does checking out**, and it leaves the primal alone.
-/

set_option autoImplicit false

namespace Conic

namespace Program

variable {α : Type} [Scalar α] {p : Program α}

/-! ## Between the steps -/

theorem blank_eq (p : Program α) (choice : SlackChoice) :
    Dual.blank p = p.dualOn choice (p.transposedDraft choice []) [] [] 0 := by
  simp [Dual.blank, dualOn, rowTable, slackTable, signedTable, freeTable, Dual.Draft.programOn,
    partsOn, Program.empty, varIds, constraintIds, Function.comp_def]

/-- Once every constraint is transposed, nothing is rescaled yet. -/
theorem rescaledDual_nil (p : Program α) (settings : Settings α) :
    p.dualOn settings.slackChoice (p.transposedDraft settings.slackChoice p.constraintIds)
        p.constraintIds (p.ordinaryVars settings.slackChoice) 0 =
      p.rescaledDual settings [] := by
  refine dualOn_congr 0 (Dual.Draft.program_congr ?_ ?_ fun v _ => ?_)
  · funext c
    simp [transposedDraft, rescaledDraft, divisorsAfter, dividedBy]
  · funext c
    by_cases hc : c ∈ p.constraintIds
    · simp [transposedDraft, rescaledDraft, hc]
    · have hnone : p.constraint? c = none := by
        rw [Option.eq_none_iff_forall_ne_some]
        exact fun row hrow => hc (mem_constraintIds_iff.mpr ⟨row, hrow⟩)
      simp [transposedDraft, rescaledDraft, hc, dualMembership, termsOf, hnone]
  · have horder : p.contributionOrder [] = p.constraintIds := by simp [contributionOrder]
    have hdivisors : p.divisorsAfter settings [] = fun _ => none := by
      funext c
      simp [divisorsAfter]
    simp only [transposedDraft, rescaledDraft, horder, hdivisors]

/-- What the fourth step goes through: the table of chosen slacks, with its positions. -/
theorem zipIdx_slackMultipliers (p : Program α) (settings : Settings α) :
    (p.rescaledDual settings []).slackMultipliers.toList.zipIdx = p.varIds.map fun v =>
      ((p.slackRow? settings.slackChoice v).map fun c =>
        p.partVar settings.slackChoice (.multiplier c), v.index) := by
  show (p.slackTable settings.slackChoice p.constraintIds).toList.zipIdx = _
  apply List.ext_getElem
  · simp [slackTable]
  · intro i hi _
    simp [slackTable, varIds, slackRow?]

/-! ## The construction -/

/-- The first three steps. -/
def transposedDual (p : Program α) (settings : Settings α) : Dual.Step α (Dual α) := do
  let d ← p.constraintIds.foldlM (Dual.addMultiplier p settings.slackChoice) (Dual.blank p)
  let d ← p.nonnegVars.foldlM (Dual.addReducedCost p) d
  p.constraintIds.foldlM (Dual.transposeRow p) d

/-- The fourth step follows the first three. -/
theorem dual_eq (p : Program α) (settings : Settings α) :
    p.dual settings = p.transposedDual settings >>= fun d =>
      d.slackMultipliers.toList.zipIdx.foldlM
        (Dual.normalizeSlack p settings.unitTolerance) d := by
  simp only [dual, transposedDual, bind_assoc]

namespace WellFormed

variable (h : p.WellFormed) (settings : Settings α)
include h

/-- The first three steps succeed. -/
theorem transposedDual_result :
    (p.transposedDual settings).result = .ok (p.rescaledDual settings []) := by
  have hmultipliers : p.constraintIds.foldlM
      (fun d c => (Dual.addMultiplier p settings.slackChoice d c).result)
        (p.dualOn settings.slackChoice (p.transposedDraft settings.slackChoice []) [] [] 0) =
      .ok (p.dualOn settings.slackChoice (p.transposedDraft settings.slackChoice [])
        p.constraintIds [] 0) :=
    foldlM_stages (fun cs => p.dualOn settings.slackChoice
      (p.transposedDraft settings.slackChoice []) cs [] 0)
      fun cs c post hsplit => addMultiplier_stage h hsplit
  have hreducedCosts : p.nonnegVars.foldlM (fun d v => (Dual.addReducedCost p d v).result)
        (p.dualOn settings.slackChoice (p.transposedDraft settings.slackChoice [])
          p.constraintIds [] 0) =
      .ok (p.dualOn settings.slackChoice (p.transposedDraft settings.slackChoice [])
        p.constraintIds (p.ordinaryVars settings.slackChoice) 0) :=
    foldlM_stages (fun vs => p.dualOn settings.slackChoice
      (p.transposedDraft settings.slackChoice []) p.constraintIds
        (vs.filter fun u => (p.slackRow? settings.slackChoice u).isNone) 0)
      fun vs v rest hsplit => addReducedCost_stage h hsplit
  have htransposed : p.constraintIds.foldlM (fun d c => (Dual.transposeRow p d c).result)
        (p.dualOn settings.slackChoice (p.transposedDraft settings.slackChoice [])
          p.constraintIds (p.ordinaryVars settings.slackChoice) 0) =
      .ok (p.dualOn settings.slackChoice (p.transposedDraft settings.slackChoice p.constraintIds)
          p.constraintIds (p.ordinaryVars settings.slackChoice) 0) :=
    foldlM_stages (fun cs => p.dualOn settings.slackChoice
      (p.transposedDraft settings.slackChoice cs) p.constraintIds
        (p.ordinaryVars settings.slackChoice) 0)
      fun cs c post hsplit => transposeRow_stage h hsplit
  simp only [transposedDual, Traced.result_bind, Traced.result_foldlM,
    blank_eq p settings.slackChoice, hmultipliers, hreducedCosts, htransposed, rescaledDual_nil,
    Checked.ok_bind]

/-- The fourth step succeeds as far as some slacks. -/
theorem normalizeSlacks_prefix {vs post : List VarId} (hsplit : p.varIds = vs ++ post) :
    ((vs.map fun v => ((p.slackRow? settings.slackChoice v).map fun c =>
        p.partVar settings.slackChoice (.multiplier c), v.index)).foldlM
      (Dual.normalizeSlack p settings.unitTolerance) (p.rescaledDual settings [])).result =
    .ok (p.rescaledDual settings (p.rescaledAmong settings vs)) := by
  rw [Traced.result_foldlM, List.foldlM_map]
  refine foldlM_stages (fun vs => p.rescaledDual settings (p.rescaledAmong settings vs)) ?_
  rintro pre v rest rfl
  have hsplit' : p.varIds = pre ++ v :: (rest ++ post) := by rw [hsplit, List.append_assoc]; rfl
  exact normalizeSlack_stage h hsplit'

/-- The fourth step succeeds. -/
theorem normalizeSlacks_result :
    ((p.rescaledDual settings []).slackMultipliers.toList.zipIdx.foldlM
      (Dual.normalizeSlack p settings.unitTolerance) (p.rescaledDual settings [])).result =
      .ok (p.derivedDual settings) := by
  rw [zipIdx_slackMultipliers]
  exact normalizeSlacks_prefix h settings (List.append_nil p.varIds).symm

/-- **The construction succeeds, and it ends in the dual written down at once.** -/
theorem dual_result : (p.dual settings).result = .ok (p.derivedDual settings) := by
  rw [dual_eq, Traced.result_bind, h.transposedDual_result settings, Checked.ok_bind,
    h.normalizeSlacks_result settings]

end WellFormed

end Program

/-! ## Checking out -/

namespace Exchange

variable {α : Type} [Scalar α] {x : Exchange α}

omit [Scalar α] in
theorem printSummary_result (x : Exchange α) : ∃ target,
    x.printSummary.result = .ok { x with target } :=
  ⟨_, rfl⟩

/-- What stands in the way of a checkout: a dual that is out already, settings without meaning,
contradicting records, or cones that are not supported. -/
structure Ready (x : Exchange α) : Prop where
  state : x.state = .checkedIn
  settings : checkSettings x.settings = .ok ()
  records : checkRecords x.primal = .ok ()
  cones : x.settings.checkCones = true → checkCones x.primal = .ok ()

omit [Scalar α] in
theorem wellFormed_of_checkRecords (h : checkRecords x.primal = .ok ()) : x.primal.WellFormed := by
  unfold checkRecords at h
  split at h
  · cases h
  · rename_i hnone
    exact Program.consistent_iff_wellFormed.mp (by rw [Program.consistent, hnone]; rfl)

omit [Scalar α] in
theorem checkRecords_of_wellFormed {p : Program α} (h : p.WellFormed) : checkRecords p = .ok () := by
  have hnone : p.inconsistency? = none := by
    have := Program.consistent_iff_wellFormed.mpr h
    rwa [Program.consistent, Option.isNone_iff_eq_none] at this
  unfold checkRecords
  rw [hnone]

omit [Scalar α] in
/-- No kind of cone other than the supported one occurs. -/
theorem find?_coneKinds_of_orthant {p : Program α} (h : p.Orthant) :
    p.coneKinds.find? (!·.supported) = none := by
  refine List.find?_eq_none.mpr fun kind hkind => ?_
  obtain ⟨cone, hcone, rfl⟩ := Program.mem_coneKinds_iff.mp hkind
  simp [Program.forall_cone?_iff.mp (fun _ _ => h) cone hcone, Cone.Kind.supported]

omit [Scalar α] in
/-- A program without other cones is supported. -/
theorem checkCones_of_orthant {p : Program α} (h : p.Orthant) : checkCones p = .ok () := by
  rw [checkCones, find?_coneKinds_of_orthant h]

/-- The exchange after a dual was derived and counted, and the summary perhaps printed. -/
def counted (x : Exchange α) (d : Dual α) (elapsed : Nat) (target : Target) : Exchange α :=
  { x with summary := x.summary.afterCheckout d elapsed, target }

/-- Deriving the dual, whether or not the kinds of cones are checked and a summary is printed. -/
theorem derive_of_checked (h : x.primal.WellFormed) (hsettings : checkSettings x.settings = .ok ())
    (hkinds : x.settings.checkCones = true → checkCones x.primal = .ok ()) (elapsed : Nat) :
    ∃ target, (x.derive elapsed).result = .ok ⟨x.primal.derivedDual x.settings,
      x.counted (x.primal.derivedDual x.settings) elapsed target⟩ := by
  have htranslated : ((x.primal.dual x.settings).result.mapError (Fault.map Error.program)) =
      .ok (x.primal.derivedDual x.settings) := by
    rw [h.dual_result]
    rfl
  obtain ⟨target, htarget⟩ := printSummary_result
    { x with summary := x.summary.afterCheckout (x.primal.derivedDual x.settings) elapsed }
  refine ⟨if x.settings.verbose then target else x.target, ?_⟩
  cases hcones : x.settings.checkCones with
  | true =>
    cases hverbose : x.settings.verbose <;>
      simp [derive, hsettings, hcones, hkinds hcones, htranslated, hverbose, htarget, counted]
  | false =>
    cases hverbose : x.settings.verbose <;>
      simp [derive, hsettings, hcones, htranslated, hverbose, htarget, counted]

theorem derive_result (h : x.Ready) (elapsed : Nat) : ∃ owner,
    (x.derive elapsed).result = .ok ⟨x.primal.derivedDual x.settings, owner⟩ ∧
      owner.primal = x.primal ∧ owner.settings = x.settings := by
  obtain ⟨target, hresult⟩ :=
    derive_of_checked (wellFormed_of_checkRecords h.records) h.settings h.cones elapsed
  exact ⟨_, hresult, rfl, rfl⟩

/-- **An exchange that is ready checks out the dual written down at once.** -/
theorem checkOut_result (h : x.Ready) (elapsed : Nat) : ∃ x',
    (x.checkOut elapsed).result = .ok x' ∧
      x'.state = .checkedOut (x.primal.derivedDual x.settings) ∧
      x'.primal = x.primal ∧ x'.settings = x.settings := by
  obtain ⟨owner, howner, hprimal, hsettings⟩ := derive_result h elapsed
  have hturn : x.verifyCheckedIn = .ok () := by rw [verifyCheckedIn, h.state]
  simp [checkOut, borrow, hturn, howner, hprimal, hsettings]

end Exchange

/-- The least `3·x₀ + x₂` with `2·x₀ + 4·x₁ = 6` and `x₀ + x₂ = 5`: the first constraint has the
slack `x₁`, the second one has none. -/
def Program.twoRows : Program Rat where
  vars := #[⟨⟨0⟩, 3, 0, [⟨0⟩, ⟨1⟩]⟩, ⟨⟨1⟩, 0, 0, [⟨0⟩]⟩, ⟨⟨2⟩, 1, 0, [⟨1⟩]⟩]
  cones := #[.nonneg ⟨0⟩, .nonneg ⟨1⟩, .nonneg ⟨2⟩]
  constraints := #[⟨⟨[(⟨0⟩, 2), (⟨1⟩, 4)], by decide⟩, 6, 0⟩, ⟨⟨[(⟨0⟩, 1), (⟨2⟩, 1)], by decide⟩, 5, 0⟩]
  point := #[0, 0, 0]

theorem Exchange.twoRows_ready : (Exchange.new Program.twoRows .standard).Ready :=
  ⟨rfl, by rfl, by rfl, fun _ => by rfl⟩

/-- The least `3·x₀` with `2·x₀ + 4·x₁ = 6` and `x₀ - 2·x₂ = 1`: both constraints have a slack. -/
def Program.slackRows : Program Rat where
  vars := #[⟨⟨0⟩, 3, 0, [⟨0⟩, ⟨1⟩]⟩, ⟨⟨1⟩, 0, 0, [⟨0⟩]⟩, ⟨⟨2⟩, 0, 0, [⟨1⟩]⟩]
  cones := #[.nonneg ⟨0⟩, .nonneg ⟨1⟩, .nonneg ⟨2⟩]
  constraints := #[⟨⟨[(⟨0⟩, 2), (⟨1⟩, 4)], by decide⟩, 6, 0⟩, ⟨⟨[(⟨0⟩, 1), (⟨2⟩, -2)], by decide⟩, 1, 0⟩]
  point := #[0, 0, 0]

theorem Exchange.slackRows_ready : (Exchange.new Program.slackRows .standard).Ready :=
  ⟨rfl, by rfl, by rfl, fun _ => by rfl⟩

end Conic
