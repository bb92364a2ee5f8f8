import Conic.Proofs.Exchange.Recycling
import Conic.Proofs.Reporting

/-!
# Warnings of divisions by zero

The construction divides by the coefficients of chosen slacks. It warns of a coefficient that is
zero, and then divides.

* `Dual.Note.zeroSlack?`, `Event.zeroSlack?` — the warnings among the reports.
* `Dual.reported_normalizeSlack` — one slack; the first three steps do not warn.
* `WellFormed.reported_dual`, `Exchange.reported_checkOut` — **there is one warning for each chosen
  slack whose coefficient is divided by and zero**, and no other.
-/

set_option autoImplicit false

namespace Conic

variable {α : Type}

/-- The slack that the report warns of, if it is a warning of a coefficient that is zero. -/
def Dual.Note.zeroSlack? : Dual.Note α → Option VarId
  | .zeroCoefficient slack => some slack
  | _ => none

/-- The slack that the event warns of, if it is a warning of a coefficient that is zero. -/
def Event.zeroSlack? : Event α → Option VarId
  | .construction note => note.zeroSlack?
  | _ => none

variable [Scalar α]

/-- Is `v` a chosen slack whose coefficient is divided by and zero? -/
def Program.isZeroSlack (p : Program α) (settings : Settings α) (v : VarId) : Bool :=
  (p.slackRow? settings.slackChoice v).any fun c => (p.divisorOf? settings c).any (· == 0)

/-- The chosen slacks whose coefficients are divided by and zero, in order. -/
def Program.zeroSlacks (p : Program α) (settings : Settings α) : List VarId :=
  p.varIds.filter (p.isZeroSlack settings)

namespace Dual

open Traced

variable {primal : Program α} {choice : SlackChoice} {tolerance k : α} {y v : VarId}

/-! ## The first three steps -/

theorem silent_addMultiplier (d : Dual α) (c : ConstraintId) :
    (addMultiplier primal choice d c).Silent Note.zeroSlack? := by
  apply (silent_quiet _).bind
  intro row
  apply (silent_quiet _).bind
  intro slack
  cases slack with
  | some slack =>
    apply (silent_quiet _).bind
    intro y
    apply (silent_quiet _).bind
    intro program
    exact (silent_report rfl).bind fun _ => silent_pure _
  | none =>
    apply (silent_quiet _).bind
    intro added
    apply (silent_quiet _).bind
    intro y
    apply (silent_quiet _).bind
    intro program
    exact (silent_report rfl).bind fun _ => silent_pure _

theorem silent_addReducedCost (d : Dual α) (v : VarId) :
    (addReducedCost primal d v).Silent Note.zeroSlack? := by
  apply (silent_quiet _).bind
  intro slack
  cases slack with
  | some y => exact silent_pure d
  | none =>
    apply (silent_quiet _).bind
    intro x
    apply (silent_quiet _).bind
    intro program
    apply (silent_quiet _).bind
    intro w
    apply (silent_quiet _).bind
    intro program
    exact (silent_quiet _).bind fun _ => silent_pure _

omit [Scalar α] in
theorem silent_transposeRow (d : Dual α) (c : ConstraintId) :
    (transposeRow primal d c).Silent Note.zeroSlack? := by
  apply (silent_quiet _).bind
  intro row
  apply (silent_quiet _).bind
  intro y
  apply Silent.foldlM
  intro d term
  apply (silent_quiet _).bind
  intro row
  cases row with
  | none => exact silent_pure d
  | some row => exact (silent_quiet _).bind fun _ => silent_pure _

theorem silent_transposedDual (p : Program α) (settings : Settings α) :
    (p.transposedDual settings).Silent Note.zeroSlack? := by
  apply (Silent.foldlM silent_addMultiplier _ _).bind
  intro d
  apply (Silent.foldlM silent_addReducedCost _ _).bind
  intro d
  exact Silent.foldlM silent_transposeRow _ _

/-! ## The fourth step -/

/-- The fourth step warns before it divides by zero. -/
theorem reported_normalizeSlack (hk : slackCoefficient primal v = .ok k) (d : Dual α) :
    (normalizeSlack primal tolerance d (some y, v.index)).reported Note.zeroSlack? =
      if !countsAsUnit tolerance k && k == 0 then [v] else [] := by
  have hquiet : (quiet (slackCoefficient primal v) : Step α α).result = .ok k := hk
  rw [normalizeSlack, reported_bind_of_ok hquiet, silent_quiet, List.nil_append]
  have hrest : ((do
      let program ← quiet (rescale d.program y k)
      report (.rescaled v y k)
      return { d with program, rescaled := d.rescaled + 1 }) : Step α (Dual α)).Silent
        Note.zeroSlack? :=
    (silent_quiet _).bind fun _ => (silent_report rfl).bind fun _ => silent_pure _
  cases hunit : countsAsUnit tolerance k with
  | true => rfl
  | false =>
    cases hzero : k == 0 with
    | true =>
      show ((report (.zeroCoefficient v) : Step α Unit) >>= fun _ => _).reported _ = [v]
      rw [reported_bind_of_ok (result_report _), hrest]
      rfl
    | false => exact hrest

end Dual

namespace Program

open Traced

variable {p : Program α} {settings : Settings α}

theorem WellFormed.isZeroSlack_eq (h : p.WellFormed) {c : ConstraintId} {v : VarId} {k : α}
    (hv : p.slackOf settings.slackChoice c = some v) (hk : p.coefficient? c v = some k) :
    p.isZeroSlack settings v = (!Dual.countsAsUnit settings.unitTolerance k && k == 0) := by
  rw [isZeroSlack, h.slackRow?_eq_some_iff.mpr hv, Option.any_some, divisorOf?_of_slackOf hv hk]
  cases Dual.countsAsUnit settings.unitTolerance k <;> rfl

theorem WellFormed.reported_normalizeSlack (h : p.WellFormed) (d : Dual α) (v : VarId) :
    (Dual.normalizeSlack p settings.unitTolerance d
      ((p.slackRow? settings.slackChoice v).map fun c =>
        p.partVar settings.slackChoice (.multiplier c), v.index)).reported
          Dual.Note.zeroSlack? = (Option.guard (p.isZeroSlack settings) v).toList := by
  cases hslack : p.slackRow? settings.slackChoice v with
  | none =>
    have hnot : p.isZeroSlack settings v = false := by rw [isZeroSlack, hslack, Option.any_none]
    rw [Option.guard, hnot]
    rfl
  | some c =>
    have hv : p.slackOf settings.slackChoice c = some v := h.slackRow?_eq_some_iff.mp hslack
    obtain ⟨k, hk, hcoefficient⟩ := h.slackCoefficient_eq hv
    rw [Option.map_some, Dual.reported_normalizeSlack hcoefficient, Option.guard,
      h.isZeroSlack_eq hv hk]
    split <;> rfl

/-- **The construction warns of every chosen slack by whose coefficient, zero, it divides**, of each
once and in order, and of nothing else. -/
theorem WellFormed.reported_dual (h : p.WellFormed) (settings : Settings α) :
    (p.dual settings).reported Dual.Note.zeroSlack? = p.zeroSlacks settings := by
  have hstep := reported_foldlM (k := fun entry => Option.guard (p.isZeroSlack settings) ⟨entry.2⟩)
    (h.normalizeSlacks_result settings) (g := Dual.Note.zeroSlack?) ?_
  · rw [dual_eq, reported_bind_of_ok (h.transposedDual_result settings),
      Dual.silent_transposedDual, List.nil_append, hstep, zipIdx_slackMultipliers,
      List.filterMap_map, zeroSlacks, ← List.filterMap_eq_filter]
    rfl
  · intro d entry hentry
    rw [zipIdx_slackMultipliers] at hentry
    obtain ⟨v, _, rfl⟩ := List.mem_map.mp hentry
    exact h.reported_normalizeSlack d v

end Program

/-! ## Checking out -/

namespace Exchange

open Traced

variable {x : Exchange α}

omit [Scalar α] in
theorem silent_printSummary (x : Exchange α) : x.printSummary.Silent Event.zeroSlack? := by
  simp only [Silent, reported, printSummary]
  split <;> simp [Event.zeroSlack?]

omit [Scalar α] in
theorem silent_hand (x : Exchange α) (elapsed : Nat) (d : Dual α) :
    (x.hand elapsed d).Silent Event.zeroSlack? := by
  apply (silent_report rfl).bind
  intro _
  cases hverbose : x.settings.verbose with
  | true =>
    simp only [hverbose, if_true]
    exact (silent_printSummary _).bind fun _ => silent_pure _
  | false =>
    simp only [hverbose]
    exact (silent_pure _).bind fun _ => silent_pure _

theorem reported_derive (h : x.Ready) (elapsed : Nat) :
    (x.derive elapsed).reported Event.zeroSlack? = x.primal.zeroSlacks x.settings := by
  have hp : x.primal.WellFormed := wellFormed_of_checkRecords h.records
  have hdual : ((x.primal.dual x.settings).translate Event.construction
      (Fault.map Error.program)).result = .ok (x.primal.derivedDual x.settings) := by
    rw [result_translate, hp.dual_result]
    rfl
  have htranslated : ((x.primal.dual x.settings).translate Event.construction
      (Fault.map Error.program) >>= x.hand elapsed).reported Event.zeroSlack? =
        x.primal.zeroSlacks x.settings := by
    rw [reported_bind_of_ok hdual, silent_hand, List.append_nil, reported_translate]
    exact hp.reported_dual x.settings
  have hsettings : (quiet (Checked.accepted (checkSettings x.settings)) :
      Reported α Unit).result = .ok () := by
    rw [h.settings]
    rfl
  rw [derive_eq, reported_bind_of_ok hsettings, silent_quiet, List.nil_append]
  cases hcones : x.settings.checkCones with
  | true =>
    have hkinds : (quiet (Checked.accepted (checkCones x.primal)) :
        Reported α Unit).result = .ok () := by
      rw [h.cones hcones]
      rfl
    simp only [if_true]
    rw [reported_bind_of_ok hkinds, silent_quiet, List.nil_append, htranslated]
  | false => exact htranslated

/-- A checkout warns of what the construction warns of. -/
theorem reported_checkOut (h : x.Ready) (elapsed : Nat) :
    (x.checkOut elapsed).reported Event.zeroSlack? = x.primal.zeroSlacks x.settings := by
  have hturn : (quiet (Checked.accepted x.verifyCheckedIn) : Reported α Unit).result = .ok () := by
    rw [verifyCheckedIn, h.state]
    rfl
  have hborrow : (x.borrow elapsed).reported Event.zeroSlack? =
      x.primal.zeroSlacks x.settings := by
    rw [borrow, reported_bind_of_ok hturn, silent_quiet, List.nil_append, reported_derive h]
  show ((fun b : Borrowed α => { b.owner with state := .checkedOut b.dual }) <$>
    x.borrow elapsed).reported _ = _
  rw [reported_map, hborrow]

end Exchange

end Conic
