import Conic.Proofs.Dual.Derivation

/-!
# How a checkout ends

* `Exchange.refusal?` — the cause for which no dual is derived: the settings come first, the kinds
  of cones second.
* `Exchange.derive_of_refusal`, `Exchange.derive_of_accepted` — **these are the two ways in which
  deriving a dual ends.**
* `Exchange.borrow_of_checkedIn`, `Exchange.borrow_of_checkedOut`, `Exchange.checkOut_eq` — whose
  turn it is.
* `Exchange.dual_of_borrow`, `Exchange.state_of_checkOut` — which dual comes out.
* `Exchange.tryNew_eq_ok_iff` — what is checked when an exchange is made.
-/

set_option autoImplicit false

namespace Conic.Exchange

variable {α : Type} [Scalar α] {x : Exchange α} {error : Error}

/-- The cause for which no dual is derived: settings without meaning, otherwise cones that are
checked and not supported. -/
def refusal? (x : Exchange α) : Option Error :=
  match x.settings.fault? with
  | some error => some (.settings error)
  | none =>
    if x.settings.checkCones then
      (x.primal.coneKinds.find? (!·.supported)).map .unsupportedCone
    else none

omit [Scalar α] in
theorem checkCones_eq_ok {p : Program α} (hnone : p.coneKinds.find? (!·.supported) = none) :
    checkCones p = .ok () := by
  rw [checkCones, hnone]

omit [Scalar α] in
theorem checkCones_eq_error {p : Program α} {kind : Cone.Kind}
    (hkind : p.coneKinds.find? (!·.supported) = some kind) :
    checkCones p = .error (.unsupportedCone kind) := by
  rw [checkCones, hkind]

theorem derive_of_refusal (herror : x.refusal? = some error) (elapsed : Nat) :
    (x.derive elapsed).result = .error (.refused error) := by
  unfold refusal? at herror
  cases hfault : x.settings.fault? with
  | some fault =>
    rw [hfault] at herror
    cases herror
    simp [derive, checkSettings, hfault]
  | none =>
    rw [hfault] at herror
    cases hcones : x.settings.checkCones with
    | false => simp [hcones] at herror
    | true =>
      simp only [hcones, if_true, Option.map_eq_some_iff] at herror
      obtain ⟨kind, hkind, rfl⟩ := herror
      simp [derive, checkSettings, hfault, hcones, checkCones_eq_error hkind]

theorem refusal?_eq_none_iff : x.refusal? = none ↔ x.settings.fault? = none ∧
    (x.settings.checkCones = true → x.primal.coneKinds.find? (!·.supported) = none) := by
  unfold refusal?
  cases x.settings.fault? with
  | some fault => simp
  | none => simp

/-- Without a cause to refuse, the dual of a well-formed primal is derived. -/
theorem derive_of_accepted (h : x.primal.WellFormed) (hnone : x.refusal? = none) (elapsed : Nat) :
    ∃ target, (x.derive elapsed).result = .ok ⟨x.primal.derivedDual x.settings,
      x.counted (x.primal.derivedDual x.settings) elapsed target⟩ := by
  obtain ⟨hfault, hkinds⟩ := refusal?_eq_none_iff.mp hnone
  have hsettings : checkSettings x.settings = .ok () := by rw [checkSettings, hfault]
  exact derive_of_checked h hsettings (fun hcones => checkCones_eq_ok (hkinds hcones)) elapsed

/-- The dual in the hands of a borrower is the one written down at once. -/
theorem dual_of_derive (h : x.primal.WellFormed) {elapsed : Nat} {b : Borrowed α}
    (hb : (x.derive elapsed).result = .ok b) : b.dual = x.primal.derivedDual x.settings ∧
      ∃ target, b.owner = x.counted (x.primal.derivedDual x.settings) elapsed target := by
  cases hrefusal : x.refusal? with
  | some error =>
    rw [derive_of_refusal hrefusal] at hb
    cases hb
  | none =>
    obtain ⟨target, hresult⟩ := derive_of_accepted h hrefusal elapsed
    rw [hresult] at hb
    cases hb
    exact ⟨rfl, target, rfl⟩

/-! ## Turns -/

theorem borrow_of_checkedIn (hstate : x.state = .checkedIn) (elapsed : Nat) :
    (x.borrow elapsed).result = (x.derive elapsed).result := by
  simp [borrow, verifyCheckedIn, hstate]

theorem borrow_of_checkedOut {d : Dual α} (hstate : x.state = .checkedOut d) (elapsed : Nat) :
    (x.borrow elapsed).result = .error (.refused .notCheckedIn) := by
  simp [borrow, verifyCheckedIn, hstate]

theorem checkOut_eq (x : Exchange α) (elapsed : Nat) : (x.checkOut elapsed).result =
    (x.borrow elapsed).result.map fun b => { b.owner with state := .checkedOut b.dual } := by
  unfold checkOut
  rw [Traced.result_bind]
  cases (x.borrow elapsed).result <;> rfl

/-- A dual that is borrowed is the one written down at once. -/
theorem dual_of_borrow (h : x.primal.WellFormed) {elapsed : Nat} {b : Borrowed α}
    (hb : (x.borrow elapsed).result = .ok b) : b.dual = x.primal.derivedDual x.settings := by
  cases hstate : x.state with
  | checkedIn => exact (dual_of_derive h (borrow_of_checkedIn hstate elapsed ▸ hb)).1
  | checkedOut d =>
    rw [borrow_of_checkedOut hstate] at hb
    cases hb

/-- So is a dual that is checked out. -/
theorem state_of_checkOut (h : x.primal.WellFormed) {elapsed : Nat} {x' : Exchange α}
    (hx' : (x.checkOut elapsed).result = .ok x') :
    x'.state = .checkedOut (x.primal.derivedDual x.settings) := by
  rw [checkOut_eq] at hx'
  cases hresult : (x.borrow elapsed).result with
  | error fault =>
    rw [hresult] at hx'
    cases hx'
  | ok b =>
    rw [hresult] at hx'
    cases hx'
    exact congrArg _ (dual_of_borrow h hresult)

/-- What an exchange was checked for when it was made. -/
theorem tryNew_eq_ok_iff {p : Program α} {settings : Settings α} :
    tryNew p settings = .ok x ↔ x = .new p settings ∧ settings.fault? = none ∧
      p.consistent = true ∧ checkCones p = .ok () := by
  unfold tryNew checkSettings checkRecords Program.consistent
  cases settings.fault? with
  | some fault => simp
  | none =>
    cases p.inconsistency? with
    | some error => simp
    | none =>
      cases checkCones p with
      | error error => simp
      | ok _ => simp [pure, Except.pure, eq_comm]

end Conic.Exchange
