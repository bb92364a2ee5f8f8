import Mathlib.Algebra.GroupWithZero.Nat
import Conic.Proofs.Dual.Unread
import Conic.Proofs.Exchange.Calls

/-!
# The same dual again

A checkout does not see what is stored of a solution, and a check-in stores nothing else. A second
cycle therefore starts with the dual that the first one started with.

* `Exchange.withPrimal` — an exchange with another primal.
* `Exchange.checkOut_withPrimal`, `Exchange.borrow_withPrimal` — two runs of one checkout, on
  primals that differ in a solution.
* `Call.LeavesProblem`, `Exchange.call_unsolved` — calls that change no more than a solution.
* `Exchange.checkOut_again` — two checkouts with no more than a solution between them.
* `Session.Similar` — what a run of such calls preserves.
* `Session.run_recycles` — **the outcome of a checkout does not depend on a solution, and a cycle
  comes back to the dual that it started with.**
-/

set_option autoImplicit false

namespace Conic

/-- The exchange with `q` for its primal. -/
def Exchange.withPrimal {α : Type} (x : Exchange α) (q : Program α) : Exchange α :=
  { x with primal := q }

/-- The borrowed dual of an exchange with `q` for its primal. -/
def Borrowed.ownerWithPrimal {α : Type} (b : Borrowed α) (q : Program α) : Borrowed α :=
  { b with owner := b.owner.withPrimal q }

/-- The summary without the two counters and the time: what it says of a dual. -/
def Summary.sizes (s : Summary) : Summary :=
  { s with checkouts := 0, checkins := 0, elapsed := 0 }

theorem Summary.sizes_afterCheckout {α : Type} (s r : Summary) (d : Dual α) (e₁ e₂ : Nat) :
    (s.afterCheckout d e₁).sizes = (r.afterCheckout d e₂).sizes := rfl

namespace Exchange

variable {α : Type} [Scalar α]

/-! ## Two runs of one checkout -/

/-- Counts a dual and, when asked to, prints the summary. -/
def hand (x : Exchange α) (elapsed : Nat) (dual : Dual α) : Reported α (Borrowed α) := do
  let program := dual.program
  Traced.report
    (.checkedOut program.vars.size program.constraints.size program.cones.size)
  let x := { x with summary := x.summary.afterCheckout dual elapsed }
  let owner ← if x.settings.verbose then x.printSummary else pure x
  return { dual, owner }

/-- Deriving a dual, what is done with it aside. -/
theorem derive_eq (x : Exchange α) (elapsed : Nat) : x.derive elapsed = (do
    Traced.quiet (Checked.accepted (checkSettings x.settings))
    if x.settings.checkCones then
      Traced.quiet (Checked.accepted (checkCones x.primal))
    (x.primal.dual x.settings).translate .construction (Fault.map .program) >>= x.hand elapsed) :=
  rfl

section

variable {x : Exchange α} {q : Program α} (hq : q.unsolved = x.primal.unsolved)
include hq

/-- The summary shows sizes of the primal only. -/
theorem lines_withPrimal (s : Summary) : s.lines q = s.lines x.primal := by
  have hvars : q.vars.size = x.primal.vars.size := by
    rw [← q.unsolved_vars_size, hq, x.primal.unsolved_vars_size]
  have hconstraints : q.constraints.size = x.primal.constraints.size := by
    rw [← q.unsolved_constraints_size, hq, x.primal.unsolved_constraints_size]
  have hcones : q.cones = x.primal.cones := by
    rw [← q.unsolved_cones, hq, x.primal.unsolved_cones]
  rw [Summary.lines, Summary.lines, hvars, hconstraints, hcones]

theorem printSummary_withPrimal :
    (x.withPrimal q).printSummary = (·.withPrimal q) <$> x.printSummary := by
  have hlines := lines_withPrimal hq x.summary
  simp only [printSummary, withPrimal, hlines]
  ext1 <;> simp

/-- A dual that was derived is counted, and the summary is printed. -/
theorem hand_withPrimal (elapsed : Nat) : (x.withPrimal q).hand elapsed =
    fun d => (·.ownerWithPrimal q) <$> x.hand elapsed d := by
  funext d
  have hprint := printSummary_withPrimal
    (x := { x with summary := x.summary.afterCheckout d elapsed }) hq
  simp only [withPrimal] at hprint
  cases hverbose : x.settings.verbose <;>
    simp [hand, withPrimal, hverbose, hprint, Borrowed.ownerWithPrimal]

/-- Everything that the derivation reports and comes to is the same. -/
theorem derive_withPrimal (elapsed : Nat) : (x.withPrimal q).derive elapsed =
    (·.ownerWithPrimal q) <$> x.derive elapsed := by
  have hkinds : checkCones q = checkCones x.primal := by
    rw [checkCones, ← q.unsolved_coneKinds, hq, x.primal.unsolved_coneKinds, checkCones]
  have hdual : q.dual x.settings = x.primal.dual x.settings := Program.dual_congr _ hq
  have hhand := hand_withPrimal hq elapsed
  rw [derive_eq, derive_eq]
  simp only [withPrimal] at hhand ⊢
  rw [hkinds, hdual]
  by_cases hcones : x.settings.checkCones = true <;>
    simp only [hcones, hhand, map_bind, if_true, if_false, Bool.false_eq_true]

theorem borrow_withPrimal (elapsed : Nat) : (x.withPrimal q).borrow elapsed =
    (·.ownerWithPrimal q) <$> x.borrow elapsed := by
  have hturn : (x.withPrimal q).verifyCheckedIn = x.verifyCheckedIn := rfl
  simp only [borrow, map_bind, hturn, derive_withPrimal hq]

theorem checkOut_withPrimal (elapsed : Nat) : (x.withPrimal q).checkOut elapsed =
    (·.withPrimal q) <$> x.checkOut elapsed := by
  simp only [checkOut, borrow_withPrimal hq, map_bind, bind_map_left]
  rfl

end

/-! ## Calls that leave the problem -/

/-- The call changes no more of the primal than the solution in it. -/
def Call.LeavesProblem {α : Type} : Call α → Prop
  | .changePrimal change => change.StoresSolution
  | _ => True

variable {x x' : Exchange α} {c : Call α}

theorem settle_unsolved {d : Dual α} (hx : (x.settle d).result = .ok x') :
    x'.primal.unsolved = x.primal.unsolved := by
  simp only [settle, Traced.result_bind, Traced.result_quiet, Program.bind_eq_ok] at hx
  obtain ⟨q, hq, _, _, hx⟩ := hx
  cases hx
  exact d.writeBack?_unsolved (Program.found_eq_ok.mp hq)

/-- Deriving a dual leaves the primal as it is. -/
theorem primal_of_borrow {elapsed : Nat} {b : Borrowed α} (hb : (x.borrow elapsed).result = .ok b) :
    b.owner.primal = x.primal := by
  simp only [borrow, derive_eq, Traced.result_bind, Program.bind_eq_ok] at hb
  obtain ⟨_, _, _, _, hb⟩ := hb
  have hhand : ∀ {d : Dual α}, (x.hand elapsed d).result = .ok b → b.owner.primal = x.primal := by
    intro d hb
    cases hverbose : x.settings.verbose <;> simp [hand, hverbose, printSummary] at hb <;>
      rw [← hb]
  split at hb
  · simp only [Traced.result_bind, Program.bind_eq_ok] at hb
    obtain ⟨_, _, _, _, hb⟩ := hb
    exact hhand hb
  · simp only [Traced.result_bind, Program.bind_eq_ok] at hb
    obtain ⟨_, _, hb⟩ := hb
    exact hhand hb

omit [Scalar α] in
theorem changed_eq_ok {r : Except Error (Except (Fault Program.Error) (Exchange α × Unit))} :
    changed r = .ok x' ↔ r = .ok (.ok (x', ())) := by
  rcases r with error | error | ⟨y, _⟩ <;> simp [changed, Except.mapError, Except.map]

/-- The call is not one that changes the settings. -/
def Call.KeepsSettings {α : Type} : Call α → Prop
  | .configure _ => False
  | _ => True

theorem Moved.settings_eq (hmoved : x.Moved c x') (hc : c.KeepsSettings) :
    x'.settings = x.settings := by
  cases hmoved with
  | configured => exact hc.elim
  | checkOut | checkIn | dropped | returned | primal | dual => rfl

/-- **Such a call leaves the unsolved primal as it is.** -/
theorem call_unsolved (hc : c.LeavesProblem) (hx : x.call c = .ok x') :
    x'.primal.unsolved = x.primal.unsolved := by
  cases c with
  | checkOut elapsed =>
    rw [call, Program.mapError_eq_ok, checkOut_eq, Program.map_eq_ok] at hx
    obtain ⟨b, hb, rfl⟩ := hx
    exact congrArg _ (primal_of_borrow hb)
  | checkIn =>
    simp only [call, Program.mapError_eq_ok, Exchange.checkIn, Traced.result_bind,
      Program.bind_eq_ok] at hx
    obtain ⟨d, _, hx⟩ := hx
    exact settle_unsolved (x := { x with state := .checkedIn }) hx
  | borrow elapsed changes returned =>
    simp only [call, Program.bind_eq_ok, Program.mapError_eq_ok] at hx
    obtain ⟨b, hb, ⟨b', _⟩, hb', hx⟩ := hx
    obtain ⟨_, _, he⟩ := Program.map_eq_ok.mp hb'
    cases he
    refine Eq.trans ?_ (congrArg _ (primal_of_borrow hb))
    cases returned with
    | false =>
      cases hx
      rfl
    | true => exact settle_unsolved (Program.mapError_eq_ok.mp hx)
  | changePrimal change =>
    obtain ⟨_, _, hx⟩ := Program.map_eq_ok.mp (changed_eq_ok.mp hx)
    obtain ⟨⟨q, _⟩, hq, he⟩ := Program.map_eq_ok.mp hx
    obtain ⟨_, hq, hq'⟩ := Program.map_eq_ok.mp hq
    cases he
    cases hq'
    exact Program.change_unsolved hc hq
  | changeDual change =>
    obtain ⟨_, _, hx⟩ := Program.map_eq_ok.mp (changed_eq_ok.mp hx)
    obtain ⟨_, _, he⟩ := Program.map_eq_ok.mp hx
    cases he
    rfl
  | configure settings =>
    cases hx
    rfl

/-! ## The second checkout -/

/-- A primal that differs in a solution, under the same settings, is refused for the same cause. -/
theorem refusal?_congr {y : Exchange α} (hprimal : y.primal.unsolved = x.primal.unsolved)
    (hsettings : y.settings = x.settings) : y.refusal? = x.refusal? := by
  have hkinds : y.primal.coneKinds = x.primal.coneKinds := by
    rw [← Program.unsolved_coneKinds, hprimal, Program.unsolved_coneKinds]
  rw [refusal?, refusal?, hkinds, hsettings]

/-- A checkout that has succeeded succeeds again, with the same dual and the same sizes. -/
theorem checkOut_again {y : Exchange α} (hx : x.primal.WellFormed) (hy : y.primal.WellFormed)
    (hprimal : y.primal.unsolved = x.primal.unsolved) (hsettings : y.settings = x'.settings)
    (hstate : y.state = .checkedIn) {e₁ : Nat} (hout : x.call (.checkOut e₁) = .ok x') (e₂ : Nat) :
    ∃ y' d, y.call (.checkOut e₂) = .ok y' ∧ x'.state = .checkedOut d ∧ y'.state = .checkedOut d ∧
      y'.summary.sizes = x'.summary.sizes := by
  obtain ⟨hin, hnone⟩ := refusal?_of_checkOut hout
  obtain ⟨_, hfirst⟩ := call_checkOut hx hin hnone e₁
  rw [hfirst] at hout
  cases hout
  have hsettings : y.settings = x.settings := hsettings
  obtain ⟨_, hsecond⟩ := call_checkOut hy hstate (refusal?_congr hprimal hsettings ▸ hnone) e₂
  have hdual : y.primal.derivedDual y.settings = x.primal.derivedDual x.settings := by
    rw [hsettings]
    exact hy.derivedDual_congr hx hprimal x.settings
  refine ⟨_, _, hsecond, rfl, ?_, ?_⟩
  · rw [hdual]
  · simp only [counted, hdual]
    exact Summary.sizes_afterCheckout ..

end Exchange

namespace Session

open Exchange

variable {α : Type} [Scalar α] {s t u : Session α} {c : Call α} {calls : List (Call α)}

/-- The exchange of `t` is sound, and its primal is that of `s` but for a solution. -/
structure Similar (s t : Session α) : Prop where
  sound : t.exchange.Sound
  primal : t.exchange.primal.unsolved = s.exchange.primal.unsolved

theorem Similar.refl (h : s.exchange.Sound) : s.Similar s := ⟨h, rfl⟩

theorem Similar.of_step (h : s.Similar t) (hc : c.LeavesProblem) (hrange : c.InRange t.exchange)
    {cause : Option Refusal} (hstep : t.step c = some (u, cause)) : s.Similar u := by
  cases cause with
  | some cause => exact eq_of_declined hstep ▸ h
  | none =>
    obtain ⟨x, hcall, rfl⟩ := step_eq_some hstep
    have hsound := (moved_of_call h.sound hrange hcall).sound h.sound hrange
    have hprimal := (call_unsolved hc hcall).trans h.primal
    rw [← exchange_after t x c] at hsound hprimal
    exact ⟨hsound, hprimal⟩

theorem Similar.step (h : s.Similar t) (hc : c.LeavesProblem) (hrange : c.InRange t.exchange) :
    ∃ u cause, t.step c = some (u, cause) ∧ s.Similar u := by
  rcases step_moved h.sound hrange with ⟨cause, hstep⟩ | ⟨x, hstep, _⟩
  · exact ⟨t, some cause, hstep, h.of_step hc hrange hstep⟩
  · exact ⟨t.after x c, none, hstep, h.of_step hc hrange hstep⟩

/-- Checking in, whether or not a dual is out, leaves none out. -/
theorem exists_step_checkIn (h : t.exchange.Sound) :
    ∃ u cause, t.step .checkIn = some (u, cause) ∧ u.exchange.state = .checkedIn ∧
      u.exchange.settings = t.exchange.settings := by
  cases hstate : t.exchange.state with
  | checkedOut d =>
    have hresolves := (h.dual hstate).2.resolves h.primal.point_size
    obtain ⟨u, hu, hin, hsettings, _⟩ := step_checkIn hstate hresolves
    exact ⟨u, none, hu, hin, hsettings⟩
  | checkedIn =>
    rcases step_moved h (c := .checkIn) trivial with ⟨cause, hstep⟩ | ⟨x, _, hmoved⟩
    · exact ⟨t, some cause, hstep, hstate, rfl⟩
    · cases hmoved with
      | checkIn hout =>
        rw [hstate] at hout
        cases hout

/-- Settings change when the exchange is told so, and at no other time. -/
theorem run_settings (h : t.exchange.Sound) (hrange : t.InRange calls)
    (hcalls : ∀ c ∈ calls, c.KeepsSettings) (hrun : t.run calls = some u) :
    u.exchange.settings = t.exchange.settings := by
  obtain ⟨u', hu', _, hsettings⟩ := run_preserves
    (P := fun r => r.exchange.Sound ∧ r.exchange.settings = t.exchange.settings)
    (fun {r c} hr hc hrange => by
      rcases step_moved hr.1 hrange with ⟨cause, hstep⟩ | ⟨x, hstep, hmoved⟩
      · exact ⟨r, some cause, hstep, hr⟩
      · refine ⟨r.after x c, none, hstep, ?_⟩
        rw [exchange_after]
        exact ⟨hmoved.sound hr.1 hrange, (hmoved.settings_eq hc).trans hr.2⟩)
    ⟨h, rfl⟩ hcalls hrange
  rw [hu'] at hrun
  cases hrun
  exact hsettings

theorem run_append (s : Session α) (calls rest : List (Call α)) :
    s.run (calls ++ rest) = (s.run calls).bind fun t => t.run rest :=
  List.foldlM_append

/-- **The outcome of a checkout does not depend on a solution that the primal holds**: everything
that it reports, the cause for which it is declined, the dual with its tables and the summary. A
cycle changes no more than a solution, so whatever is done to the dual that is out, the checkout
after it comes to the same dual and the same sizes, if the settings are the same. -/
theorem run_recycles :
    (∀ {x : Exchange α} {q : Program α}, q.unsolved = x.primal.unsolved → ∀ elapsed,
      (x.withPrimal q).checkOut elapsed = (·.withPrimal q) <$> x.checkOut elapsed ∧
      (x.withPrimal q).borrow elapsed = (·.ownerWithPrimal q) <$> x.borrow elapsed) ∧
    ∀ {x : Exchange α}, x.state = .checkedIn → x.primal.consistent = true →
    ∀ {before : List (Call α)}, (start x).InRange before →
    ∀ {s : Session α}, (start x).run before = some s →
    ∀ {e₁ : Nat} {t : Session α}, s.step (.checkOut e₁) = some (t, none) →
    ∀ {between : List (Call α)}, t.InRange between → (∀ c ∈ between, c.LeavesProblem) →
    ∃ u, t.run (between ++ [.checkIn]) = some u ∧
      ((∀ c ∈ between, c.KeepsSettings) → u.exchange.settings = t.exchange.settings) ∧
      (u.exchange.settings = t.exchange.settings → ∀ e₂, ∃ w d,
        u.step (.checkOut e₂) = some (w, none) ∧ t.exchange.state = .checkedOut d ∧
        w.exchange.state = .checkedOut d ∧
        w.exchange.summary.sizes = t.exchange.summary.sizes) := by
  refine ⟨fun hq elapsed => ⟨checkOut_withPrimal hq elapsed, borrow_withPrimal hq elapsed⟩, ?_⟩
  intro x hin hp before hbefore s hs e₁ t hout between hrange hleaves
  have hsound : s.exchange.Sound := by
    obtain ⟨s', hs', hsound⟩ :=
      run_sound (.of_checkedIn hin (Program.consistent_iff_wellFormed.mp hp)) hbefore
    rw [hs'] at hs
    cases hs
    exact hsound
  have ht : s.Similar t := (Similar.refl hsound).of_step (c := .checkOut e₁) trivial trivial hout
  obtain ⟨r, hr, hsimilar⟩ := run_preserves Similar.step ht hleaves hrange
  obtain ⟨u, cause, hu, hstate, hkept⟩ := exists_step_checkIn hsimilar.sound
  have hsimilar := hsimilar.of_step (c := .checkIn) trivial trivial hu
  obtain ⟨y, hcall, rfl⟩ := step_eq_some hout
  refine ⟨u, ?_, fun hkeeps => hkept.trans (run_settings ht.sound hrange hkeeps hr),
    fun hsettings e₂ => ?_⟩
  · rw [run_append, hr]
    show (r.run [.checkIn]) = some u
    rw [run, List.foldlM_cons, hu]
    rfl
  · obtain ⟨z, d, hz, hfirst, hsecond, hsizes⟩ := checkOut_again hsound.primal
      hsimilar.sound.primal hsimilar.primal hsettings hstate hcall e₂
    exact ⟨u.after z (.checkOut e₂), d, by rw [step_eq, hz]; rfl, hfirst, hsecond, hsizes⟩

/-- A primal in which a solution is stored, and a cycle in which the dual is solved and built
upon. -/
theorem run_recycles_twoRows :
    let p : Program Rat := { Program.twoRows with
      vars := Program.twoRows.vars.map fun x => { x with reducedCost := 4 }
      constraints := Program.twoRows.constraints.map fun row => { row with multiplier := -1 }
      point := #[1, 1, 4] }
    (Exchange.new p .standard).checkOut 0 =
      (·.withPrimal p) <$> (Exchange.new Program.twoRows .standard).checkOut 0 ∧
    ∃ t u w d, (start (.new Program.twoRows .standard)).step (.checkOut 0) = some (t, none) ∧
      t.run [.changeDual (.edit (.setMultiplier ⟨1⟩ 2)), .changeDual (.edit .addNonnegCone),
        .changeDual (.edit .addConstraint), .checkIn] = some u ∧
      u.step (.checkOut 7) = some (w, none) ∧ t.exchange.state = .checkedOut d ∧
      w.exchange.state = .checkedOut d ∧
      w.exchange.summary.sizes = t.exchange.summary.sizes := by
  intro p
  have h := run_recycles (α := Rat)
  have hp : p.unsolved = Program.twoRows.unsolved := by
    simp only [p, Program.unsolved, Array.map_map, Array.size_map]
    rfl
  refine ⟨(h.1 (x := .new Program.twoRows .standard) hp 0).1, ?_⟩
  obtain ⟨t, hout, hstate⟩ :=
    step_checkOut (s := start (.new Program.twoRows .standard)) twoRows_ready 0
  have hrange : t.InRange [.changeDual (.edit (.setMultiplier ⟨1⟩ 2)),
      .changeDual (.edit .addNonnegCone), .changeDual (.edit .addConstraint)] :=
    ⟨inRange_setMultiplier_twoRows hstate 2, fun _ => ⟨fun _ => trivial, fun _ =>
      ⟨fun _ => trivial, fun _ => trivial⟩⟩⟩
  have hbefore : (start (.new Program.twoRows .standard)).InRange [] := trivial
  obtain ⟨u, hu, hkept, hsecond⟩ := h.2 (x := .new Program.twoRows .standard) rfl (by decide)
    hbefore rfl hout hrange (by simp [Call.LeavesProblem])
  obtain ⟨w, d, hw⟩ := hsecond (hkept (by simp [Call.KeepsSettings])) 7
  exact ⟨t, u, w, d, hout, hu, hw⟩

end Session

end Conic
