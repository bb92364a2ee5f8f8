import Mathlib.Algebra.GroupWithZero.Nat
import Conic.Proofs.Exchange.Calls

/-!
# The protocol of an exchange

* `Session.Lawful` — what holds of an exchange whenever nothing is under way: it is somebody's turn,
  the primal is frozen while its dual is out, nothing can be read of a dual that is in, and the
  counters add up.
* `Session.Kept` — the invariant behind it, with `Kept.after` for one move.
* `Session.run_lawful` — **every run of an exchange is lawful, however it mixes the calls.**
-/

set_option autoImplicit false

namespace Conic

open Exchange

/-! ## The specification -/

/-- Nothing can be read or changed of a dual. -/
structure Exchange.Closed {α : Type} (x : Exchange α) : Prop where
  dual : x.dual = .error .notCheckedOut
  program : x.dualProgram = .error .notCheckedOut
  edit : ∀ {ε β : Type} (edit : Program α → Except ε (Program α × β)),
    x.editDual edit = .error .notCheckedOut
  constraint : ∀ v, x.constraintOf? v = .error .notCheckedOut
  slack : ∀ v, x.slackVarOf? v = .error .notCheckedOut
  signed : ∀ c, x.signedMultiplier? c = .error .notCheckedOut
  free : ∀ c, x.freeMultiplier? c = .error .notCheckedOut
  multiplier : ∀ c, x.multiplier? c = .error .notCheckedOut

namespace Session

variable {α : Type} [Scalar α]

/-- An exchange and its past agree with the protocol. -/
structure Lawful (s : Session α) : Prop where
  /-- A dual is out or it is not. -/
  turn : Xor (s.exchange.verifyCheckedIn = .ok ()) (s.exchange.verifyCheckedOut = .ok ())
  /-- While a dual is out, the primal is what it was when the dual was checked out. -/
  frozen : ∀ {d : Dual α}, s.exchange.state = .checkedOut d → s.taken = some s.exchange.primal
  refused : ∀ {d : Dual α}, s.exchange.state = .checkedOut d →
    ∀ {ε β : Type} (edit : Program α → Except ε (Program α × β)),
      s.exchange.editPrimal edit = .error .notCheckedIn
  fits : ∀ {d : Dual α}, s.exchange.state = .checkedOut d → d.Fits s.exchange.primal
  closed : s.exchange.state = .checkedIn → s.exchange.Closed
  /-- Every dual that was derived has come back, was dropped, or is still out. -/
  counts : s.derived < 2 ^ 32 → s.exchange.summary.checkouts.toNat =
    s.exchange.summary.checkins.toNat + s.dropped + if s.exchange.state.isCheckedOut then 1 else 0
  /-- A call that is declined leaves the primal, the dual, the settings and the counters alone. -/
  declined : ∀ {c : Call α} {t : Session α} {cause : Refusal},
    s.step c = some (t, some cause) → t.exchange = s.exchange

/-! ## The invariant -/

omit [Scalar α] in
theorem closed_of_checkedIn {x : Exchange α} (hstate : x.state = .checkedIn) : x.Closed := by
  have hdual : x.dual = .error .notCheckedOut := by rw [Exchange.dual, hstate]
  have hread : ∀ {β : Type} (read : Dual α → β), x.readDual read = .error .notCheckedOut := by
    intro β read
    rw [readDual, hdual]
    rfl
  exact {
    dual := hdual
    program := hread _
    edit := fun edit => by
      rw [editDual, hdual]
      rfl
    constraint := fun _ => hread _
    slack := fun _ => hread _
    signed := fun _ => hread _
    free := fun _ => hread _
    multiplier := fun _ => hread _ }

/-- What every call keeps. -/
structure Kept (s : Session α) : Prop where
  sound : s.exchange.Sound
  frozen : ∀ {d : Dual α}, s.exchange.state = .checkedOut d → s.taken = some s.exchange.primal
  counts : s.derived < 2 ^ 32 → s.exchange.summary.checkouts.toNat = s.derived ∧
    s.exchange.summary.checkins.toNat + s.dropped + s.exchange.state.isCheckedOut.toNat = s.derived

variable {s : Session α} {c : Call α} {x : Exchange α}

theorem Kept.lawful (h : s.Kept) : s.Lawful where
  turn := by
    unfold verifyCheckedIn verifyCheckedOut Exchange.dual
    cases s.exchange.state with
    | checkedIn => exact Or.inl ⟨rfl, fun he => by cases he⟩
    | checkedOut d => exact Or.inr ⟨rfl, fun he => by cases he⟩
  frozen := h.frozen
  refused {_} hstate {_ _} edit := by
    unfold editPrimal verifyCheckedIn
    rw [hstate]
    rfl
  fits hstate := (h.sound.dual hstate).2
  closed := closed_of_checkedIn
  counts hlt := by
    obtain ⟨hout, hsum⟩ := h.counts hlt
    rw [hout, ← hsum]
    cases s.exchange.state.isCheckedOut <;> rfl
  declined hstep := congrArg exchange (eq_of_declined hstep)

omit [Scalar α] in
theorem Kept.start {p : Program α} (hp : p.WellFormed) (settings : Settings α) :
    (start (.new p settings)).Kept where
  sound := .of_checkedIn rfl hp
  frozen hd := by cases hd
  counts _ := ⟨rfl, rfl⟩

/-- A frozen primal stays what it was, and a dual that is checked out freezes the present one. -/
theorem Kept.frozen_after (h : s.Kept) (hmoved : s.exchange.Moved c x) {d : Dual α}
    (hstate : x.state = .checkedOut d) : (s.after x c).taken = some x.primal := by
  cases hmoved with
  | checkOut => rfl
  | dual hout => exact h.frozen hout
  | configured => exact h.frozen hstate
  | checkIn => cases hstate
  | dropped hin | returned hin | primal hin =>
    have hstate : s.exchange.state = .checkedOut d := hstate
    rw [hin] at hstate
    cases hstate

/-- Each move changes the two counters and the two records of the past by the same amounts. -/
theorem Kept.counts_after (h : s.Kept) (hmoved : s.exchange.Moved c x)
    (hlt : (s.after x c).derived < 2 ^ 32) :
    x.summary.checkouts.toNat = (s.after x c).derived ∧
      x.summary.checkins.toNat + (s.after x c).dropped + x.state.isCheckedOut.toNat =
        (s.after x c).derived := by
  have hcounts := h.counts
  cases hmoved with
  | checkOut hin | dropped hin | returned hin =>
    rw [hin] at hcounts
    simp only [after] at hlt
    obtain ⟨hout, hsum⟩ := hcounts (by omega)
    simp only [State.isCheckedOut, Bool.toNat_false] at hsum
    simp [after, counted, Summary.afterCheckout, Summary.afterCheckin, State.isCheckedOut, hin,
      UInt32.toNat_add]
    omega
  | checkIn hout =>
    rw [hout] at hcounts
    obtain ⟨hcheckouts, hsum⟩ := hcounts hlt
    simp only [State.isCheckedOut, Bool.toNat_true] at hsum
    simp only [after] at hlt
    simp [after, Summary.afterCheckin, State.isCheckedOut, UInt32.toNat_add]
    omega
  | primal | configured => exact hcounts hlt
  | dual hout =>
    rw [hout] at hcounts
    exact hcounts hlt

/-- **A move keeps the invariant.** -/
theorem Kept.after (h : s.Kept) (hrange : c.InRange s.exchange) (hmoved : s.exchange.Moved c x) :
    (s.after x c).Kept := by
  refine ⟨?_, ?_, ?_⟩ <;> rw [exchange_after]
  · exact hmoved.sound h.sound hrange
  · exact h.frozen_after hmoved
  · exact h.counts_after hmoved

theorem Kept.step (h : s.Kept) (hrange : c.InRange s.exchange) :
    ∃ t cause, s.step c = some (t, cause) ∧ t.Kept := by
  rcases step_moved h.sound hrange with ⟨cause, hstep⟩ | ⟨x, hstep, hmoved⟩
  · exact ⟨s, some cause, hstep, h⟩
  · exact ⟨s.after x c, none, hstep, h.after hrange hmoved⟩

/-! ## Runs -/

/-- **Every run is lawful, however it mixes the calls**, and it comes to an end. -/
theorem run_lawful {p : Program α} {settings : Settings α} {calls : List (Call α)}
    (hstart : x = .new p settings ∧ p.consistent = true ∨ tryNew p settings = .ok x)
    (hrange : (start x).InRange calls) : ∃ t, (start x).run calls = some t ∧ t.Lawful := by
  obtain ⟨rfl, hp⟩ : x = .new p settings ∧ p.consistent = true := hstart.elim id fun hx =>
    have hnew := tryNew_eq_ok_iff.mp hx
    ⟨hnew.1, hnew.2.2.1⟩
  have hkept : (start (.new p settings)).Kept :=
    .start (Program.consistent_iff_wellFormed.mp hp) settings
  obtain ⟨t, hrun, ht⟩ := run_preserves (Q := fun _ => True)
    (fun hs _ hc => Kept.step hs hc) hkept (fun _ _ => trivial) hrange
  exact ⟨t, hrun, ht.lawful⟩

/-- A cycle, a borrowed dual that is dropped, and changes of all kinds before and in between; that of
the primal while its dual is out is declined. -/
theorem run_lawful_twoRows : ∃ t,
    (start (.new Program.twoRows .standard)).run
      [.changePrimal (.edit (.addTerm ⟨1⟩ ⟨1⟩ 3)), .checkOut 0,
        .changePrimal (.edit .addConstraint), .changeDual (.edit .addNonnegCone),
        .configure { Settings.standard with slackChoice := .last }, .checkIn,
        .borrow 0 [.edit .addConstraint] false, .changePrimal (.edit .addNonnegCone)] = some t ∧
      t.Lawful :=
  run_lawful (Or.inl ⟨rfl, by decide⟩)
    ⟨fun _ => ⟨by decide, by decide⟩, fun _ => ⟨trivial, fun _ => ⟨fun _ => trivial, fun _ =>
      ⟨fun _ => trivial, fun _ => ⟨trivial, fun _ => ⟨trivial, fun _ =>
        ⟨fun _ => ⟨trivial, fun _ => trivial⟩, fun _ =>
          ⟨fun _ => trivial, fun _ => trivial⟩⟩⟩⟩⟩⟩⟩⟩

end Session

end Conic
