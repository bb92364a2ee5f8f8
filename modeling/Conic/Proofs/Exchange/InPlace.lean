import Mathlib.Data.Option.Basic
import Conic.Exchange.Run

/-!
# Calls in place

An exchange is changed in place, write after write, and a call that is declined half way would leave
behind what it had written.

* `InPlace.Follows` — the writes lead where the call leads, and nowhere if it is declined.
* `InPlace.perform_follows` — **no call writes anything before it is declined.**
* `Session.step_eq` — a step is the outcome of a call.
-/

set_option autoImplicit false

namespace Conic

namespace Exchange.InPlace

variable {α : Type}

/-- The writes lead where the call leads. A call that is declined has written nothing; nothing is
said about what is left of one that is out of range. -/
def Follows (m : InPlace α Unit) (x : Exchange α) : Checked Refusal (Exchange α) → Prop
  | .ok x' => m.run x = .ok () x'
  | .error (.refused cause) => m.run x = .error (.refused cause) x
  | .error .outOfRange => ∃ y, m.run x = .error .outOfRange y

/-! ## Parts of a call -/

section

variable {β : Type} (x : Exchange α)

@[simp] theorem run_answer_ok (b : β) : (answer (.ok b)).run x = .ok b x := rfl

@[simp] theorem run_answer_error (fault : Fault Refusal) :
    (answer (.error fault) : InPlace α β).run x = .error fault x := rfl

@[simp] theorem run_ask_ok (b : β) : (ask (.ok b)).run x = .ok b x := rfl

@[simp] theorem run_ask_error (error : Error) :
    (ask (.error error) : InPlace α β).run x = .error (.refused (.exchange error)) x := rfl

end

theorem run_settle (x : Exchange α) (dual : Dual α) : (settle dual).run x =
    match dual.writeBack? x.primal with
    | some primal => .ok () { x with primal, summary := x.summary.afterCheckin }
    | none => .error .outOfRange x := by
  cases h : dual.writeBack? x.primal <;> simp [settle, h]

variable [Scalar α]

/-- A dual is derived before anything is written. -/
theorem run_derive (x : Exchange α) (elapsed : Nat) : (derive elapsed).run x =
    match (x.derive elapsed).result with
    | .ok b => .ok b.dual b.owner
    | .error fault => .error (fault.map .exchange) x := by
  unfold derive Exchange.derive
  cases hsettings : checkSettings x.settings with
  | error error => simp [hsettings]
  | ok _ =>
    cases hcones : x.settings.checkCones <;> cases hkinds : checkCones x.primal <;>
      cases hdual : (x.primal.dual x.settings).result <;> cases hverbose : x.settings.verbose <;>
        simp [-bind_pure_comp, hsettings, hcones, hkinds, hdual, hverbose, Except.mapError,
          Fault.map_map, printSummary]

/-! ## Whole calls -/

variable (x : Exchange α)

theorem checkOut_follows (elapsed : Nat) :
    (perform (.checkOut elapsed)).Follows x (x.call (.checkOut elapsed)) := by
  have hrun := run_derive x elapsed
  simp only [call, Exchange.checkOut, borrow, Traced.result_bind]
  cases hturn : x.verifyCheckedIn with
  | error error => simp [Follows, perform, hturn, Except.mapError]
  | ok _ =>
    cases hderive : (x.derive elapsed).result with
    | error fault =>
      rw [hderive] at hrun
      cases fault <;> simp [Follows, perform, hturn, hrun, Except.mapError]
    | ok b =>
      rw [hderive] at hrun
      simp [Follows, perform, hturn, hrun, Except.mapError]

theorem checkIn_follows : (perform .checkIn).Follows x (x.call .checkIn) := by
  cases hdual : x.dual with
  | error error => simp [Follows, call, perform, Exchange.checkIn, hdual, Except.mapError]
  | ok dual =>
    have hrun := run_settle { x with state := .checkedIn } dual
    cases hprimal : dual.writeBack? x.primal <;>
      simp [Follows, call, perform, Exchange.checkIn, Exchange.settle, hdual, hprimal, hrun,
        Except.mapError]

theorem borrow_follows (elapsed : Nat) (changes : List (Change α)) (returned : Bool) :
    (perform (.borrow elapsed changes returned)).Follows x
      (x.call (.borrow elapsed changes returned)) := by
  have hrun := run_derive x elapsed
  cases hturn : x.verifyCheckedIn with
  | error error => simp [Follows, call, perform, hturn, Except.mapError, borrow]
  | ok _ =>
    cases hderive : (x.derive elapsed).result with
    | error fault =>
      rw [hderive] at hrun
      cases fault <;> simp [Follows, call, perform, hturn, hderive, hrun, Except.mapError, borrow]
    | ok b =>
      rw [hderive] at hrun
      have hborrow : (x.borrow elapsed).result = .ok b := by simp [borrow, hturn, hderive]
      cases hchanges : b.dual.program.changeAll changes with
      | none =>
        simp [Follows, call, perform, hturn, hrun, hborrow, hchanges, Borrowed.edit,
          Except.mapError, Except.map]
      | some program =>
        cases returned with
        | false =>
          have hcall : x.call (.borrow elapsed changes false) = .ok b.owner := by
            simp [call, hborrow, hchanges, Borrowed.edit, Except.mapError, Except.map, pure,
              Except.pure]
          rw [hcall]
          simp [-bind_pure_comp, Follows, perform, hturn, hrun, hchanges]
        | true =>
          have hsettle := run_settle b.owner { b.dual with program }
          cases hprimal : Dual.writeBack? { b.dual with program } b.owner.primal <;>
            simp [Follows, call, perform, hturn, hrun, hborrow, hchanges, hsettle, hprimal,
              Borrowed.edit, Borrowed.checkIn, Exchange.settle, Except.mapError, Except.map]

theorem changePrimal_follows (change : Change α) :
    (perform (.changePrimal change)).Follows x (x.call (.changePrimal change)) := by
  simp only [call, editPrimal, changed]
  cases hturn : x.verifyCheckedIn with
  | error error => simp [Follows, perform, hturn, Except.mapError, Except.map]
  | ok _ =>
    cases hchange : x.primal.change change with
    | error fault =>
      cases fault <;> simp [Follows, perform, hturn, hchange, Except.mapError, Except.map]
    | ok q => simp [Follows, perform, hturn, hchange, Except.mapError, Except.map]

theorem changeDual_follows (change : Change α) :
    (perform (.changeDual change)).Follows x (x.call (.changeDual change)) := by
  simp only [call, editDual, changed]
  cases hdual : x.dual with
  | error error => simp [Follows, perform, hdual, Except.mapError, Except.map]
  | ok dual =>
    cases hchange : dual.program.change change with
    | error fault =>
      cases fault <;> simp [Follows, perform, hdual, hchange, Except.mapError, Except.map]
    | ok q => simp [Follows, perform, hdual, hchange, Except.mapError, Except.map]

/-- **No call writes anything before it is declined.** -/
theorem perform_follows (c : Call α) : (perform c).Follows x (x.call c) := by
  cases c with
  | checkOut elapsed => exact checkOut_follows x elapsed
  | checkIn => exact checkIn_follows x
  | borrow elapsed changes returned => exact borrow_follows x elapsed changes returned
  | changePrimal change => exact changePrimal_follows x change
  | changeDual change => exact changeDual_follows x change
  | configure settings => rfl

end Exchange.InPlace

/-- A step is the outcome of a call: what it leads to, or the exchange as it was. -/
theorem Session.step_eq {α : Type} [Scalar α] (s : Session α) (c : Exchange.Call α) :
    s.step c = Checked.outcome s ((s.exchange.call c).map fun x => s.after x c) := by
  have hfollows := Exchange.InPlace.perform_follows s.exchange c
  unfold step
  cases hcall : s.exchange.call c with
  | ok x =>
    rw [hcall] at hfollows
    rw [show (Exchange.InPlace.perform c).run s.exchange = .ok () x from hfollows]
    rfl
  | error fault =>
    rw [hcall] at hfollows
    cases fault with
    | outOfRange =>
      obtain ⟨y, hy⟩ := hfollows
      rw [hy]
      rfl
    | refused cause =>
      rw [show (Exchange.InPlace.perform c).run s.exchange = .error (.refused cause) s.exchange
        from hfollows]
      rfl

end Conic
