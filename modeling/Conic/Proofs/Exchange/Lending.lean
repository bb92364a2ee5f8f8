import Conic.Exchange.Scope
import Conic.Proofs.Exchange.Calls

/-!
# A dual in the hands of a borrower

* `Exchange.lendable`, `Exchange.booked` — which dual is borrowed and what is left of it in the
  exchange, with `Exchange.borrow_result`; only the second depends on the time that it takes.
* `Cycle.run_change`, `Cycle.run_return`, `Cycle.run_lend` — what a borrower does.
* `Cycle.run_changesLent` — **a borrower's changes lead where changes of a program lead.**
* `Cycle.outcome_borrowed` — a cycle with a borrowed dual leads where the call `borrow` leads.
-/

set_option autoImplicit false

namespace Conic

variable {α : Type}

namespace Exchange

/-! ## What is borrowed -/

/-- The exchange after a dual was derived: the dual is counted, and the summary is printed if that
is asked for. -/
def booked (x : Exchange α) (d : Dual α) (elapsed : Nat) : Exchange α :=
  x.counted d elapsed <|
    if x.settings.verbose then
      (x.target.print ((x.summary.afterCheckout d elapsed).lines x.primal)).target
    else x.target

@[simp] theorem primal_booked (x : Exchange α) (d : Dual α) (elapsed : Nat) :
    (x.booked d elapsed).primal = x.primal := rfl

@[simp] theorem state_booked (x : Exchange α) (d : Dual α) (elapsed : Nat) :
    (x.booked d elapsed).state = x.state := rfl

variable [Scalar α]

/-- The dual that is borrowed, or why there is none. -/
def lendable (x : Exchange α) : Checked Error (Dual α) := do
  Checked.accepted x.verifyCheckedIn
  Checked.accepted (checkSettings x.settings)
  if x.settings.checkCones then
    Checked.accepted (checkCones x.primal)
  (x.primal.dual x.settings).result.mapError (Fault.map .program)

variable {x : Exchange α} {d : Dual α}

theorem state_of_lendable (hd : x.lendable = .ok d) : x.state = .checkedIn := by
  cases hstate : x.state with
  | checkedIn => rfl
  | checkedOut d => simp [lendable, verifyCheckedIn, hstate] at hd

/-- Whether a dual can be borrowed, and which one, does not depend on how long it takes. -/
theorem borrow_result (x : Exchange α) (elapsed : Nat) :
    (x.borrow elapsed).result = x.lendable.map fun d => ⟨d, x.booked d elapsed⟩ := by
  unfold borrow derive lendable
  cases x.verifyCheckedIn with
  | error error => rfl
  | ok _ =>
    cases checkSettings x.settings with
    | error error => rfl
    | ok _ =>
      cases x.settings.checkCones <;> cases checkCones x.primal <;>
        cases hdual : (x.primal.dual x.settings).result <;>
          cases hverbose : x.settings.verbose <;>
            simp [hdual, hverbose, Except.mapError, Except.map, printSummary, booked,
              counted]

theorem borrow_of_lendable (hd : x.lendable = .ok d) (elapsed : Nat) :
    (x.borrow elapsed).result = .ok ⟨d, x.booked d elapsed⟩ := by
  rw [borrow_result, hd]
  rfl

end Exchange

namespace Cycle

open Exchange Exchange.InPlace

/-! ## Steps -/

section

variable {σ β : Type}

theorem run_tryCatch (m : EStateM (Fault Refusal) σ β)
    (handle : Fault Refusal → EStateM (Fault Refusal) σ β) (s : σ) : (tryCatch m handle).run s =
      match m.run s with
      | .ok b s => .ok b s
      | .error fault s => (handle fault).run s := by
  show EStateM.tryCatch m handle s = _
  unfold EStateM.tryCatch EStateM.run
  cases m s <;> rfl

theorem run_cause? (m : EStateM (Fault Refusal) σ Unit) (s : σ) : (cause? m).run s =
    match m.run s with
    | .ok _ s => .ok none s
    | .error (.refused cause) s => .ok (some cause) s
    | .error .outOfRange s => .error .outOfRange s := by
  rw [cause?, run_tryCatch, EStateM.run_bind]
  cases m.run s with
  | ok _ s => rfl
  | error fault s => cases fault <;> rfl

theorem run_watched (view : σ → View α) (change : Change α → EStateM (Fault Refusal) σ Unit)
    (changes : List (Change α)) (s : σ) : (watched view change changes).run s =
      (Seen.mk (view s) <$> changes.mapM (watchedChange view change)).run s := by
  rw [map_eq_pure_bind]
  rfl

end

/-- Returning a borrowed dual. -/
theorem run_return (b : Borrowed α) : Borrowed.InPlace.checkIn.run b =
    match b.dual.writeBack? b.owner.primal with
    | some primal =>
      .ok () { b with owner := { b.owner with primal, summary := b.owner.summary.afterCheckin } }
    | none => .error .outOfRange b := by
  cases hprimal : b.dual.writeBack? b.owner.primal <;> simp [Borrowed.InPlace.checkIn, hprimal]

theorem run_lend {β : Type} (d : Dual α) (m : Borrowed.InPlace α β) (owner : Exchange α) :
    (lend d m).run owner = match m.run ⟨d, owner⟩ with
      | .ok b s => .ok b s.owner
      | .error fault s => .error fault s.owner := rfl

variable [Scalar α] {x : Exchange α} {d : Dual α}

theorem run_change (b : Borrowed α) (c : Change α) : (Borrowed.InPlace.change c).run b =
    match b.dual.program.change c with
    | .ok program => .ok () { b with dual := { b.dual with program } }
    | .error fault => .error (fault.map .program) b := by
  cases hchange : b.dual.program.change c <;> simp [Borrowed.InPlace.change, hchange]

/-- A change and what is read after it. -/
theorem run_watchedChange (b : Borrowed α) (c : Change α) :
    (watchedChange Borrowed.view Borrowed.InPlace.change c).run b =
      match (b.dual.program.change c).outcome b.dual.program with
      | some (program, cause) =>
        let b : Borrowed α := { b with dual := { b.dual with program } }
        .ok (cause.map .program, b.view) b
      | none => .error .outOfRange b := by
  rw [watchedChange, EStateM.run_bind, run_cause?, run_change]
  cases b.dual.program.change c with
  | ok program => rfl
  | error fault => cases fault <;> rfl

/-! ## Changes one after the other -/

theorem run_mapM_watchedChange (b : Borrowed α) (changes : List (Change α)) :
    match b.dual.program.changeAll changes with
    | some program =>
      ∃ later, (changes.mapM (watchedChange Borrowed.view Borrowed.InPlace.change)).run b =
        .ok later { b with dual := { b.dual with program } }
    | none =>
      ∃ b', (changes.mapM (watchedChange Borrowed.view Borrowed.InPlace.change)).run b =
        .error .outOfRange b' := by
  induction changes generalizing b with
  | nil => exact ⟨[], rfl⟩
  | cons c changes ih =>
    rw [Program.changeAll_cons, List.mapM_cons, EStateM.run_bind, run_watchedChange]
    cases (b.dual.program.change c).outcome b.dual.program with
    | none => exact ⟨b, rfl⟩
    | some next =>
      obtain ⟨program, cause⟩ := next
      have hrest := ih { b with dual := { b.dual with program } }
      simp only [Option.bind_some, EStateM.run_bind]
      cases hprogram : program.changeAll changes with
      | none =>
        rw [hprogram] at hrest
        obtain ⟨b', hb'⟩ := hrest
        exact ⟨b', by rw [hb']⟩
      | some q =>
        rw [hprogram] at hrest
        obtain ⟨later, hlater⟩ := hrest
        exact ⟨_, by rw [hlater]; rfl⟩

/-- **A borrower's changes lead where changes of a program lead.** They are never declined as a
whole. -/
theorem run_changesLent (b : Borrowed α) (changes : List (Change α)) :
    match b.dual.program.changeAll changes with
    | some program =>
      ∃ later, (changesLent changes).run b =
        .ok ⟨b.view, later⟩ { b with dual := { b.dual with program } }
    | none => ∃ b', (changesLent changes).run b = .error .outOfRange b' := by
  have hlater := run_mapM_watchedChange b changes
  rw [changesLent, run_watched, map_eq_pure_bind, EStateM.run_bind]
  cases hprogram : b.dual.program.changeAll changes with
  | none =>
    rw [hprogram] at hlater
    obtain ⟨b', hb'⟩ := hlater
    exact ⟨b', by rw [hb']⟩
  | some program =>
    rw [hprogram] at hlater
    obtain ⟨later, hlater⟩ := hlater
    exact ⟨later, by rw [hlater]; rfl⟩

/-! ## Whole cycles -/

/-- Borrowing, without what the borrower does. -/
theorem run_borrowing (x : Exchange α) (elapsed : Nat) :
    (do ask (← get).verifyCheckedIn; derive elapsed : Exchange.InPlace α (Dual α)).run x =
      match x.lendable with
      | .ok d => .ok d (x.booked d elapsed)
      | .error fault => .error (fault.map .exchange) x := by
  cases hturn : x.verifyCheckedIn with
  | error error => simp [lendable, hturn]
  | ok _ =>
    have hderive : (x.derive elapsed).result = x.lendable.map fun d => ⟨d, x.booked d elapsed⟩ := by
      rw [← borrow_result]
      simp [borrow, hturn]
    simp only [EStateM.run_bind, EStateM.run_get, hturn, run_ask_ok, run_derive, hderive]
    cases x.lendable <;> rfl

theorem run_borrowed (x : Exchange α) (elapsed : Nat) (changes : List (Change α))
    (returned : Bool) : (borrowed elapsed changes returned).run x =
      match x.lendable with
      | .ok d =>
        (lend d do
          let seen ← changesLent changes
          if returned then
            Borrowed.InPlace.checkIn
          return seen).run (x.booked d elapsed)
      | .error fault => .error (fault.map .exchange) x := by
  have hborrowed : borrowed elapsed changes returned =
      (do ask (← get).verifyCheckedIn; derive elapsed : Exchange.InPlace α (Dual α)) >>= fun dual =>
        lend dual do
          let seen ← changesLent changes
          if returned then
            Borrowed.InPlace.checkIn
          return seen := by
    simp only [borrowed, bind_assoc]
  rw [hborrowed, EStateM.run_bind, run_borrowing]
  cases x.lendable <;> rfl

theorem run_borrowed_of_outOfRange (hd : x.lendable = .ok d) (elapsed : Nat)
    {changes : List (Change α)} (hnone : d.program.changeAll changes = none) (returned : Bool) :
    ∃ y, (borrowed elapsed changes returned).run x = .error .outOfRange y := by
  have hlent := run_changesLent ⟨d, x.booked d elapsed⟩ changes
  rw [hnone] at hlent
  obtain ⟨b, hb⟩ := hlent
  rw [run_borrowed, hd]
  exact ⟨b.owner, by simp only [run_lend, EStateM.run_bind, hb]⟩

/-- Once the changes are made, the dual is returned or it is gone. -/
theorem run_borrowed_of_changed (hd : x.lendable = .ok d) (elapsed : Nat)
    {changes : List (Change α)} {program : Program α}
    (hprogram : d.program.changeAll changes = some program) :
    ∃ later, ∀ returned, (borrowed elapsed changes returned).run x =
      (lend { d with program } do
        if returned then
          Borrowed.InPlace.checkIn
        return ⟨Borrowed.view ⟨d, x.booked d elapsed⟩, later⟩).run (x.booked d elapsed) := by
  have hlent := run_changesLent ⟨d, x.booked d elapsed⟩ changes
  rw [hprogram] at hlent
  obtain ⟨later, hlent⟩ := hlent
  refine ⟨later, fun returned => ?_⟩
  rw [run_borrowed, hd]
  simp only [run_lend, EStateM.run_bind, hlent]

/-- **A cycle with a borrowed dual leads where the call `borrow` leads.** -/
theorem outcome_borrowed (x : Exchange α) (elapsed : Nat) (changes : List (Change α))
    (returned : Bool) : (outcome (borrowed elapsed changes returned) x).map Prod.snd =
      ((x.call (.borrow elapsed changes returned)).outcome x).map Prod.fst := by
  cases hd : x.lendable with
  | error fault =>
    have hcall : x.call (.borrow elapsed changes returned) = .error (fault.map .exchange) := by
      simp [call, borrow_result, hd, Except.map, Except.mapError]
    rw [outcome, run_borrowed, hd, hcall]
    cases fault <;> rfl
  | ok d =>
    have hborrow := borrow_of_lendable hd elapsed
    cases hprogram : d.program.changeAll changes with
    | none =>
      obtain ⟨y, hy⟩ := run_borrowed_of_outOfRange hd elapsed hprogram returned
      have hcall : x.call (.borrow elapsed changes returned) = .error .outOfRange := by
        simp [call, hborrow, hprogram, Borrowed.edit, Except.map, Except.mapError]
      rw [outcome, hy, hcall]
      rfl
    | some program =>
      obtain ⟨later, hrun⟩ := run_borrowed_of_changed hd elapsed hprogram
      rw [outcome, hrun, call_borrow_of_borrowed hborrow hprogram, run_lend]
      cases returned with
      | false => rfl
      | true =>
        simp only [if_true, EStateM.run_bind, run_return, Borrowed.checkIn, Exchange.settle]
        cases Dual.writeBack? { d with program } (x.booked d elapsed).primal <;> rfl

/-- **Everything that a cycle with a borrowed dual can come to**: it is declined, it is out of range,
or the dual is out, and then it is let go or returned. -/
theorem borrowed_cases (x : Exchange α) (elapsed : Nat) (changes : List (Change α)) :
    (∃ cause, ∀ returned,
      outcome (borrowed elapsed changes returned) x = some (.error cause, x)) ∨
    (∀ returned, outcome (borrowed elapsed changes returned) x = none) ∨
    ∃ d later, x.lendable = .ok d ∧
      outcome (borrowed elapsed changes false) x =
        some (.ok ⟨Borrowed.view ⟨d, x.booked d elapsed⟩, later⟩, x.booked d elapsed) ∧
      (outcome (borrowed elapsed changes true) x = none ∨
        ∃ y, outcome (borrowed elapsed changes true) x =
          some (.ok ⟨Borrowed.view ⟨d, x.booked d elapsed⟩, later⟩, y)) := by
  simp only [outcome]
  cases hd : x.lendable with
  | error fault =>
    have hrun : ∀ returned, (borrowed elapsed changes returned).run x =
        .error (fault.map .exchange) x := by
      intro returned
      rw [run_borrowed, hd]
    cases fault with
    | refused cause => exact Or.inl ⟨.exchange cause, fun returned => by rw [hrun]; rfl⟩
    | outOfRange => exact Or.inr (Or.inl fun returned => by rw [hrun]; rfl)
  | ok d =>
    cases hprogram : d.program.changeAll changes with
    | none =>
      refine Or.inr (Or.inl fun returned => ?_)
      obtain ⟨y, hy⟩ := run_borrowed_of_outOfRange hd elapsed hprogram returned
      rw [hy]
    | some program =>
      obtain ⟨later, hrun⟩ := run_borrowed_of_changed hd elapsed hprogram
      refine Or.inr (Or.inr ⟨d, later, rfl, by rw [hrun]; rfl, ?_⟩)
      rw [hrun]
      simp only [if_true, run_lend, EStateM.run_bind, run_return]
      cases Dual.writeBack? { d with program } (x.booked d elapsed).primal with
      | none => exact Or.inl rfl
      | some primal => exact Or.inr ⟨_, rfl⟩

end Cycle

end Conic
