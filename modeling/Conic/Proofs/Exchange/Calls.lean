import Mathlib.Algebra.GroupWithZero.Nat
import Conic.Proofs.Dual.Consistent
import Conic.Proofs.Dual.Tables
import Conic.Proofs.Dual.WriteBack
import Conic.Proofs.Exchange.InPlace
import Conic.Proofs.Program.Changing

/-!
# What a call does to an exchange

* `Dual.Fits` — the tables of a dual have the sizes of the primal and name handles that exist.
* `Exchange.Sound` — the primal is well-formed, and so is a dual that is out, which fits it.
* `Exchange.Moved` — **everything that a call can come to**, with `Exchange.call_moved`.
* `Moved.sound` — calls keep an exchange sound.
* `Session.InRange`, `Session.run_preserves` — whole runs.
-/

set_option autoImplicit false

namespace Conic

/-! ## Tables that fit -/

/-- The tables of a dual have one entry for each variable or constraint of the primal, and every
handle in them exists in the dual program. -/
structure Dual.Fits {α : Type} (d : Dual α) (p : Program α) : Prop where
  rows_size : d.reducedCostRows.size = p.vars.size
  slacks_size : d.slackMultipliers.size = p.vars.size
  signed_size : d.signedMultipliers.size = p.constraints.size
  free_size : d.freeMultipliers.size = p.constraints.size
  row : ∀ {r : ConstraintId}, some r ∈ d.reducedCostRows → r.index < d.program.constraints.size
  slack : ∀ {y : VarId}, some y ∈ d.slackMultipliers → y.index < d.program.vars.size
  signed : ∀ {y : VarId}, some y ∈ d.signedMultipliers → y.index < d.program.vars.size
  free : ∀ {f : FreeMultiplier}, some f ∈ d.freeMultipliers →
    f.cone.index < d.program.cones.size ∧ f.apex.index < d.program.vars.size

namespace Dual

variable {α : Type} {d : Dual α} {p q : Program α}

/-- The dual program may grow. -/
theorem Fits.grown (h : d.Fits p) (hwithin : d.program.Within q) :
    Dual.Fits { d with program := q } p where
  rows_size := h.rows_size
  slacks_size := h.slacks_size
  signed_size := h.signed_size
  free_size := h.free_size
  row hr := Nat.lt_of_lt_of_le (h.row hr) hwithin.constraints
  slack hy := Nat.lt_of_lt_of_le (h.slack hy) hwithin.vars
  signed hy := Nat.lt_of_lt_of_le (h.signed hy) hwithin.vars
  free hf := ⟨Nat.lt_of_lt_of_le (h.free hf).1 hwithin.cones,
    Nat.lt_of_lt_of_le (h.free hf).2 hwithin.vars⟩

theorem mem_of_join_eq_some {ι : Type} {table : Array (Option ι)} {e : ι} {i : Nat}
    (he : table[i]?.join = some e) : some e ∈ table :=
  Array.mem_of_getElem? (Option.join_eq_some_iff.mp he)

/-- A dual that fits can be written back. -/
theorem Fits.resolves (h : d.Fits p) (hpoint : p.point.size = p.vars.size) : d.Resolves p where
  rows_size := Nat.le_of_eq (h.rows_size.trans hpoint.symm)
  slacks_size := Nat.le_of_eq (h.slacks_size.trans hpoint.symm)
  row hr := ⟨_, Array.getElem?_eq_getElem (h.row (mem_of_join_eq_some hr))⟩
  var hy := ⟨_, Array.getElem?_eq_getElem (h.slack (mem_of_join_eq_some hy))⟩

/-- Writing a solution back keeps the records of the primal. -/
theorem exists_writeBack? (h : d.Fits p) (hpoint : p.point.size = p.vars.size) :
    ∃ q, d.writeBack? p = some q ∧ q.records = p.records :=
  ⟨_, writeBack?_eq (h.resolves hpoint), by simp [Program.records, Program.withCoordinates]⟩

end Dual

namespace Program

variable {α : Type} [Scalar α] {p : Program α}

/-- **A derived dual fits its primal.** -/
theorem WellFormed.derivedDual_fits (h : p.WellFormed) (settings : Settings α) :
    (p.derivedDual settings).Fits p where
  rows_size := by simp [Program.derivedDual, rescaledDual, dualOn, rowTable]
  slacks_size := by simp [Program.derivedDual, rescaledDual, dualOn, slackTable]
  signed_size := by simp [Program.derivedDual, rescaledDual, dualOn, signedTable]
  free_size := by simp [Program.derivedDual, rescaledDual, dualOn, freeTable]
  row hr := by
    obtain ⟨i, hi⟩ := Dual.exists_entry hr
    obtain ⟨hv, rfl⟩ := (constraintOf?_derivedDual_eq_some_iff (v := ⟨i⟩) h).mp hi
    exact index_of_mem_constraintIds (dualRow_mem_constraintIds hv)
  slack hy := by
    obtain ⟨i, hi⟩ := Dual.exists_entry hy
    obtain ⟨c, hc, rfl⟩ := (slackVarOf?_derivedDual_eq_some_iff (v := ⟨i⟩) h).mp hi
    exact index_of_mem_varIds
      (mem_varIds_iff.mpr ⟨_, derivedDual_var?_multiplier (mem_constraintIds_of_slackOf hc)⟩)
  signed hy := by
    obtain ⟨i, hi⟩ := Dual.exists_entry hy
    obtain ⟨hslack, rfl⟩ := (signedMultiplier?_derivedDual_eq_some_iff (c := ⟨i⟩)).mp hi
    obtain ⟨v, hv⟩ := Option.isSome_iff_exists.mp hslack
    exact index_of_mem_varIds
      (mem_varIds_iff.mpr ⟨_, derivedDual_var?_multiplier (mem_constraintIds_of_slackOf hv)⟩)
  free hf := by
    obtain ⟨i, hi⟩ := Dual.exists_entry hf
    obtain ⟨hc, _, rfl⟩ := (freeMultiplier?_derivedDual_eq_some_iff (c := ⟨i⟩)).mp hi
    exact ⟨(Array.getElem?_eq_some_iff.mp (derivedDual_cone?_multiplier hc)).1,
      index_of_mem_varIds (mem_varIds_iff.mpr ⟨_, derivedDual_var?_multiplier hc⟩)⟩

end Program

namespace Exchange

variable {α : Type} [Scalar α] {x x' : Exchange α} {c : Call α}

/-- The primal is well-formed, and a dual that is checked out is well-formed and fits it. -/
structure Sound (x : Exchange α) : Prop where
  primal : x.primal.WellFormed
  dual : ∀ {d : Dual α}, x.state = .checkedOut d → d.program.WellFormed ∧ d.Fits x.primal

omit [Scalar α] in
/-- A checked-in exchange with a well-formed primal. -/
theorem Sound.of_checkedIn (hstate : x.state = .checkedIn) (hprimal : x.primal.WellFormed) :
    x.Sound :=
  ⟨hprimal, fun hd => by rw [hstate] at hd; cases hd⟩

/-! ## Calls -/

/-- The handles that a call uses exist. -/
def Call.InRange (x : Exchange α) : Call α → Prop
  | .checkOut _ => True
  | .checkIn => True
  | .borrow elapsed changes _ =>
    ∀ {b : Borrowed α}, (x.borrow elapsed).result = .ok b → b.dual.program.Admits changes
  | .changePrimal change => x.state = .checkedIn → change.InRange x.primal
  | .changeDual change =>
    ∀ {d : Dual α}, x.state = .checkedOut d → change.InRange d.program
  | .configure _ => True

/-- What a call that is not declined comes to. -/
inductive Moved (x : Exchange α) : Call α → Exchange α → Prop
  | checkOut {elapsed : Nat} {target : Target} (hstate : x.state = .checkedIn) :
      Moved x (.checkOut elapsed)
        { x.counted (x.primal.derivedDual x.settings) elapsed target with
          state := .checkedOut (x.primal.derivedDual x.settings) }
  | checkIn {d : Dual α} {q : Program α} (hstate : x.state = .checkedOut d)
      (hrec : q.records = x.primal.records) :
      Moved x .checkIn
        { x with state := .checkedIn, primal := q, summary := x.summary.afterCheckin }
  | dropped {elapsed : Nat} {changes : List (Change α)} {target : Target}
      (hstate : x.state = .checkedIn) :
      Moved x (.borrow elapsed changes false)
        (x.counted (x.primal.derivedDual x.settings) elapsed target)
  | returned {elapsed : Nat} {changes : List (Change α)} {target : Target} {q : Program α}
      (hstate : x.state = .checkedIn) (hrec : q.records = x.primal.records) :
      Moved x (.borrow elapsed changes true)
        { x.counted (x.primal.derivedDual x.settings) elapsed target with
          primal := q
          summary :=
            (x.summary.afterCheckout (x.primal.derivedDual x.settings) elapsed).afterCheckin }
  | primal {change : Change α} {q : Program α} (hstate : x.state = .checkedIn)
      (hq : x.primal.change change = .ok q) :
      Moved x (.changePrimal change) { x with primal := q }
  | dual {change : Change α} {d : Dual α} {q : Program α} (hstate : x.state = .checkedOut d)
      (hq : d.program.change change = .ok q) :
      Moved x (.changeDual change) { x with state := .checkedOut { d with program := q } }
  | configured {settings : Settings α} : Moved x (.configure settings) { x with settings }

theorem checkOut_moved (h : x.Sound) (elapsed : Nat) :
    (∃ cause, x.call (.checkOut elapsed) = .error (.refused cause)) ∨
      ∃ x', x.call (.checkOut elapsed) = .ok x' ∧ x.Moved (.checkOut elapsed) x' := by
  simp only [call, checkOut_eq]
  cases hstate : x.state with
  | checkedOut d =>
    rw [borrow_of_checkedOut hstate]
    exact Or.inl ⟨_, rfl⟩
  | checkedIn =>
    rw [borrow_of_checkedIn hstate]
    cases hrefusal : x.refusal? with
    | some error =>
      rw [derive_of_refusal hrefusal]
      exact Or.inl ⟨_, rfl⟩
    | none =>
      obtain ⟨target, hresult⟩ := derive_of_accepted h.primal hrefusal elapsed
      rw [hresult]
      exact Or.inr ⟨_, rfl, .checkOut hstate⟩

/-- A checkout that there is no cause to refuse. -/
theorem call_checkOut (h : x.primal.WellFormed) (hstate : x.state = .checkedIn)
    (hnone : x.refusal? = none) (elapsed : Nat) :
    ∃ target, x.call (.checkOut elapsed) =
      .ok { x.counted (x.primal.derivedDual x.settings) elapsed target with
        state := .checkedOut (x.primal.derivedDual x.settings) } := by
  obtain ⟨target, hresult⟩ := derive_of_accepted h hnone elapsed
  refine ⟨target, ?_⟩
  rw [call, checkOut_eq, borrow_of_checkedIn hstate, hresult]
  rfl

/-- There was no cause to refuse a checkout that has succeeded. -/
theorem refusal?_of_checkOut {elapsed : Nat} (hx : x.call (.checkOut elapsed) = .ok x') :
    x.state = .checkedIn ∧ x.refusal? = none := by
  rw [call, Program.mapError_eq_ok, checkOut_eq, Program.map_eq_ok] at hx
  obtain ⟨b, hb, _⟩ := hx
  cases hstate : x.state with
  | checkedOut d =>
    rw [borrow_of_checkedOut hstate] at hb
    cases hb
  | checkedIn =>
    rw [borrow_of_checkedIn hstate] at hb
    cases hrefusal : x.refusal? with
    | none => exact ⟨rfl, rfl⟩
    | some error =>
      rw [derive_of_refusal hrefusal] at hb
      cases hb

theorem checkIn_moved (h : x.Sound) : (∃ cause, x.call .checkIn = .error (.refused cause)) ∨
    ∃ x', x.call .checkIn = .ok x' ∧ x.Moved .checkIn x' := by
  cases hstate : x.state with
  | checkedIn =>
    have hdual : x.dual = .error .notCheckedOut := by rw [Exchange.dual, hstate]
    exact Or.inl ⟨_, by simp [call, Exchange.checkIn, hdual]; rfl⟩
  | checkedOut d =>
    have hdual : x.dual = .ok d := by rw [Exchange.dual, hstate]
    obtain ⟨q, hq, hrec⟩ := Dual.exists_writeBack? (h.dual hstate).2 h.primal.point_size
    refine Or.inr ⟨_, ?_, .checkIn hstate hrec⟩
    simp [call, Exchange.checkIn, settle, hdual, hq]
    rfl

/-- A borrowed dual, changed, and returned or let go. -/
theorem call_borrow_of_borrowed {elapsed : Nat} {changes : List (Change α)} {b : Borrowed α}
    {program : Program α} (hb : (x.borrow elapsed).result = .ok b)
    (hprogram : b.dual.program.changeAll changes = some program) (returned : Bool) :
    x.call (.borrow elapsed changes returned) =
      if returned then
        (Borrowed.checkIn { b with dual := { b.dual with program } }).result.mapError
          (Fault.map .exchange)
      else .ok b.owner := by
  simp only [call, hb, Except.mapError, Checked.ok_bind, Borrowed.edit, hprogram,
    Checked.found_some, Except.map]
  rfl

theorem borrow_moved (h : x.Sound) {elapsed : Nat} {changes : List (Change α)} (returned : Bool)
    (hrange : (Call.borrow elapsed changes returned).InRange x) :
    (∃ cause, x.call (.borrow elapsed changes returned) = .error (.refused cause)) ∨
      ∃ x', x.call (.borrow elapsed changes returned) = .ok x' ∧
        x.Moved (.borrow elapsed changes returned) x' := by
  cases hstate : x.state with
  | checkedOut d =>
    simp only [call, borrow_of_checkedOut hstate]
    exact Or.inl ⟨_, rfl⟩
  | checkedIn =>
    have hborrow := borrow_of_checkedIn hstate elapsed
    cases hrefusal : x.refusal? with
    | some error =>
      rw [derive_of_refusal hrefusal] at hborrow
      simp only [call, hborrow]
      exact Or.inl ⟨_, rfl⟩
    | none =>
      obtain ⟨target, hresult⟩ := derive_of_accepted h.primal hrefusal elapsed
      rw [hresult] at hborrow
      obtain ⟨program, hprogram, _, hwithin⟩ :=
        (h.primal.derivedDual x.settings).changeAll (hrange hborrow)
      have hfits := (h.primal.derivedDual_fits x.settings).grown hwithin
      have hcall := call_borrow_of_borrowed hborrow hprogram returned
      cases returned with
      | false => exact Or.inr ⟨_, hcall, .dropped hstate⟩
      | true =>
        obtain ⟨q, hq, hrec⟩ := Dual.exists_writeBack? hfits h.primal.point_size
        have hmoved := @Moved.returned _ _ x elapsed changes target q hstate hrec
        refine Or.inr ⟨_, hcall.trans ?_, hmoved⟩
        simp [Borrowed.checkIn, settle, counted, hq]
        rfl

theorem changePrimal_moved (h : x.Sound) {change : Change α}
    (hrange : (Call.changePrimal change).InRange x) :
    (∃ cause, x.call (.changePrimal change) = .error (.refused cause)) ∨
      ∃ x', x.call (.changePrimal change) = .ok x' ∧ x.Moved (.changePrimal change) x' := by
  cases hstate : x.state with
  | checkedOut d =>
    refine Or.inl ⟨.exchange .notCheckedIn, ?_⟩
    simp [call, editPrimal, verifyCheckedIn, hstate, changed, Except.map, Except.mapError]
  | checkedIn =>
    have hturn : x.verifyCheckedIn = .ok () := by rw [verifyCheckedIn, hstate]
    rcases h.primal.change (hrange hstate) with ⟨cause, hresult⟩ | ⟨q, hresult, _⟩
    · refine Or.inl ⟨.program cause, ?_⟩
      simp only [call, editPrimal, hturn, hresult, changed, Except.map, Except.mapError,
        Checked.accepted_ok, Checked.ok_bind, Fault.map]
    · refine Or.inr ⟨_, ?_, .primal hstate hresult⟩
      simp only [call, editPrimal, hturn, hresult, changed, Except.map, Except.mapError,
        Checked.accepted_ok, Checked.ok_bind]

theorem changeDual_moved (h : x.Sound) {change : Change α}
    (hrange : (Call.changeDual change).InRange x) :
    (∃ cause, x.call (.changeDual change) = .error (.refused cause)) ∨
      ∃ x', x.call (.changeDual change) = .ok x' ∧ x.Moved (.changeDual change) x' := by
  cases hstate : x.state with
  | checkedIn =>
    refine Or.inl ⟨.exchange .notCheckedOut, ?_⟩
    simp [call, editDual, Exchange.dual, hstate, changed, Except.map, Except.mapError]
  | checkedOut d =>
    have hdual : x.dual = .ok d := by rw [Exchange.dual, hstate]
    rcases (h.dual hstate).1.change (hrange hstate) with ⟨cause, hresult⟩ | ⟨q, hresult, _⟩
    · refine Or.inl ⟨.program cause, ?_⟩
      simp only [call, editDual, hdual, hresult, changed, Except.map, Except.mapError,
        Checked.accepted_ok, Checked.ok_bind, Fault.map]
    · refine Or.inr ⟨_, ?_, .dual hstate hresult⟩
      simp only [call, editDual, hdual, hresult, changed, Except.map, Except.mapError,
        Checked.accepted_ok, Checked.ok_bind]

/-- **A call whose handles exist is declined, or it comes to one of these.** -/
theorem call_moved (h : x.Sound) (hrange : c.InRange x) :
    (∃ cause, x.call c = .error (.refused cause)) ∨ ∃ x', x.call c = .ok x' ∧ x.Moved c x' := by
  cases c with
  | checkOut elapsed => exact checkOut_moved h elapsed
  | checkIn => exact checkIn_moved h
  | borrow elapsed changes returned => exact borrow_moved h returned hrange
  | changePrimal change => exact changePrimal_moved h hrange
  | changeDual change => exact changeDual_moved h hrange
  | configure settings => exact Or.inr ⟨_, rfl, .configured⟩

theorem moved_of_call (h : x.Sound) (hrange : c.InRange x) (hcall : x.call c = .ok x') :
    x.Moved c x' := by
  rcases call_moved h hrange with ⟨cause, hdeclined⟩ | ⟨y, hy, hmoved⟩
  · rw [hdeclined] at hcall
    cases hcall
  · rw [hy] at hcall
    cases hcall
    exact hmoved

/-- **Calls keep an exchange sound.** -/
theorem Moved.sound (hmoved : x.Moved c x') (h : x.Sound) (hrange : c.InRange x) : x'.Sound := by
  cases hmoved with
  | checkOut hstate =>
    refine ⟨h.primal, fun hd => ?_⟩
    cases hd
    exact ⟨h.primal.derivedDual _, h.primal.derivedDual_fits _⟩
  | checkIn hstate hrec => exact .of_checkedIn rfl (h.primal.of_records hrec)
  | dropped hstate => exact .of_checkedIn hstate h.primal
  | returned hstate hrec => exact .of_checkedIn hstate (h.primal.of_records hrec)
  | primal hstate hq =>
    rcases h.primal.change (hrange hstate) with ⟨cause, hresult⟩ | ⟨q, hresult, hwf, _⟩
    · rw [hq] at hresult
      cases hresult
    · rw [hq] at hresult
      cases hresult
      exact .of_checkedIn hstate hwf
  | dual hstate hq =>
    obtain ⟨hdual, hfits⟩ := h.dual hstate
    rcases hdual.change (hrange hstate) with ⟨cause, hresult⟩ | ⟨q, hresult, hwf, hwithin⟩
    · rw [hq] at hresult
      cases hresult
    · rw [hq] at hresult
      cases hresult
      refine ⟨h.primal, fun hd => ?_⟩
      cases hd
      exact ⟨hwf, hfits.grown hwithin⟩
  | configured => exact ⟨h.primal, h.dual⟩

end Exchange

/-! ## Runs -/

namespace Session

open Exchange

variable {α : Type} [Scalar α] {s t : Session α} {c : Call α} {calls : List (Call α)}

/-- The handles of several calls exist at the time when they are used. -/
def InRange (s : Session α) : List (Call α) → Prop
  | [] => True
  | c :: calls => c.InRange s.exchange ∧
      ∀ {t : Session α} {cause : Option Refusal}, s.step c = some (t, cause) → t.InRange calls

/-- A step is declined and changes nothing, or it is one of the moves. -/
theorem step_moved (h : s.exchange.Sound) (hrange : c.InRange s.exchange) :
    (∃ cause, s.step c = some (s, some cause)) ∨
      ∃ x, s.step c = some (s.after x c, none) ∧ s.exchange.Moved c x := by
  rcases call_moved h hrange with ⟨cause, hcall⟩ | ⟨x, hcall, hmoved⟩
  · exact Or.inl ⟨cause, by rw [step_eq, hcall]; rfl⟩
  · exact Or.inr ⟨x, by rw [step_eq, hcall]; rfl, hmoved⟩

/-- An exchange that is ready checks out the dual written down at once. -/
theorem step_checkOut (h : s.exchange.Ready) (elapsed : Nat) :
    ∃ t, s.step (.checkOut elapsed) = some (t, none) ∧
      t.exchange.state = .checkedOut (s.exchange.primal.derivedDual s.exchange.settings) := by
  obtain ⟨x, hx, hstate, _⟩ := checkOut_result h elapsed
  exact ⟨s.after x (.checkOut elapsed), by rw [step_eq, call, hx]; rfl, hstate⟩

/-- A dual that is out can be checked in: its solution is written into the primal. -/
theorem step_checkIn {d : Dual α} (hstate : s.exchange.state = .checkedOut d)
    (hd : d.Resolves s.exchange.primal) : ∃ t, s.step .checkIn = some (t, none) ∧
      t.exchange.state = .checkedIn ∧ t.exchange.settings = s.exchange.settings ∧
      t.exchange.primal =
        (s.exchange.primal.withCoordinates d.multiplierOf?).withCoordinates d.reducedCostOf? := by
  obtain ⟨x, hx, hafter⟩ := checkIn_result hstate hd
  exact ⟨s.after x .checkIn, by rw [step_eq, call, hx]; rfl, hafter⟩

theorem step_eq_some (hstep : s.step c = some (t, none)) :
    ∃ x, s.exchange.call c = .ok x ∧ t = s.after x c := by
  rw [step_eq] at hstep
  cases hcall : s.exchange.call c with
  | ok x =>
    rw [hcall] at hstep
    cases hstep
    exact ⟨x, rfl, rfl⟩
  | error fault =>
    rw [hcall] at hstep
    cases fault <;> cases hstep

/-- A call that is declined changes nothing. -/
theorem eq_of_declined {cause : Refusal} (hstep : s.step c = some (t, some cause)) : t = s := by
  rw [step_eq] at hstep
  cases hcall : s.exchange.call c with
  | ok x =>
    rw [hcall] at hstep
    cases hstep
  | error fault =>
    rw [hcall] at hstep
    cases fault with
    | outOfRange => cases hstep
    | refused cause' =>
      cases hstep
      rfl

omit [Scalar α] in
theorem exchange_after (s : Session α) (x : Exchange α) (c : Call α) :
    (s.after x c).exchange = x := by
  cases c <;> rfl

/-- **What every step preserves holds at the end of every run**, and the run comes to an end. -/
theorem run_preserves {P : Session α → Prop} {Q : Call α → Prop}
    (hstep : ∀ {s : Session α} {c : Call α}, P s → Q c → c.InRange s.exchange →
      ∃ t cause, s.step c = some (t, cause) ∧ P t)
    (hs : P s) (hcalls : ∀ c ∈ calls, Q c) (hrange : s.InRange calls) :
    ∃ t, s.run calls = some t ∧ P t := by
  induction calls generalizing s with
  | nil => exact ⟨s, rfl, hs⟩
  | cons c calls ih =>
    obtain ⟨r, cause, hr, hP⟩ := hstep hs (hcalls c List.mem_cons_self) hrange.1
    obtain ⟨t, ht, hend⟩ := ih hP (fun d hd => hcalls d (List.mem_cons_of_mem c hd)) (hrange.2 hr)
    exact ⟨t, by rw [run, List.foldlM_cons, hr]; exact ht, hend⟩

/-- A run keeps an exchange sound. -/
theorem run_sound (h : s.exchange.Sound) (hrange : s.InRange calls) :
    ∃ t, s.run calls = some t ∧ t.exchange.Sound := by
  refine run_preserves (Q := fun _ => True) (fun {s c} hs _ hc => ?_) h (fun _ _ => trivial) hrange
  rcases step_moved hs hc with ⟨cause, hstep⟩ | ⟨x, hstep, hmoved⟩
  · exact ⟨s, some cause, hstep, hs⟩
  · exact ⟨s.after x c, none, hstep, by rw [exchange_after]; exact hmoved.sound hs hc⟩

/-- The second dual constraint of `Program.twoRows` exists. -/
theorem inRange_setMultiplier_twoRows {t : Session Rat}
    (hstate : t.exchange.state = .checkedOut (Program.twoRows.derivedDual .standard)) (a : Rat) :
    (Call.changeDual (.edit (.setMultiplier ⟨1⟩ a))).InRange t.exchange := by
  intro d hd
  rw [hstate] at hd
  cases hd
  show (⟨1⟩ : ConstraintId) ∈ _
  rw [Program.constraintIds_derivedDual]
  decide

end Session

end Conic
