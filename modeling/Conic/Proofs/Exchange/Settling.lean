import Mathlib.Algebra.GroupWithZero.Nat
import Conic.Proofs.Dual.Tables
import Conic.Proofs.Exchange.Calls

/-!
# What a check-in writes

The tables of a dual are made when it is checked out, and read when it is checked in. In between its
program may change in every way in which a program can.

* `Program.SettledBy` — the primal after a check-in, coordinate by coordinate, and what is left as
  it was.
* `Program.settledWith_settledBy` — writing back, with the tables of a derived dual and whatever
  program has come of its own.
* `Session.Holds` — what a run without a check-in preserves: the primal and the tables.
* `Session.checkIn_settles` — **a check-in succeeds, and writes exactly the solved quantities.**
-/

set_option autoImplicit false

namespace Conic

variable {α : Type} [Scalar α]

/-! ## The specification -/

/-- `q` is the primal `p` after the dual `d` was checked in: its point holds the solved quantities
of the dual, and the rest is that of `p`. -/
structure Program.SettledBy (q p : Program α) (d : Dual α) (choice : SlackChoice) : Prop where
  /-- A nonnegative variable that is no chosen slack takes the multiplier of its dual constraint. -/
  ordinary : ∀ {v : VarId}, v ∈ p.nonnegVars →
    (∀ c row, p.constraint? c = some row → ¬p.Picks choice row v) →
    ∃ r row, d.constraintOf? v = some r ∧ d.program.constraint? r = some row ∧
      q.coordinate? v = some row.multiplier
  /-- A chosen slack takes the dual value of the multiplier variable of its constraint. -/
  slack : ∀ {c : ConstraintId} {row : Constraint α} {v : VarId}, p.constraint? c = some row →
    p.Picks choice row v → ∃ y x, d.multiplier? c = some y ∧ d.program.var? y = some x ∧
      q.coordinate? v = some x.reducedCost
  /-- A variable of a second-order cone keeps its coordinate. -/
  other : ∀ {v : VarId}, v ∉ p.nonnegVars → q.coordinate? v = p.coordinate? v
  rest : q = { p with point := q.point }
  point_size : q.point.size = p.point.size

/-! ## Writing back -/

namespace Program

variable {p q : Program α} {settings : Settings α}

/-- **Writing back what has become of a derived dual.** -/
theorem settledWith_settledBy (h : p.WellFormed) (hfits : (p.reworkedDual settings q).Fits p) :
    (p.settledWith settings q).SettledBy p (p.reworkedDual settings q) settings.slackChoice where
  ordinary {v} hv hnone := by
    have hordinary : v ∈ p.ordinaryVars settings.slackChoice := by
      refine h.mem_ordinaryVars_iff.mpr ⟨hv, fun c hc => ?_⟩
      obtain ⟨row, hrow, _⟩ := slackOf_eq_some hc
      exact hnone c row hrow ((h.slackOf_eq_some_iff_picks hrow).mp hc)
    have hentry : (p.reworkedDual settings q).constraintOf? v = some _ :=
      (constraintOf?_derivedDual_eq_some_iff h).mpr ⟨hordinary, rfl⟩
    obtain ⟨row, hrow⟩ := (hfits.resolves h.point_size).row hentry
    exact ⟨_, row, hentry, hrow, settledWith_ordinary h hordinary hrow⟩
  slack {c row v} hrow hpicks := by
    have hslack := (h.slackOf_eq_some_iff_picks hrow).mpr hpicks
    have hentry : (p.reworkedDual settings q).slackVarOf? v = some _ :=
      (slackVarOf?_derivedDual_eq_some_iff h).mpr ⟨c, hslack, rfl⟩
    obtain ⟨x, hx⟩ := (hfits.resolves h.point_size).var hentry
    exact ⟨_, x, multiplier?_derivedDual hrow, hx, settledWith_slack h hslack hx⟩
  other hv := settledWith_other h hv
  rest := rfl
  point_size := by simp [settledWith, withCoordinates]

end Program

/-! ## Runs without a check-in -/

namespace Session

open Exchange

variable {s t u : Session α} {c : Call α} {calls : List (Call α)} {p q : Program α}
  {settings : Settings α}

/-- The primal is `p`, and what is out has the tables of the dual of `p`. -/
structure Holds (p : Program α) (settings : Settings α) (s : Session α) : Prop where
  sound : s.exchange.Sound
  primal : s.exchange.primal = p
  dual : ∃ q, s.exchange.state = .checkedOut (p.reworkedDual settings q)

/-- A checkout that succeeds. -/
theorem holds_checkOut (hp : s.exchange.primal.WellFormed) {elapsed : Nat}
    (hstep : s.step (.checkOut elapsed) = some (t, none)) :
    t.Holds s.exchange.primal s.exchange.settings := by
  obtain ⟨x, hcall, rfl⟩ := step_eq_some hstep
  have h : s.exchange.Sound := .of_checkedIn (refusal?_of_checkOut hcall).1 hp
  have hmoved := moved_of_call h (c := .checkOut elapsed) trivial hcall
  have hsound := hmoved.sound h trivial
  cases hmoved
  exact ⟨hsound, rfl, _, rfl⟩

/-- While a dual is out, calls other than a check-in change its program at most. -/
theorem Holds.step (h : s.Holds p settings) (hc : c ≠ .checkIn) (hrange : c.InRange s.exchange) :
    ∃ t cause, s.step c = some (t, cause) ∧ t.Holds p settings := by
  obtain ⟨q, hstate⟩ := h.dual
  rcases step_moved h.sound hrange with ⟨cause, hstep⟩ | ⟨x, hstep, hmoved⟩
  · exact ⟨s, some cause, hstep, h⟩
  · refine ⟨s.after x c, none, hstep, ?_⟩
    have hsound : (s.after x c).exchange.Sound := by
      rw [exchange_after]
      exact hmoved.sound h.sound hrange
    cases hmoved with
    | checkIn => exact absurd rfl hc
    | checkOut hin | dropped hin | returned hin | primal hin =>
      rw [hstate] at hin
      cases hin
    | dual hout =>
      rw [hstate] at hout
      cases hout
      exact ⟨hsound, h.primal, _, rfl⟩
    | configured => exact ⟨hsound, h.primal, q, hstate⟩

theorem Holds.run (h : s.Holds p settings) (hrange : s.InRange calls)
    (hcalls : ∀ c ∈ calls, c ≠ .checkIn) : ∃ t, s.run calls = some t ∧ t.Holds p settings :=
  run_preserves Holds.step h hcalls hrange

/-- Checking in what has become of the derived dual of the primal. -/
theorem step_checkIn_reworked (hp : s.exchange.primal.WellFormed)
    (hfits : (s.exchange.primal.reworkedDual settings q).Fits s.exchange.primal)
    (hstate : s.exchange.state = .checkedOut (s.exchange.primal.reworkedDual settings q)) :
    ∃ t, s.step .checkIn = some (t, none) ∧ t.exchange.state = .checkedIn ∧
      t.exchange.primal = s.exchange.primal.settledWith settings q ∧
      t.exchange.primal.SettledBy s.exchange.primal (s.exchange.primal.reworkedDual settings q)
        settings.slackChoice := by
  obtain ⟨t, hstep, hin, _, hprimal⟩ := step_checkIn hstate (hfits.resolves hp.point_size)
  refine ⟨t, hstep, hin, hprimal, ?_⟩
  rw [hprimal]
  exact Program.settledWith_settledBy hp hfits

/-- **A check-in succeeds, and writes exactly the solved quantities**, whatever was done to the dual
since it was checked out. Its tables are those of the checkout, and its program is the present
one. -/
theorem checkIn_settles (hp : s.exchange.primal.consistent = true) {elapsed : Nat}
    (hout : s.step (.checkOut elapsed) = some (t, none)) (hrange : t.InRange calls)
    (hcalls : ∀ c ∈ calls, c ≠ .checkIn) :
    ∃ d q u v, t.exchange.state = .checkedOut d ∧ t.run calls = some u ∧
      u.exchange.state = .checkedOut { d with program := q } ∧
      u.step .checkIn = some (v, none) ∧ v.exchange.state = .checkedIn ∧
      v.exchange.primal.SettledBy s.exchange.primal { d with program := q }
        s.exchange.settings.slackChoice := by
  have hfirst := holds_checkOut (Program.consistent_iff_wellFormed.mp hp) hout
  obtain ⟨q₀, hstate⟩ := hfirst.dual
  obtain ⟨u, hrun, hlast⟩ := hfirst.run hrange hcalls
  obtain ⟨q, hstate'⟩ := hlast.dual
  rw [← hlast.primal] at hstate hstate' ⊢
  obtain ⟨v, hstep, hin, _, hsettled⟩ := step_checkIn_reworked hlast.sound.primal
    (hlast.sound.dual hstate').2 hstate'
  exact ⟨_, q, u, v, hstate, hrun, hstate', hstep, hin, hsettled⟩

/-- The dual is solved and built upon, other settings are chosen, and a change of the primal is
declined. -/
theorem checkIn_settles_twoRows : ∃ t d q u v,
    (start (.new Program.twoRows .standard)).step (.checkOut 0) = some (t, none) ∧
      t.exchange.state = .checkedOut d ∧
      t.run [.changeDual (.edit (.setMultiplier ⟨1⟩ 2)), .changeDual (.edit .addNonnegCone),
        .configure { Settings.standard with slackChoice := .last },
        .changePrimal (.edit .addConstraint)] = some u ∧
      u.exchange.state = .checkedOut { d with program := q } ∧
      u.step .checkIn = some (v, none) ∧ v.exchange.state = .checkedIn ∧
      v.exchange.primal.SettledBy Program.twoRows { d with program := q } .first := by
  obtain ⟨t, hout, hstate⟩ :=
    step_checkOut (s := start (.new Program.twoRows .standard)) twoRows_ready 0
  have hrange : t.InRange
      [.changeDual (.edit (.setMultiplier ⟨1⟩ 2)), .changeDual (.edit .addNonnegCone),
        .configure { Settings.standard with slackChoice := .last },
        .changePrimal (.edit .addConstraint)] :=
    ⟨inRange_setMultiplier_twoRows hstate 2, fun _ => ⟨fun _ => trivial, fun _ =>
      ⟨trivial, fun _ => ⟨fun _ => trivial, fun _ => trivial⟩⟩⟩⟩
  obtain ⟨d, q, u, v, h⟩ := checkIn_settles (s := start (.new Program.twoRows .standard))
    (by decide) hout hrange (by simp)
  exact ⟨t, d, q, u, v, hout, h⟩

end Session

end Conic
