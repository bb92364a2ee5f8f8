import Mathlib.Algebra.GroupWithZero.Nat
import Conic.Proofs.Dual.Counting
import Conic.Proofs.Exchange.Recycling

/-!
# What the summary says

The sizes in the summary come from three places, the tables of a dual, the counter of its rescaled
multipliers and the lengths of its arrays. They are written once, when a dual is derived, and they
describe that dual until the next one is derived.

* `Summary.Describes` — the sizes, each counted on the primal.
* `Program.WellFormed.describes` — what is written when a dual is derived.
* `Call.Derives` — the calls that write it; `Moved.describes`.
* `Moved.sizes_eq` — the other calls leave the sizes alone.
* `Session.run_summarizes` — **between two checkouts the summary describes the first of them.**
-/

set_option autoImplicit false

namespace Conic

/-- The summary describes a dual of `p`: every constraint has a signed multiplier, which comes with
a slack, or a free one, which is a pair of variables; every nonnegative variable that is no slack
has a constraint and a variable; each multiplier and each of these variables has one cone. -/
structure Summary.Describes {α : Type} [Scalar α] (s : Summary) (p : Program α)
    (settings : Settings α) : Prop where
  signed : s.signedMultipliers = p.slackCount settings.slackChoice
  signed_add_free : s.signedMultipliers + s.freeMultipliers = p.constraints.size
  signed_le : s.signedMultipliers ≤ p.nonnegCount
  constraints : s.constraints = p.nonnegCount - s.signedMultipliers
  vars : s.vars = s.signedMultipliers + 2 * s.freeMultipliers + s.constraints
  cones : s.cones = s.signedMultipliers + s.freeMultipliers + s.constraints
  rescaled : s.rescaled = p.rescaledCount settings

variable {α : Type} [Scalar α]

/-- The sizes alone decide what a summary describes. -/
theorem Summary.Describes.of_sizes {r s : Summary} {p : Program α} {settings : Settings α}
    (h : s.Describes p settings) (hsizes : r.sizes = s.sizes) : r.Describes p settings := by
  obtain ⟨_, _, _, _, _, _, _, _, _⟩ := r
  obtain ⟨_, _, _, _, _, _, _, _, _⟩ := s
  simp only [Summary.sizes, Summary.mk.injEq] at hsizes
  obtain ⟨-, -, rfl, rfl, rfl, rfl, rfl, rfl, -⟩ := hsizes
  exact ⟨h.signed, h.signed_add_free, h.signed_le, h.constraints, h.vars, h.cones, h.rescaled⟩

/-- **What is written when a dual is derived.** -/
theorem Program.WellFormed.describes {p : Program α} (h : p.WellFormed) (settings : Settings α)
    (s : Summary) (elapsed : Nat) :
    (s.afterCheckout (p.derivedDual settings) elapsed).Describes p settings := by
  have hfree := p.freeCount_derivedDual settings
  have hall := p.slackCount_add settings.slackChoice
  have hnonneg := h.slackCount_add_constraints settings
  have hconstraints := p.derivedDual_constraints_size settings
  have hvars := p.derivedDual_vars_size settings
  rw [p.length_partsOn, ← hconstraints] at hvars
  have hcones := p.derivedDual_cones_size settings
  rw [← hconstraints] at hcones
  have hsigned := p.signedCount_derivedDual settings
  unfold Program.slackCount at hsigned hall hnonneg
  constructor <;> simp only [Summary.afterCheckout]
  case signed => exact hsigned
  case rescaled => exact h.rescaled_derivedDual settings
  all_goals omega

namespace Exchange

variable {x x' : Exchange α} {c : Call α}

/-- The calls that derive a dual. -/
def Call.Derives {α : Type} : Call α → Prop
  | .checkOut _ => True
  | .borrow _ _ _ => True
  | _ => False

/-- A call that derives a dual describes it, also when the dual is returned or let go at once. -/
theorem Moved.describes (hmoved : x.Moved c x') (h : x.Sound) (hc : c.Derives) :
    x'.summary.Describes x.primal x.settings := by
  have hwritten := h.primal.describes x.settings x.summary
  cases hmoved with
  | checkOut | dropped => exact hwritten _
  | @returned elapsed => exact (hwritten elapsed).of_sizes rfl
  | checkIn | primal | dual | configured => exact hc.elim

/-- The other calls leave the sizes alone. -/
theorem Moved.sizes_eq (hmoved : x.Moved c x') (hc : ¬c.Derives) :
    x'.summary.sizes = x.summary.sizes := by
  cases hmoved with
  | checkOut | dropped | returned => exact absurd trivial hc
  | checkIn | primal | dual | configured => rfl

end Exchange

namespace Session

open Exchange

variable {s t u : Session α} {x : Exchange α} {c : Call α} {calls : List (Call α)}

omit [Scalar α] in
/-- How many duals were derived after a call that was not declined. -/
theorem derived_after (s : Session α) (x : Exchange α) (c : Call α) :
    c.Derives ∧ (s.after x c).derived = s.derived + 1 ∨
      ¬c.Derives ∧ (s.after x c).derived = s.derived := by
  cases c <;> simp [after, Call.Derives]

theorem run_cons {cause : Option Refusal} (hstep : s.step c = some (t, cause)) :
    s.run (c :: calls) = t.run calls := by
  rw [run, List.foldlM_cons, hstep]
  rfl

/-- Since `s`, another dual was derived, or the summary still says the same. -/
structure Since (s t : Session α) : Prop where
  sound : t.exchange.Sound
  derived_le : s.derived ≤ t.derived
  sizes : t.derived = s.derived → t.exchange.summary.sizes = s.exchange.summary.sizes

/-- **One call derives another dual, or it leaves the sizes alone.** -/
theorem Since.step (h : s.Since t) (hrange : c.InRange t.exchange) :
    ∃ u cause, t.step c = some (u, cause) ∧ s.Since u := by
  rcases step_moved h.sound hrange with ⟨cause, hstep⟩ | ⟨x, hstep, hmoved⟩
  · exact ⟨t, some cause, hstep, h⟩
  · have hsound : (t.after x c).exchange.Sound := by
      rw [exchange_after]
      exact hmoved.sound h.sound hrange
    have hle := h.derived_le
    refine ⟨t.after x c, none, hstep, ?_⟩
    rcases derived_after t x c with ⟨_, hderived⟩ | ⟨hc, hderived⟩
    · exact ⟨hsound, by omega, fun heq => by omega⟩
    · refine ⟨hsound, by omega, fun heq => ?_⟩
      rw [exchange_after, hmoved.sizes_eq hc]
      exact h.sizes (by omega)

/-- **Between two checkouts the summary describes the first of them.** Whatever was done before, a
call that derives a dual, to be checked out or to be borrowed, writes its sizes; and until another
dual is derived, no call changes them, be it declined or not. -/
theorem run_summarizes {p : Program α} {settings : Settings α} {before : List (Call α)}
    (hstart : x = .new p settings ∧ p.consistent = true ∨ tryNew p settings = .ok x)
    (hbefore : (start x).InRange before) :
    ∃ s, (start x).run before = some s ∧
      ∀ {c t}, c.Derives → c.InRange s.exchange → s.step c = some (t, none) →
      ∀ {between : List (Call α)}, t.InRange between →
      ∃ u, t.run between = some u ∧ (u.derived = t.derived →
        u.exchange.summary.sizes = t.exchange.summary.sizes ∧
        u.exchange.summary.Describes s.exchange.primal s.exchange.settings) := by
  obtain ⟨rfl, hp⟩ : x = .new p settings ∧ p.consistent = true := hstart.elim id fun hx =>
    have hnew := tryNew_eq_ok_iff.mp hx
    ⟨hnew.1, hnew.2.2.1⟩
  have hnew : (Exchange.new p settings).Sound :=
    .of_checkedIn rfl (Program.consistent_iff_wellFormed.mp hp)
  obtain ⟨s, hs, hsound⟩ := run_sound (s := start _) hnew hbefore
  refine ⟨s, hs, fun {c t} hc hrange hstep between hbetween => ?_⟩
  obtain ⟨y, hcall, rfl⟩ := step_eq_some hstep
  have hmoved := moved_of_call hsound hrange hcall
  have hafter : (s.after y c).exchange.Sound := by
    rw [exchange_after]
    exact hmoved.sound hsound hrange
  have hsince : (s.after y c).Since (s.after y c) := ⟨hafter, Nat.le_refl _, fun _ => rfl⟩
  obtain ⟨u, hu, hsince⟩ := run_preserves (Q := fun _ => True)
    (fun hr _ hc => Since.step hr hc) hsince (fun _ _ => trivial) hbetween
  refine ⟨u, hu, fun hderived => ?_⟩
  have hsizes := hsince.sizes hderived
  refine ⟨hsizes, ?_⟩
  rw [exchange_after] at hsizes
  exact (hmoved.describes hsound hc).of_sizes hsizes

/-- A dual that is out, and calls that leave its sizes in the summary: a second checkout and a
change of the primal, which are declined, a dual that grows, other settings, and the check-in. -/
theorem run_summarizes_twoRows : ∃ t u : Session Rat,
    (start (.new Program.twoRows .standard)).step (.checkOut 0) = some (t, none) ∧
    t.run [.checkOut 0, .changePrimal (.edit .addConstraint), .changeDual (.edit .addNonnegCone),
      .configure { Settings.standard with slackChoice := .last }, .checkIn] = some u ∧
    u.exchange.summary.sizes = t.exchange.summary.sizes ∧
    u.exchange.summary.Describes Program.twoRows .standard := by
  obtain ⟨t, ht, _⟩ := step_checkOut (s := start (.new Program.twoRows .standard)) twoRows_ready 0
  have hrange : t.InRange [.checkOut 0, .changePrimal (.edit .addConstraint),
      .changeDual (.edit .addNonnegCone),
      .configure { Settings.standard with slackChoice := .last }, .checkIn] :=
    ⟨trivial, fun _ => ⟨fun _ => trivial, fun _ => ⟨fun _ => trivial, fun _ => ⟨trivial, fun _ =>
      ⟨trivial, fun _ => trivial⟩⟩⟩⟩⟩
  have hbefore : (start (.new Program.twoRows .standard)).InRange [] := trivial
  obtain ⟨s, hs, h⟩ := run_summarizes (p := Program.twoRows) (Or.inl ⟨rfl, by decide⟩) hbefore
  cases hs
  obtain ⟨u, hu, hsizes⟩ := h (c := .checkOut 0) trivial trivial ht hrange
  refine ⟨t, u, ht, hu, hsizes ?_⟩
  -- Only one dual is derived in the whole run.
  have hone : t.derived = 1 := by
    obtain ⟨y, _, rfl⟩ := step_eq_some ht
    rfl
  have hrun : ((start (.new Program.twoRows .standard)).run [.checkOut 0, .checkOut 0,
      .changePrimal (.edit .addConstraint), .changeDual (.edit .addNonnegCone),
      .configure { Settings.standard with slackChoice := .last }, .checkIn]).map (·.derived) =
      some 1 := by
    decide +kernel
  rw [run_cons ht, hu] at hrun
  exact (Option.some_inj.mp hrun).trans hone.symm

end Session

end Conic
