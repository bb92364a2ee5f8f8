import Conic.Proofs.Arithmetic
import Conic.Proofs.Exchange.Calls

/-!
# What a checkout is declined for

* `Settings.Meaningless`, `Program.HasSecondOrder` — the two causes.
* `Exchange.Verdict` — an answer that depends on these causes alone, and on the first before the
  second.
* `Exchange.Accepted` — the invariant of an exchange that was checked when it was made, with
  `Moved.accepted` for one move.
* `Exchange.checkOut_decided` — **a checkout is declined for its two causes and for nothing else,
  and an accepted exchange goes on checking out.**
-/

set_option autoImplicit false

namespace Conic

variable {α : Type} [Scalar α]

/-! ## The specification -/

/-- The tolerance is negative, undefined or infinite. -/
def Settings.Meaningless (s : Settings α) : Prop :=
  s.unitTolerance < 0 ∨ Scalar.isFinite s.unitTolerance = false

/-- There is a second-order cone. -/
def Program.HasSecondOrder {α : Type} (p : Program α) : Prop :=
  ∃ k members, p.cone? k = some (.secondOrder members)

/-- A call that neither changes the settings nor brings a second-order cone into the primal. -/
def Exchange.Call.KeepsSupport {α : Type} : Call α → Prop
  | .configure _ => False
  | .changePrimal (.edit (.addSecondOrderCone _)) => False
  | _ => True

namespace Exchange

/-- The settings are looked at first and the cones second; nothing else can go wrong. -/
structure Verdict (x : Exchange α) {β : Type} (r : Checked Error β) : Prop where
  settings : r = .error (.refused (.settings .badTolerance)) ↔ x.settings.Meaningless
  cones : r = .error (.refused (.unsupportedCone .secondOrder)) ↔
    ¬x.settings.Meaningless ∧ x.settings.checkCones = true ∧ x.primal.HasSecondOrder
  succeeds : (∃ b, r = .ok b) ↔
    ¬x.settings.Meaningless ∧ ¬(x.settings.checkCones = true ∧ x.primal.HasSecondOrder)
  only : ∀ {fault}, r = .error fault →
    fault = .refused (.settings .badTolerance) ∨
      fault = .refused (.unsupportedCone .secondOrder)

/-- How a checkout ends, of either sort, is decided before the dual is constructed. -/
structure Decided (x : Exchange α) : Prop where
  checkOut : ∀ elapsed, x.Verdict (x.checkOut elapsed).result
  borrow : ∀ elapsed, x.Verdict (x.borrow elapsed).result
  construction : ∃ d, (x.primal.dual x.settings).result = .ok d
  kinds : x.primal.HasSecondOrder ↔ Cone.Kind.allSupported x.primal.coneKinds = false

/-- Whoever's turn it is, the next half of the cycle succeeds. -/
structure Cycles (x : Exchange α) : Prop where
  checkOut : x.state = .checkedIn → ∀ elapsed, ∃ x', (x.checkOut elapsed).result = .ok x'
  borrow : x.state = .checkedIn → ∀ elapsed, ∃ b, (x.borrow elapsed).result = .ok b
  checkIn : ∀ {d : Dual α}, x.state = .checkedOut d → ∃ x', x.checkIn.result = .ok x'

end Exchange

/-! ## The two causes -/

theorem Settings.fault?_of_meaningless [LawfulScalar α] {s : Settings α} (h : s.Meaningless) :
    s.fault? = some .badTolerance := by
  have hbad : ¬(Scalar.isFinite s.unitTolerance && decide (0 ≤ s.unitTolerance)) = true := by
    rw [Bool.and_eq_true, decide_eq_true_iff]
    rintro ⟨hfinite, hle⟩
    rcases h with hlt | hinfinite
    · exact (LawfulScalar.lt_zero_iff hfinite).mp hlt hle
    · simp [hinfinite] at hfinite
  rw [fault?, if_neg hbad]

theorem Settings.fault?_of_not_meaningless [LawfulScalar α] {s : Settings α}
    (h : ¬s.Meaningless) : s.fault? = none := by
  obtain ⟨hlt, hfinite⟩ := not_or.mp h
  have hfinite : Scalar.isFinite s.unitTolerance = true := by simpa using hfinite
  have hle : 0 ≤ s.unitTolerance := by
    by_contra hle
    exact hlt ((LawfulScalar.lt_zero_iff hfinite).mpr hle)
  rw [fault?, if_pos (by simp [hfinite, hle])]

namespace Program

variable {α : Type} {p : Program α}

theorem hasSecondOrder_iff : p.HasSecondOrder ↔ .secondOrder ∈ p.coneKinds := by
  rw [mem_coneKinds_iff]
  constructor
  · rintro ⟨k, members, hk⟩
    exact ⟨_, Array.mem_toList_iff.mpr (Array.mem_of_getElem? hk), rfl⟩
  · rintro ⟨cone, hcone, hkind⟩
    obtain ⟨i, hi⟩ := List.mem_iff_getElem?.mp hcone
    cases cone with
    | nonneg v => cases hkind
    | secondOrder members => exact ⟨⟨i⟩, members, by simpa [cone?] using hi⟩

theorem orthant_of_not_hasSecondOrder (h : ¬p.HasSecondOrder) : p.Orthant := by
  intro k cone hk
  cases cone with
  | nonneg v => rfl
  | secondOrder members => exact absurd ⟨k, members, hk⟩ h

/-- A second-order cone is all that makes a program unsupported. -/
theorem hasSecondOrder_iff_not_allSupported :
    p.HasSecondOrder ↔ Cone.Kind.allSupported p.coneKinds = false := by
  rw [hasSecondOrder_iff, Cone.Kind.allSupported, List.all_eq_false]
  constructor
  · exact fun h => ⟨_, h, by decide⟩
  · rintro ⟨kind, hkind, hunsupported⟩
    cases kind with
    | nonneg => exact absurd rfl hunsupported
    | secondOrder => exact hkind

theorem find?_coneKinds_of_hasSecondOrder (h : p.HasSecondOrder) :
    p.coneKinds.find? (!·.supported) = some .secondOrder := by
  cases hfind : p.coneKinds.find? (!·.supported) with
  | none =>
    have hall := List.find?_eq_none.mp hfind _ (hasSecondOrder_iff.mp h)
    exact absurd rfl hall
  | some kind =>
    have hkind := List.find?_some hfind
    cases kind with
    | nonneg => cases hkind
    | secondOrder => rfl

end Program

namespace Exchange

variable {x x' : Exchange α} {c : Call α}

/-! ## The verdict -/

/-- The cause for which no dual is derived, case by case. -/
theorem refusal?_cases [LawfulScalar α] (x : Exchange α) :
    (x.settings.Meaningless ∧ x.refusal? = some (.settings .badTolerance)) ∨
    (¬x.settings.Meaningless ∧ (x.settings.checkCones = true ∧ x.primal.HasSecondOrder) ∧
      x.refusal? = some (.unsupportedCone .secondOrder)) ∨
    (¬x.settings.Meaningless ∧ ¬(x.settings.checkCones = true ∧ x.primal.HasSecondOrder) ∧
      x.refusal? = none) := by
  by_cases hsettings : x.settings.Meaningless
  · exact Or.inl ⟨hsettings, by rw [refusal?, Settings.fault?_of_meaningless hsettings]⟩
  · have hfault := Settings.fault?_of_not_meaningless hsettings
    by_cases hcones : x.settings.checkCones = true ∧ x.primal.HasSecondOrder
    · refine Or.inr (Or.inl ⟨hsettings, hcones, ?_⟩)
      simp [refusal?, hfault, hcones.1, Program.find?_coneKinds_of_hasSecondOrder hcones.2]
    · refine Or.inr (Or.inr ⟨hsettings, hcones, refusal?_eq_none_iff.mpr ⟨hfault, ?_⟩⟩)
      intro hcheck
      have horthant : x.primal.Orthant :=
        Program.orthant_of_not_hasSecondOrder fun h => hcones ⟨hcheck, h⟩
      exact find?_coneKinds_of_orthant horthant

/-- An answer that is declined for the cause found, and given where there is none. -/
theorem Verdict.of_refusal [LawfulScalar α] {β : Type} {r : Checked Error β}
    (hrefused : ∀ error, x.refusal? = some error → r = .error (.refused error))
    (hgiven : x.refusal? = none → ∃ b, r = .ok b) : x.Verdict r := by
  rcases x.refusal?_cases with ⟨hsettings, hrefusal⟩ | ⟨hsettings, hcones, hrefusal⟩ |
    ⟨hsettings, hcones, hrefusal⟩
  · rw [hrefused _ hrefusal]
    constructor <;> simp [hsettings]
  · rw [hrefused _ hrefusal]
    constructor <;> simp [hsettings, hcones]
  · obtain ⟨b, hb⟩ := hgiven hrefusal
    rw [hb]
    constructor <;> simp [hsettings]
    · exact fun hcheck h => hcones ⟨hcheck, h⟩
    · exact fun hcheck h => hcones ⟨hcheck, h⟩

theorem borrow_verdict [LawfulScalar α] (hstate : x.state = .checkedIn) (h : x.primal.WellFormed)
    (elapsed : Nat) : x.Verdict (x.borrow elapsed).result := by
  rw [borrow_of_checkedIn hstate]
  refine .of_refusal (fun error herror => derive_of_refusal herror elapsed) fun hnone => ?_
  obtain ⟨target, hresult⟩ := derive_of_accepted h hnone elapsed
  exact ⟨_, hresult⟩

theorem checkOut_verdict [LawfulScalar α] (hstate : x.state = .checkedIn)
    (h : x.primal.WellFormed) (elapsed : Nat) : x.Verdict (x.checkOut elapsed).result := by
  rw [checkOut_eq, borrow_of_checkedIn hstate]
  refine .of_refusal (fun error herror => ?_) fun hnone => ?_
  · rw [derive_of_refusal herror]
    rfl
  · obtain ⟨target, hresult⟩ := derive_of_accepted h hnone elapsed
    rw [hresult]
    exact ⟨_, rfl⟩

theorem decided_of_wellFormed [LawfulScalar α] (hstate : x.state = .checkedIn)
    (h : x.primal.WellFormed) : x.Decided where
  checkOut := checkOut_verdict hstate h
  borrow := borrow_verdict hstate h
  construction := ⟨_, h.dual_result x.settings⟩
  kinds := Program.hasSecondOrder_iff_not_allSupported

/-! ## Accepted exchanges -/

/-- What is checked when an exchange is made, and what keeps it from being declined later. -/
structure Accepted (x : Exchange α) : Prop where
  sound : x.Sound
  settings : x.settings.fault? = none
  orthant : x.primal.Orthant

theorem accepted_of_tryNew {p : Program α} {settings : Settings α}
    (hnew : tryNew p settings = .ok x) : x.Accepted := by
  obtain ⟨rfl, hsettings, hp, hcones⟩ := tryNew_eq_ok_iff.mp hnew
  refine ⟨.of_checkedIn rfl (Program.consistent_iff_wellFormed.mp hp), hsettings, ?_⟩
  apply Program.orthant_of_not_hasSecondOrder
  intro (h : p.HasSecondOrder)
  rw [checkCones_eq_error (Program.find?_coneKinds_of_hasSecondOrder h)] at hcones
  cases hcones

theorem Accepted.refusal?_eq_none (h : x.Accepted) : x.refusal? = none :=
  refusal?_eq_none_iff.mpr ⟨h.settings, fun _ => find?_coneKinds_of_orthant h.orthant⟩

theorem Accepted.cycles (h : x.Accepted) : x.Cycles where
  checkOut hstate elapsed := by
    obtain ⟨target, hresult⟩ := derive_of_accepted h.sound.primal h.refusal?_eq_none elapsed
    rw [checkOut_eq, borrow_of_checkedIn hstate, hresult]
    exact ⟨_, rfl⟩
  borrow hstate elapsed := by
    obtain ⟨target, hresult⟩ := derive_of_accepted h.sound.primal h.refusal?_eq_none elapsed
    rw [borrow_of_checkedIn hstate, hresult]
    exact ⟨_, rfl⟩
  checkIn {d} hstate := by
    have hdual : x.dual = .ok d := by rw [Exchange.dual, hstate]
    obtain ⟨q, hq, _⟩ :=
      Dual.exists_writeBack? (h.sound.dual hstate).2 h.sound.primal.point_size
    simp [Exchange.checkIn, settle, hdual, hq]

/-- A move that keeps the settings and the kinds of cones keeps an exchange accepted. -/
theorem Moved.accepted (hmoved : x.Moved c x') (h : x.Accepted) (hrange : c.InRange x)
    (hkeeps : c.KeepsSupport) : x'.Accepted := by
  refine ⟨hmoved.sound h.sound hrange, ?_, ?_⟩
  · cases hmoved with
    | configured => cases hkeeps
    | checkOut | checkIn | dropped | returned | primal | dual => exact h.settings
  · cases hmoved with
    | configured => cases hkeeps
    | checkOut | dropped | dual => exact h.orthant
    | checkIn hstate hrec | returned hstate hrec => exact Program.Orthant.of_records h.orthant hrec
    | @primal change q hstate hq =>
      refine Program.Orthant.change h.orthant hq fun n hn => ?_
      subst hn
      exact hkeeps

end Exchange

/-! ## The result -/

namespace Exchange

open Session

theorem step_accepted {s : Session α} {c : Call α} (h : s.exchange.Accepted)
    (hkeeps : c.KeepsSupport) (hrange : c.InRange s.exchange) :
    ∃ t cause, s.step c = some (t, cause) ∧ t.exchange.Accepted := by
  rcases step_moved h.sound hrange with ⟨cause, hstep⟩ | ⟨x, hstep, hmoved⟩
  · exact ⟨s, some cause, hstep, h⟩
  · refine ⟨s.after x c, none, hstep, ?_⟩
    rw [exchange_after]
    exact hmoved.accepted h hrange hkeeps

/-- **A checkout is declined for its two causes and for nothing else.** An exchange that was checked
when it was made therefore goes on checking out and in while the settings and the kinds of cones
stay what they are. -/
theorem checkOut_decided [LawfulScalar α] {x : Exchange α} (hstate : x.state = .checkedIn)
    (hp : x.primal.consistent = true) :
    x.Decided ∧ ∀ {p : Program α} {settings : Settings α}, tryNew p settings = .ok x →
      ∀ {calls : List (Call α)}, (start x).InRange calls → (∀ c ∈ calls, c.KeepsSupport) →
        ∃ t, (start x).run calls = some t ∧ t.exchange.Cycles := by
  refine ⟨decided_of_wellFormed hstate (Program.consistent_iff_wellFormed.mp hp), ?_⟩
  intro p settings hnew calls hrange hkeeps
  obtain ⟨t, hrun, ht⟩ := run_preserves (P := fun s => s.exchange.Accepted)
    step_accepted (accepted_of_tryNew hnew) hkeeps hrange
  exact ⟨t, hrun, ht.cycles⟩

/-- Two cycles and a borrowed dual, with changes of the primal and of a dual in between. -/
theorem checkOut_decided_twoRows :
    (Exchange.new Program.twoRows .standard).Decided ∧
      ∃ t, (start (.new Program.twoRows .standard)).run
        [.changePrimal (.edit (.addTerm ⟨1⟩ ⟨1⟩ 3)), .checkOut 0,
          .changeDual (.edit .addConstraint), .checkIn, .changePrimal (.edit .addConstraint),
          .changePrimal (.edit .addNonnegCone), .borrow 0 [.edit .addNonnegCone] true,
          .checkOut 0] = some t ∧ t.exchange.Cycles :=
  have hnew : tryNew Program.twoRows .standard = .ok (.new Program.twoRows .standard) := rfl
  have h := checkOut_decided (x := .new Program.twoRows .standard) rfl (by decide)
  ⟨h.1, h.2 hnew
    ⟨fun _ => ⟨by decide, by decide⟩, fun _ => ⟨trivial, fun _ => ⟨fun _ => trivial, fun _ =>
      ⟨trivial, fun _ => ⟨fun _ => trivial, fun _ => ⟨fun _ => trivial, fun _ =>
        ⟨fun _ => ⟨trivial, fun _ => trivial⟩, fun _ => ⟨trivial, fun _ => trivial⟩⟩⟩⟩⟩⟩⟩⟩
    (by simp [Call.KeepsSupport])⟩

end Exchange

end Conic
