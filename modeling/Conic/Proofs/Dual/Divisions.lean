import Conic.Proofs.Dual.Transpose
import Conic.Proofs.Dual.Warnings
import Conic.Proofs.PartialRat

/-!
# Divisions by zero

The choice of a slack does not look at coefficients, so a chosen slack may have the coefficient
zero, also when another candidate has not. Over numbers for which a division by zero is undefined,
the dual tells where this has happened.

* `Program.ZeroSlack` — a chosen slack by whose coefficient, zero, the construction divides.
* `Dual.Divides` — which numbers of a dual are defined; `WellFormed.derivedDual_divides`.
* `Exchange.checkOut_divides` — **a checkout warns of each division by zero, and nothing else leaves
  a number undefined.**
* `Exchange.checkOut_zeroSlack` — a division by zero although there is another candidate.
-/

set_option autoImplicit false

namespace Conic

/-! ## The specification -/

/-- All costs, right-hand sides and coefficients are actual numbers. -/
structure Program.Defined (p : Program PartialRat) : Prop where
  cost : ∀ v x, p.var? v = some x → x.cost.Defined
  rhs : ∀ c row, p.constraint? c = some row → row.rhs.Defined
  term : ∀ c row, p.constraint? c = some row → ∀ t ∈ row.terms.toList, t.2.Defined

/-- The chosen slack of constraint `c` is `v`, and its coefficient is zero, which is not tolerated
as one. -/
structure Program.ZeroSlack (p : Program PartialRat) (settings : Settings PartialRat)
    (c : ConstraintId) (v : VarId) : Prop where
  chosen : p.slackOf settings.slackChoice c = some v
  coefficient : p.coefficient? c v = some 0
  tolerance : settings.unitTolerance < 1

/-- Which numbers of a dual are defined. -/
structure Dual.Divides (d : Dual PartialRat) (p : Program PartialRat)
    (settings : Settings PartialRat) : Prop where
  /-- The objective coefficient of a multiplier is defined unless the slack is a zero slack. -/
  cost : ∀ {c y x}, d.multiplier? c = some y → d.program.var? y = some x →
    (x.cost.Defined ↔ ∀ v, ¬p.ZeroSlack settings c v)
  /-- So are its coefficients in the constraints. -/
  term : ∀ {c y r b}, d.multiplier? c = some y → d.program.coefficient? r y = some b →
    (b.Defined ↔ ∀ v, ¬p.ZeroSlack settings c v)
  /-- All other numbers are defined. -/
  otherCost : ∀ {u x}, (∀ c, d.multiplier? c ≠ some u) → d.program.var? u = some x → x.cost.Defined
  otherTerm : ∀ {u r b}, (∀ c, d.multiplier? c ≠ some u) → d.program.coefficient? r u = some b →
    b.Defined
  rhs : ∀ {r row}, d.program.constraint? r = some row → row.rhs.Defined

namespace Program

variable {p : Program PartialRat} {settings : Settings PartialRat} {c : ConstraintId} {v : VarId}
  {a : PartialRat}

/-! ## Programs with defined numbers -/

theorem defined_iff : p.Defined ↔ (∀ x ∈ p.vars.toList, x.cost.Defined) ∧
    (∀ row ∈ p.constraints.toList, row.rhs.Defined) ∧
    ∀ row ∈ p.constraints.toList, ∀ t ∈ row.terms.toList, t.2.Defined := by
  rw [← forall_var?_iff, ← forall_constraint?_iff, ← forall_constraint?_iff]
  exact ⟨fun h => ⟨h.cost, h.rhs, h.term⟩, fun ⟨hcost, hrhs, hterm⟩ => ⟨hcost, hrhs, hterm⟩⟩

instance decidableDefined (p : Program PartialRat) : Decidable p.Defined :=
  decidable_of_iff _ defined_iff.symm

theorem Defined.coefficient (h : p.Defined) (ha : p.coefficient? c v = some a) : a.Defined := by
  obtain ⟨row, hrow, ha⟩ := Option.bind_eq_some_iff.mp ha
  exact h.term c row hrow (v, a) (Terms.coefficient?_eq_some_iff.mp ha)

/-! ## Divisors -/

/-- Zero is not close to one, unless it is tolerated. -/
theorem countsAsUnit_zero (htol : settings.unitTolerance.Defined) :
    Dual.countsAsUnit settings.unitTolerance 0 = false ↔ settings.unitTolerance < 1 := by
  rw [Dual.countsAsUnit, decide_eq_false_iff_not, PartialRat.abs_zero_sub_one_le_iff htol, not_not]

/-- The divisors that are zero. -/
theorem divisorOf?_eq_zero_iff (htol : settings.unitTolerance.Defined) :
    p.divisorOf? settings c = some 0 ↔ ∃ v, p.ZeroSlack settings c v := by
  constructor
  · intro hzero
    obtain ⟨hbind, hunit⟩ := Option.filter_eq_some_iff.mp hzero
    obtain ⟨v, hv, hk⟩ := Option.bind_eq_some_iff.mp hbind
    exact ⟨v, hv, hk, (countsAsUnit_zero htol).mp (by simpa using hunit)⟩
  · rintro ⟨v, hv, hk, hone⟩
    rw [divisorOf?_of_slackOf hv hk, (countsAsUnit_zero htol).mpr hone]
    rfl

theorem Defined.divisor (h : p.Defined) {k : PartialRat} (hk : p.divisorOf? settings c = some k) :
    k.Defined := by
  obtain ⟨hbind, _⟩ := Option.filter_eq_some_iff.mp hk
  obtain ⟨v, _, hcoefficient⟩ := Option.bind_eq_some_iff.mp hbind
  exact h.coefficient hcoefficient

/-- A number of a constraint stays defined in the dual unless the slack of the constraint is a zero
slack. -/
theorem normalized_defined_iff (h : p.Defined) (htol : settings.unitTolerance.Defined)
    (ha : a.Defined) :
    (p.normalized settings c a).Defined ↔ ∀ v, ¬p.ZeroSlack settings c v := by
  rw [normalized_eq, ← not_exists, ← divisorOf?_eq_zero_iff htol]
  cases hk : p.divisorOf? settings c with
  | none => exact iff_of_true ha (by simp)
  | some k => rw [dividedBy, PartialRat.div_defined_iff ha (h.divisor hk), Option.some.injEq]

/-- The warnings are those of zero slacks. -/
theorem WellFormed.mem_zeroSlacks_iff (h : p.WellFormed) (htol : settings.unitTolerance.Defined) :
    v ∈ p.zeroSlacks settings ↔ ∃ c, p.ZeroSlack settings c v := by
  rw [zeroSlacks, List.mem_filter]
  constructor
  · rintro ⟨_, hzero⟩
    obtain ⟨c, hrow, hzero⟩ := (Option.any_eq_true _ _).mp hzero
    obtain ⟨k, hk, hzero⟩ := (Option.any_eq_true _ _).mp hzero
    obtain rfl := PartialRat.beq_zero_iff.mp hzero
    obtain ⟨u, hu⟩ := (divisorOf?_eq_zero_iff htol).mp hk
    have hv : p.slackOf settings.slackChoice c = some v := h.slackRow?_eq_some_iff.mp hrow
    obtain rfl := Option.some.inj (hv.symm.trans hu.chosen)
    exact ⟨c, hu⟩
  · rintro ⟨c, hzero⟩
    refine ⟨h.mem_varIds_of_slackOf hzero.chosen, ?_⟩
    rw [isZeroSlack, h.slackRow?_eq_some_iff.mpr hzero.chosen, Option.any_some,
      (divisorOf?_eq_zero_iff htol).mpr ⟨v, hzero⟩, Option.any_some]
    exact PartialRat.beq_zero_iff.mpr rfl

end Program

namespace Dual.Transposes

variable {d : Dual PartialRat} {p : Program PartialRat} {settings : Settings PartialRat}
  {r : ConstraintId} {u : VarId} {b : PartialRat}

/-- Every constraint of the dual belongs to a variable of the primal. -/
theorem exists_var (ht : d.Transposes p settings) (h : p.WellFormed) {row : Constraint PartialRat}
    (hrow : d.program.constraint? r = some row) :
    ∃ v x, p.var? v = some x ∧ d.constraintOf? v = some r := by
  have hr : some r ∈ d.program.constraintIds.map some :=
    List.mem_map_of_mem (Program.mem_constraintIds_iff.mpr ⟨row, hrow⟩)
  rw [← ht.rows] at hr
  obtain ⟨v, hv, hconstraint⟩ := List.mem_map.mp hr
  obtain ⟨x, hx⟩ := Program.mem_varIds_iff.mp (h.mem_varIds_of_mem_ordinaryVars hv)
  exact ⟨v, x, hx, hconstraint⟩

/-- A right-hand side of the dual is minus one times a cost of the primal. -/
theorem rhs_eq_neg_cost (ht : d.Transposes p settings) (h : p.WellFormed)
    {row : Constraint PartialRat} (hrow : d.program.constraint? r = some row) :
    ∃ v x, p.var? v = some x ∧ row.rhs = -x.cost := by
  obtain ⟨v, x, hx, hconstraint⟩ := ht.exists_var h hrow
  obtain ⟨row', w, hrow', hrhs, _⟩ := ht.row hx hconstraint
  obtain rfl := Option.some.inj (hrow.symm.trans hrow')
  exact ⟨v, x, hx, hrhs⟩

/-- A coefficient of the dual is minus one, or stands on a multiplier and comes from the primal. -/
theorem coefficient_cases (ht : d.Transposes p settings) (h : p.WellFormed)
    (hb : d.program.coefficient? r u = some b) :
    (b = -1 ∧ ∀ c, d.multiplier? c ≠ some u) ∨
      ∃ c v a, d.multiplier? c = some u ∧ p.coefficient? c v = some a ∧
        b = p.normalized settings c a := by
  obtain ⟨row, hrow, hb⟩ := Option.bind_eq_some_iff.mp hb
  obtain ⟨v, x, hx, hconstraint⟩ := ht.exists_var h hrow
  obtain ⟨row', w, hrow', _, howns, hterms⟩ := ht.row hx hconstraint
  obtain rfl := Option.some.inj (hrow.symm.trans hrow')
  rcases (hterms u b).mp hb with ⟨rfl, rfl⟩ | ⟨c, a, ha, hu, rfl⟩
  · exact Or.inl ⟨rfl, howns.fresh⟩
  · exact Or.inr ⟨c, v, a, hu, ha, rfl⟩

/-- A variable that is no multiplier costs nothing. -/
theorem cost_eq_zero (ht : d.Transposes p settings) (hu : ∀ c, d.multiplier? c ≠ some u)
    {x : Variable PartialRat} (hx : d.program.var? u = some x) : x.cost = 0 := by
  rcases ht.vars hx with ⟨c, hc⟩ | ⟨_, _, hidle⟩ | ⟨_, _, _, howns⟩
  · exact absurd hc (hu c)
  · obtain ⟨x', hx', hcost, _⟩ := hidle.cost
    rw [Option.some.inj (hx.symm.trans hx'), hcost]
  · obtain ⟨x', hx', _, hcost⟩ := howns.nonneg
    rw [Option.some.inj (hx.symm.trans hx'), hcost]

end Dual.Transposes

/-! ## The derived dual -/

namespace Program.WellFormed

variable {p : Program PartialRat} {settings : Settings PartialRat}

/-- **The numbers of the derived dual that are undefined** are those on the multipliers of the
constraints with a zero slack. -/
theorem derivedDual_divides (h : p.WellFormed) (hdata : p.Defined)
    (htol : settings.unitTolerance.Defined) : (p.derivedDual settings).Divides p settings := by
  have ht : (p.derivedDual settings).Transposes p settings := derivedDual_transposes h
  constructor
  case cost =>
    intro c y x hy hx
    obtain ⟨row, hrow⟩ := mem_constraintIds_iff.mp (multiplier?_derivedDual_eq_some_iff.mp hy).1
    obtain ⟨x', hx', hcost⟩ := ht.multiplier_cost hrow hy
    obtain rfl := Option.some.inj (hx.symm.trans hx')
    rw [hcost, normalized_defined_iff hdata htol (hdata.rhs c row hrow)]
  case term =>
    intro c y r b hy hb
    rcases ht.coefficient_cases h hb with ⟨_, hnot⟩ | ⟨c', v, a, hy', ha, rfl⟩
    · exact absurd hy (hnot c)
    · obtain rfl := ht.multiplier_injective hy' hy
      exact normalized_defined_iff hdata htol (hdata.coefficient ha)
  case otherCost =>
    intro u x hu hx
    rw [ht.cost_eq_zero hu hx]
    exact PartialRat.defined_zero
  case otherTerm =>
    intro u r b hu hb
    rcases ht.coefficient_cases h hb with ⟨rfl, _⟩ | ⟨c, _, _, hc, _⟩
    · exact PartialRat.defined_neg_one
    · exact absurd hc (hu c)
  case rhs =>
    intro r row hrow
    obtain ⟨v, x, hx, hrhs⟩ := ht.rhs_eq_neg_cost h hrow
    rw [hrhs, PartialRat.neg_defined_iff]
    exact hdata.cost v x hx

end Program.WellFormed

/-- Without zero slacks all numbers are defined. -/
theorem Dual.Divides.defined {d : Dual PartialRat} {p : Program PartialRat}
    {settings : Settings PartialRat} (hd : d.Divides p settings)
    (hnot : ∀ c v, ¬p.ZeroSlack settings c v) : d.program.Defined := by
  constructor
  case cost =>
    intro u x hx
    by_cases hu : ∃ c, d.multiplier? c = some u
    · obtain ⟨c, hc⟩ := hu
      exact (hd.cost hc hx).mpr (hnot c)
    · exact hd.otherCost (not_exists.mp hu) hx
  case rhs => exact fun r row => hd.rhs
  case term =>
    rintro r row hrow ⟨u, b⟩ ht
    have hb : d.program.coefficient? r u = some b :=
      (Program.coefficient?_eq hrow u).trans (Terms.coefficient?_eq_some_iff.mpr ht)
    by_cases hu : ∃ c, d.multiplier? c = some u
    · obtain ⟨c, hc⟩ := hu
      exact (hd.term hc hb).mpr (hnot c)
    · exact hd.otherTerm (not_exists.mp hu) hb

namespace Program.WellFormed

variable {p : Program PartialRat} {settings : Settings PartialRat}

/-- **The derived dual has no undefined number exactly if no chosen slack is a zero slack.** -/
theorem derivedDual_defined_iff (h : p.WellFormed) (hdata : p.Defined)
    (htol : settings.unitTolerance.Defined) :
    (p.derivedDual settings).program.Defined ↔ p.zeroSlacks settings = [] := by
  have hd := h.derivedDual_divides hdata htol
  rw [List.eq_nil_iff_forall_not_mem]
  constructor
  · intro hdefined v hv
    obtain ⟨c, hzero⟩ := (h.mem_zeroSlacks_iff htol).mp hv
    have hc : c ∈ p.constraintIds := mem_constraintIds_of_slackOf hzero.chosen
    have hy : (p.derivedDual settings).multiplier? c =
        some (p.partVar settings.slackChoice (.multiplier c)) :=
      multiplier?_derivedDual_eq_some_iff.mpr ⟨hc, rfl⟩
    have hx := hdefined.cost _ _ (derivedDual_var?_multiplier hc)
    exact (hd.cost hy (derivedDual_var?_multiplier hc)).mp hx v hzero
  · intro hnil
    exact hd.defined fun c v hzero => hnil v ((h.mem_zeroSlacks_iff htol).mpr ⟨c, hzero⟩)

/-- A coefficient that is not tolerated as one is zero exactly if the construction warns of it. -/
theorem coefficient_eq_zero_iff (h : p.WellFormed) (htol : settings.unitTolerance.Defined)
    {c : ConstraintId} {v : VarId} {k : PartialRat}
    (hv : p.slackOf settings.slackChoice c = some v) (hk : p.coefficient? c v = some k)
    (hunit : ¬Scalar.abs (k - 1) ≤ settings.unitTolerance) :
    k = 0 ↔ v ∈ p.zeroSlacks settings := by
  rw [h.mem_zeroSlacks_iff htol]
  constructor
  · rintro rfl
    rw [PartialRat.abs_zero_sub_one_le_iff htol, not_not] at hunit
    exact ⟨c, hv, hk, hunit⟩
  · rintro ⟨c', hzero⟩
    obtain rfl := h.slackOf_unique hv hzero.chosen
    exact Option.some.inj (hk.symm.trans hzero.coefficient)

end Program.WellFormed

/-! ## Checking out -/

/-- A valid tolerance is an actual number. -/
theorem Exchange.tolerance_defined {settings : Settings PartialRat}
    (h : checkSettings settings = .ok ()) : settings.unitTolerance.Defined := by
  unfold checkSettings Settings.fault? at h
  split at h
  · cases h
  · rename_i hnone
    split at hnone
    · rename_i hvalid
      exact of_decide_eq_true ((Bool.and_eq_true _ _).mp hvalid).1
    · cases hnone

/-- **A checkout warns of each division by zero, and nothing else leaves a number undefined.** A
chosen slack whose coefficient is not tolerated as one has the coefficient zero exactly if there is
a warning; there is one warning of each. Every cost, right-hand side and coefficient of the dual is
defined if there is no warning, and if there are some, all but those on the multipliers that are
divided by zero. -/
theorem Exchange.checkOut_divides {x : Exchange PartialRat} (h : x.Ready)
    (hdata : x.primal.Defined) (elapsed : Nat) :
    ∃ x' d warned, (x.checkOut elapsed).result = .ok x' ∧ x'.state = .checkedOut d ∧
      (x.checkOut elapsed).reported Event.zeroSlack? = warned ∧ warned.Nodup ∧
      (∀ v, v ∈ warned ↔ ∃ c, x.primal.ZeroSlack x.settings c v) ∧
      (∀ {c v k}, x.primal.slackOf x.settings.slackChoice c = some v →
        x.primal.coefficient? c v = some k → ¬Scalar.abs (k - 1) ≤ x.settings.unitTolerance →
        (k = 0 ↔ v ∈ warned)) ∧
      (d.program.Defined ↔ warned = []) ∧ d.Divides x.primal x.settings := by
  have hp : x.primal.WellFormed := wellFormed_of_checkRecords h.records
  have htol : x.settings.unitTolerance.Defined := tolerance_defined h.settings
  obtain ⟨x', hresult, hstate, _⟩ := checkOut_result h elapsed
  exact ⟨x', _, _, hresult, hstate, reported_checkOut h elapsed, x.primal.varIds_nodup.filter _,
    fun v => hp.mem_zeroSlacks_iff htol, hp.coefficient_eq_zero_iff htol,
    hp.derivedDual_defined_iff hdata htol, hp.derivedDual_divides hdata htol⟩

/-- The least `x₂` with `2·x₀ + 3·x₂ = 5` and `0·x₁ + 4·x₂ = 7`. The slacks are `x₀` and `x₁`. -/
def Program.unevenSlacks : Program PartialRat where
  vars := #[⟨⟨0⟩, 0, 0, [⟨0⟩]⟩, ⟨⟨1⟩, 0, 0, [⟨1⟩]⟩, ⟨⟨2⟩, 1, 0, [⟨0⟩, ⟨1⟩]⟩]
  cones := #[.nonneg ⟨0⟩, .nonneg ⟨1⟩, .nonneg ⟨2⟩]
  constraints := #[⟨⟨[(⟨0⟩, .of 2), (⟨2⟩, .of 3)], by decide⟩, .of 5, 0⟩,
    ⟨⟨[(⟨1⟩, 0), (⟨2⟩, .of 4)], by decide⟩, .of 7, 0⟩]
  point := #[0, 0, 0]

theorem Exchange.unevenSlacks_ready : (Exchange.new Program.unevenSlacks .standard).Ready :=
  ⟨rfl, by rfl, by rfl, fun _ => by rfl⟩

/-- The multiplier of the first constraint is halved. That of the second one is divided by zero, which
the checkout warns of, and all its coefficients are undefined. -/
theorem Exchange.checkOut_divides_unevenSlacks :
    ∃ x' d, ((Exchange.new Program.unevenSlacks .standard).checkOut 0).result = .ok x' ∧
      x'.state = .checkedOut d ∧
      ((Exchange.new Program.unevenSlacks .standard).checkOut 0).reported Event.zeroSlack? = [⟨1⟩] ∧
      ¬d.program.Defined ∧ ∃ y z r, d.multiplier? ⟨0⟩ = some y ∧ d.multiplier? ⟨1⟩ = some z ∧
        d.constraintOf? ⟨2⟩ = some r ∧ d.program.costOf y = .of (5 / 2) ∧
        d.program.coefficient? r y = some (.of (3 / 2)) ∧ d.program.costOf z = .undefined ∧
        d.program.coefficient? r z = some .undefined ∧
        ∀ {s b}, d.program.coefficient? s z = some b → ¬b.Defined := by
  obtain ⟨x', d, warned, hresult, hstate, hwarned, _, _, _, hdefined, hdivides⟩ :=
    checkOut_divides unevenSlacks_ready (by decide +kernel) 0
  have hone : warned = [⟨1⟩] := hwarned.symm.trans (by decide +kernel)
  have hslack : Program.unevenSlacks.ZeroSlack .standard ⟨1⟩ ⟨1⟩ :=
    ⟨by decide +kernel, by decide +kernel, by decide +kernel⟩
  have hsome : ¬d.program.Defined := fun hall =>
    absurd (hone.symm.trans (hdefined.mp hall)) (List.cons_ne_nil _ _)
  obtain ⟨x'', hresult', hdual, _⟩ := checkOut_result unevenSlacks_ready 0
  obtain rfl := Except.ok.inj (hresult.symm.trans hresult')
  cases hstate.symm.trans hdual
  have hz : (Program.unevenSlacks.derivedDual .standard).multiplier? ⟨1⟩ = some ⟨1⟩ := by
    decide +kernel
  exact ⟨x', _, hresult, hstate, hwarned.trans hone, hsome, ⟨0⟩, ⟨1⟩, ⟨0⟩, by decide +kernel, hz,
    by decide +kernel, by decide +kernel, by decide +kernel, by decide +kernel, by decide +kernel,
    fun hb hnumber => (hdivides.term hz hb).mp hnumber _ hslack⟩

/-- A constraint `0·x₀ + x₁ = 5` without costs. Either variable could be the slack. -/
def Program.zeroBeside : Program PartialRat where
  vars := #[⟨⟨0⟩, 0, 0, [⟨0⟩]⟩, ⟨⟨1⟩, 0, 0, [⟨0⟩]⟩]
  cones := #[.nonneg ⟨0⟩, .nonneg ⟨1⟩]
  constraints := #[⟨⟨[(⟨0⟩, 0), (⟨1⟩, 1)], by decide⟩, .of 5, 0⟩]
  point := #[0, 0]

theorem Exchange.zeroBeside_ready : (Exchange.new Program.zeroBeside .standard).Ready :=
  ⟨rfl, by rfl, by rfl, fun _ => by rfl⟩

/-- **A chosen slack may have the coefficient zero although another candidate does not.** The
objective coefficient of the multiplier and its coefficient in the constraint of the other variable
are then undefined. -/
theorem Exchange.checkOut_zeroSlack :
    (Settings.standard : Settings PartialRat).fault? = none ∧
    Program.zeroBeside.consistent = true ∧ Program.zeroBeside.Defined ∧
    Program.zeroBeside.slackOf .first ⟨0⟩ = some ⟨0⟩ ∧
    Program.zeroBeside.coefficient? ⟨0⟩ ⟨0⟩ = some 0 ∧
    ¬Scalar.abs (0 - 1 : PartialRat) ≤ (Settings.standard : Settings PartialRat).unitTolerance ∧
    Program.zeroBeside.isSlack? ⟨1⟩ = some true ∧
    Program.zeroBeside.coefficient? ⟨0⟩ ⟨1⟩ = some 1 ∧
    ∃ x' d y r, ((Exchange.new Program.zeroBeside .standard).checkOut 0).result = .ok x' ∧
      x'.state = .checkedOut d ∧ d.multiplier? ⟨0⟩ = some y ∧ d.constraintOf? ⟨1⟩ = some r ∧
      ¬(d.program.costOf y).Defined ∧ d.program.coefficient? r y = some .undefined := by
  obtain ⟨x', hresult, hstate, _⟩ := checkOut_result zeroBeside_ready 0
  exact ⟨by decide +kernel, by decide +kernel, by decide +kernel, by decide +kernel,
    by decide +kernel, by decide +kernel, by decide +kernel, by decide +kernel, x', _, ⟨0⟩, ⟨0⟩,
    hresult, hstate, by decide +kernel, by decide +kernel, by decide +kernel, by decide +kernel⟩

end Conic
