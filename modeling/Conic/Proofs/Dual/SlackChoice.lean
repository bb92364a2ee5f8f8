import Conic.Dual.Construction
import Conic.Proofs.Program.WellFormed

/-!
# The chosen slacks

In a well-formed program every look-up behind the choice of a slack succeeds, so the choice is a
plain function of the constraint.

* `Program.slackOf` — the slack chosen for a constraint; `WellFormed.slack?_eq`.
* `WellFormed.slackOf_unique` — no variable is the chosen slack of two constraints.
* `Program.ordinaryVars` — the nonnegative variables that are no chosen slack.
* `Program.SlacksNonzero` — no chosen slack has coefficient zero.
* `Program.SlackEverywhere` — every constraint has a slack.
* `Program.divisorOf?` — the coefficient by which a multiplier is divided, if it is.
-/

set_option autoImplicit false

namespace Conic.Program

variable {α : Type}

/-- The cone that owns `v` is the nonnegative cone of `v` alone. -/
theorem WellFormed.cone_of_kind_nonneg {p : Program α} (h : p.WellFormed) {v : VarId}
    {x : Variable α} {cone : Cone} (hx : p.var? v = some x) (hcone : p.cone? x.cone = some cone)
    (hkind : cone.kind = .nonneg) : cone = .nonneg v := by
  obtain ⟨cone', hcone', hmem⟩ := h.listed hx
  rw [hcone] at hcone'
  cases hcone'
  cases cone with
  | nonneg u => rw [List.mem_singleton.mp hmem]
  | secondOrder members => cases hkind

variable [Scalar α] {p : Program α} {choice : SlackChoice} {c c' : ConstraintId} {v : VarId}

/-- Does the variable qualify as a slack? A variable that does not exist does not. -/
def isSlack (p : Program α) (v : VarId) : Bool :=
  (p.isSlack? v).getD false

/-- The slack chosen for a constraint. -/
def slackOf (p : Program α) (choice : SlackChoice) (c : ConstraintId) : Option VarId :=
  (p.constraint? c).bind fun row =>
    match choice with
    | .first => row.terms.vars.find? p.isSlack
    | .last => row.terms.vars.reverse.find? p.isSlack

/-- The constraint whose chosen slack is `v`. -/
def slackRow? (p : Program α) (choice : SlackChoice) (v : VarId) : Option ConstraintId :=
  p.constraintIds.find? fun c => p.slackOf choice c = some v

/-- The nonnegative variables that are no chosen slack, in the order of their cones. -/
def ordinaryVars (p : Program α) (choice : SlackChoice) : List VarId :=
  p.nonnegVars.filter fun v => (p.slackRow? choice v).isNone

/-- The coefficient of the chosen slack, unless there is none or it counts as one. -/
def divisorOf? (p : Program α) (settings : Settings α) (c : ConstraintId) : Option α :=
  ((p.slackOf settings.slackChoice c).bind (p.coefficient? c)).filter fun k =>
    !Dual.countsAsUnit settings.unitTolerance k

/-! ## What a slack is -/

theorem isSlack?_eq_some_true_iff : p.isSlack? v = some true ↔ ∃ x cone, p.var? v = some x ∧
    x.constraints.length = 1 ∧ p.cone? x.cone = some cone ∧ cone.kind = .nonneg ∧
    (x.cost == 0) = true := by
  unfold isSlack?
  cases hx : p.var? v with
  | none => simp
  | some x =>
    by_cases hlen : x.constraints.length = 1
    · cases hcone : p.cone? x.cone <;> simp [hlen, hcone]
    · simp [hlen]

theorem isSlack_iff : p.isSlack v = true ↔ p.isSlack? v = some true := by
  unfold isSlack
  cases p.isSlack? v <;> simp

namespace WellFormed

theorem isSlack?_eq (h : p.WellFormed) {x : Variable α} (hx : p.var? v = some x) :
    p.isSlack? v = some (p.isSlack v) := by
  obtain ⟨cone, hcone, _⟩ := h.listed hx
  unfold isSlack isSlack?
  by_cases hlen : x.constraints.length = 1 <;> simp [hx, hcone, hlen]

end WellFormed

/-! ## The choice -/

theorem firstSlack?_eq {l : List VarId} (hl : ∀ v ∈ l, p.isSlack? v = some (p.isSlack v)) :
    p.firstSlack? l = some (l.find? p.isSlack) := by
  induction l with
  | nil => rfl
  | cons u l ih =>
    rw [firstSlack?, hl u List.mem_cons_self, Option.bind_some, List.find?_cons,
      ih fun v hv => hl v (List.mem_cons_of_mem u hv)]
    cases p.isSlack u <;> rfl

theorem lastSlack?_eq {l : List VarId} (hl : ∀ v ∈ l, p.isSlack? v = some (p.isSlack v)) :
    ∀ found, p.lastSlack? found l = some ((l.reverse.find? p.isSlack).or found) := by
  induction l with
  | nil => intro found; rfl
  | cons u l ih =>
    intro found
    rw [lastSlack?, hl u List.mem_cons_self, Option.bind_some,
      ih fun v hv => hl v (List.mem_cons_of_mem u hv), List.reverse_cons, List.find?_append,
      Option.or_assoc, List.find?_singleton]
    cases p.isSlack u <;> rfl

theorem slackOf_eq_some (hv : p.slackOf choice c = some v) :
    ∃ row, p.constraint? c = some row ∧ v ∈ row.terms.vars ∧ p.isSlack? v = some true := by
  unfold slackOf at hv
  obtain ⟨row, hrow, hv⟩ := Option.bind_eq_some_iff.mp hv
  refine ⟨row, hrow, ?_, isSlack_iff.mp ?_⟩
  · cases choice with
    | first => exact List.mem_of_find?_eq_some hv
    | last => exact List.mem_reverse.mp (List.mem_of_find?_eq_some hv)
  · cases choice with
    | first => exact List.find?_some hv
    | last => exact List.find?_some hv

theorem mem_constraintIds_of_slackOf (hv : p.slackOf choice c = some v) : c ∈ p.constraintIds := by
  obtain ⟨row, hrow, _⟩ := slackOf_eq_some hv
  exact mem_constraintIds_iff.mpr ⟨row, hrow⟩

/-- A chosen slack has a coefficient. -/
theorem exists_coefficient_of_slackOf (hv : p.slackOf choice c = some v) :
    ∃ k, p.coefficient? c v = some k := by
  obtain ⟨row, hrow, hmem, _⟩ := slackOf_eq_some hv
  obtain ⟨k, hk⟩ := Terms.mem_vars_iff_coefficient?.mp hmem
  exact ⟨k, (coefficient?_eq hrow v).trans hk⟩

/-- The divisor of a constraint with a slack. -/
theorem divisorOf?_of_slackOf {settings : Settings α} {k : α}
    (hv : p.slackOf settings.slackChoice c = some v) (hk : p.coefficient? c v = some k) :
    p.divisorOf? settings c =
      if Dual.countsAsUnit settings.unitTolerance k then none else some k := by
  unfold divisorOf?
  rw [hv, Option.bind_some, hk, Option.filter_some]
  cases Dual.countsAsUnit settings.unitTolerance k <;> rfl

/-- Every chosen slack has a coefficient other than zero. -/
def SlacksNonzero (p : Program α) (choice : SlackChoice) : Prop :=
  ∀ {c : ConstraintId} {v : VarId}, p.slackOf choice c = some v → p.coefficient? c v ≠ some 0

theorem slacksNonzero_iff :
    p.SlacksNonzero choice ↔
      ∀ c ∈ p.constraintIds, (p.slackOf choice c).bind (p.coefficient? c) ≠ some 0 := by
  constructor
  · intro h c _ hzero
    obtain ⟨v, hv, hk⟩ := Option.bind_eq_some_iff.mp hzero
    exact h hv hk
  · intro h c v hv hk
    exact h c (mem_constraintIds_of_slackOf hv) (Option.bind_eq_some_iff.mpr ⟨v, hv, hk⟩)

instance decidableSlacksNonzero [DecidableEq α] (p : Program α) (choice : SlackChoice) :
    Decidable (p.SlacksNonzero choice) :=
  decidable_of_iff _ slacksNonzero_iff.symm

theorem slackOf_isSome_iff {row : Constraint α} (hrow : p.constraint? c = some row) :
    (p.slackOf choice c).isSome = true ↔ ∃ v ∈ row.terms.vars, p.isSlack? v = some true := by
  simp only [← isSlack_iff]
  unfold slackOf
  cases choice <;> simp [hrow, List.find?_isSome]

/-- Every constraint has a slack among its terms. -/
def SlackEverywhere (p : Program α) : Prop :=
  ∀ {c : ConstraintId} {row : Constraint α}, p.constraint? c = some row →
    ∃ v ∈ row.terms.vars, p.isSlack? v = some true

theorem SlackEverywhere.exists_slackOf (hslack : p.SlackEverywhere) (choice : SlackChoice)
    (hc : c ∈ p.constraintIds) : ∃ v, p.slackOf choice c = some v := by
  obtain ⟨row, hrow⟩ := mem_constraintIds_iff.mp hc
  exact Option.isSome_iff_exists.mp ((slackOf_isSome_iff hrow).mpr (hslack hrow))

instance decidableSlackEverywhere (p : Program α) : Decidable p.SlackEverywhere :=
  decidable_of_iff (∀ row ∈ p.constraints.toList, ∃ v ∈ row.terms.vars, p.isSlack? v = some true)
    (forall_constraint?_iff.symm.trans ⟨fun h _ _ => h _ _, fun h _ _ => h⟩)

namespace WellFormed

variable (h : p.WellFormed)
include h

theorem slack?_eq {row : Constraint α} (hrow : p.constraint? c = some row) :
    p.slack? choice row = some (p.slackOf choice c) := by
  have hl : ∀ v ∈ row.terms.vars, p.isSlack? v = some (p.isSlack v) := by
    intro v hv
    obtain ⟨x, hx⟩ := h.term_var hrow hv
    exact h.isSlack?_eq hx
  unfold slack? slackOf
  cases choice with
  | first => simp only [firstSlack?_eq hl, hrow, Option.bind_some]
  | last => simp only [lastSlack?_eq hl, hrow, Option.bind_some, Option.or_none]

/-- A chosen slack is recorded in its constraint alone. -/
theorem slackOf_var (hv : p.slackOf choice c = some v) : ∃ x, p.var? v = some x ∧
    x.constraints = [c] ∧ p.cone? x.cone = some (.nonneg v) ∧ (x.cost == 0) = true := by
  obtain ⟨row, hrow, hmem, hslack⟩ := slackOf_eq_some hv
  obtain ⟨x, cone, hx, hlen, hcone, hkind, hcost⟩ := isSlack?_eq_some_true_iff.mp hslack
  have hc : c ∈ x.constraints := (h.recorded c hx).mpr ⟨row, hrow, hmem⟩
  obtain ⟨d, hd⟩ := List.length_eq_one_iff.mp hlen
  rw [hd, List.mem_singleton] at hc
  rw [h.cone_of_kind_nonneg hx hcone hkind] at hcone
  exact ⟨x, hx, by rw [hd, hc], hcone, hcost⟩

theorem mem_varIds_of_slackOf (hv : p.slackOf choice c = some v) : v ∈ p.varIds := by
  obtain ⟨x, hx, _⟩ := h.slackOf_var hv
  exact mem_varIds_iff.mpr ⟨x, hx⟩

theorem mem_nonnegVars_of_slackOf (hv : p.slackOf choice c = some v) : v ∈ p.nonnegVars := by
  obtain ⟨x, _, _, hcone, _⟩ := h.slackOf_var hv
  exact mem_nonnegVars_iff.mpr ⟨x.cone, hcone⟩

/-- **No variable is the chosen slack of two constraints.** -/
theorem slackOf_unique (hv : p.slackOf choice c = some v) (hv' : p.slackOf choice c' = some v) :
    c = c' := by
  obtain ⟨x, hx, hc, _⟩ := h.slackOf_var hv
  obtain ⟨x', hx', hc', _⟩ := h.slackOf_var hv'
  rw [hx] at hx'
  cases hx'
  rw [hc] at hc'
  cases hc'
  rfl

/-- The chosen slack of a constraint has no term in another one. -/
theorem coefficient?_of_slackOf (hv : p.slackOf choice c' = some v) (hc : c ≠ c') :
    p.coefficient? c v = none := by
  obtain ⟨x, hx, hconstraints, _⟩ := h.slackOf_var hv
  rw [Option.eq_none_iff_forall_ne_some]
  intro a ha
  obtain ⟨row, hrow, hcoefficient⟩ := Option.bind_eq_some_iff.mp ha
  have hmem : c ∈ x.constraints := (h.recorded c hx).mpr
    ⟨row, hrow, Terms.mem_vars_iff_coefficient?.mpr ⟨a, hcoefficient⟩⟩
  rw [hconstraints] at hmem
  exact hc (List.mem_singleton.mp hmem)

theorem slackRow?_eq_some_iff : p.slackRow? choice v = some c ↔ p.slackOf choice c = some v := by
  unfold slackRow?
  constructor
  · intro hc
    simpa using List.find?_some hc
  · intro hc
    obtain ⟨row, hrow, _⟩ := slackOf_eq_some hc
    cases hfind : p.constraintIds.find? fun c => p.slackOf choice c = some v with
    | none =>
      have := List.find?_eq_none.mp hfind c (mem_constraintIds_iff.mpr ⟨row, hrow⟩)
      simp [hc] at this
    | some d =>
      have hd : p.slackOf choice d = some v := by simpa using List.find?_some hfind
      rw [h.slackOf_unique hd hc]

theorem slackRow?_eq_none_iff : p.slackRow? choice v = none ↔ ∀ c, p.slackOf choice c ≠ some v := by
  constructor
  · intro hnone c hc
    rw [(h.slackRow?_eq_some_iff).mpr hc] at hnone
    cases hnone
  · intro hall
    cases hc : p.slackRow? choice v with
    | none => rfl
    | some c => exact absurd ((h.slackRow?_eq_some_iff).mp hc) (hall c)

theorem mem_ordinaryVars_iff : v ∈ p.ordinaryVars choice ↔
    v ∈ p.nonnegVars ∧ ∀ c, p.slackOf choice c ≠ some v := by
  unfold ordinaryVars
  rw [List.mem_filter, Option.isNone_iff_eq_none, h.slackRow?_eq_none_iff]

theorem mem_varIds_of_mem_ordinaryVars (hv : v ∈ p.ordinaryVars choice) : v ∈ p.varIds :=
  h.mem_varIds_of_mem_nonnegVars (h.mem_ordinaryVars_iff.mp hv).1

theorem ordinaryVars_nodup : (p.ordinaryVars choice).Nodup :=
  h.nonnegVars_nodup.filter _

/-- The coefficient of a chosen slack is found through its membership list. -/
theorem slackCoefficient_eq (hv : p.slackOf choice c = some v) :
    ∃ k, p.coefficient? c v = some k ∧ Dual.slackCoefficient p v = .ok k := by
  obtain ⟨x, hx, hc, _⟩ := h.slackOf_var hv
  obtain ⟨row, hrow, hmem, _⟩ := slackOf_eq_some hv
  obtain ⟨k, hk⟩ := Terms.mem_vars_iff_coefficient?.mp hmem
  exact ⟨k, by simp [coefficient?, hrow, hk], by simp [Dual.slackCoefficient, hx, hc, hrow, hk]⟩

end WellFormed

end Conic.Program
