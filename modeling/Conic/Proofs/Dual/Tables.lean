import Mathlib.Logic.Basic
import Conic.Proofs.Dual.Lookup
import Conic.Proofs.Exchange.Deriving

/-!
# The tables of a dual

The four tables are filled in different loops. Together they divide up the primal: every constraint
has a multiplier of one kind, and every nonnegative variable is a slack or has a dual constraint.

* `Program.Qualifies`, `Program.Picks` — which term of a constraint is its chosen slack, said
  without a search.
* `Dual.Bookkeeps` — the tables as a partition and a bijection.
* `Program.derivedDual_bookkeeps` — the closed form of the dual has such tables.
* `Exchange.checkOut_bookkeeps` — **so has every dual that is checked out or borrowed.**
-/

set_option autoImplicit false

namespace Conic

variable {α : Type} [Scalar α]

/-! ## The specification -/

/-- The variable is nonnegative by itself, has a term in one constraint only, and costs nothing. -/
def Program.Qualifies (p : Program α) (v : VarId) : Prop :=
  v ∈ p.nonnegVars ∧ p.occurrences v = 1 ∧ ∃ x, p.var? v = some x ∧ (x.cost == 0) = true

/-- Of the terms of a constraint whose variables qualify, the one on `v` is the first or the
last. -/
def Program.Picks (p : Program α) (choice : SlackChoice) (row : Constraint α) (v : VarId) : Prop :=
  p.Qualifies v ∧ ∃ pre post, row.terms.vars = pre ++ v :: post ∧
    match choice with
    | .first => ∀ u ∈ pre, ¬p.Qualifies u
    | .last => ∀ u ∈ post, ¬p.Qualifies u

/-- The tables of a dual divide up the constraints and the nonnegative variables of a primal. -/
structure Dual.Bookkeeps (d : Dual α) (p : Program α) (choice : SlackChoice) : Prop where
  /-- A constraint has a multiplier of exactly one kind. -/
  kind : ∀ {c : ConstraintId} {row : Constraint α}, p.constraint? c = some row →
    Xor ((d.signedMultiplier? c).isSome = true) ((d.freeMultiplier? c).isSome = true)
  multiplier_isSome : ∀ {c : ConstraintId} {row : Constraint α}, p.constraint? c = some row →
    (d.multiplier? c).isSome = true
  multiplier_injective : ∀ {c c' : ConstraintId} {y : VarId},
    d.multiplier? c = some y → d.multiplier? c' = some y → c = c'
  /-- A nonnegative variable is a chosen slack or has a dual constraint, and not both. -/
  nonneg : ∀ {v : VarId}, v ∈ p.nonnegVars →
    Xor ((d.constraintOf? v).isSome = true) ((d.slackVarOf? v).isSome = true)
  other : ∀ {v : VarId}, v ∉ p.nonnegVars → d.constraintOf? v = none ∧ d.slackVarOf? v = none
  row_exists : ∀ {v : VarId} {r : ConstraintId}, d.constraintOf? v = some r →
    r ∈ d.program.constraintIds
  row_injective : ∀ {v u : VarId} {r : ConstraintId},
    d.constraintOf? v = some r → d.constraintOf? u = some r → v = u
  row_surjective : ∀ {r : ConstraintId}, r ∈ d.program.constraintIds →
    ∃ v, d.constraintOf? v = some r
  /-- The entry of a slack is the multiplier of the one constraint that it occurs in, where it is
  the term that is picked. -/
  slack : ∀ {v y : VarId}, d.slackVarOf? v = some y ↔ ∃ c row, p.constraint? c = some row ∧
    p.constraintsOn v = [c] ∧ p.Picks choice row v ∧ d.signedMultiplier? c = some y
  /-- A free multiplier is the apex of the second-order cone recorded with it. -/
  apex : ∀ {c : ConstraintId} {f : FreeMultiplier}, d.freeMultiplier? c = some f →
    ∃ members, d.program.cone? f.cone = some (.secondOrder members) ∧ members.head? = some f.apex

namespace Program

variable {p : Program α} {settings : Settings α} {choice : SlackChoice} {c : ConstraintId}
  {v : VarId}

/-! ## The chosen slack, without a search -/

omit [Scalar α] in
/-- The length of a membership list is the number of constraints that it should name. -/
theorem WellFormed.length_constraints (h : p.WellFormed) {x : Variable α}
    (hx : p.var? v = some x) : x.constraints.length = p.occurrences v := by
  rw [← length_constraintsOn]
  refine ((List.perm_ext_iff_of_nodup (h.recorded_nodup hx) (p.constraintsOn_nodup v)).mpr
    fun c => ?_).length_eq
  rw [h.recorded c hx, mem_constraintsOn_iff]

theorem WellFormed.isSlack_iff_qualifies (h : p.WellFormed) :
    p.isSlack v = true ↔ p.Qualifies v := by
  rw [isSlack_iff, isSlack?_eq_some_true_iff]
  constructor
  · rintro ⟨x, cone, hx, hlen, hcone, hkind, hcost⟩
    rw [h.cone_of_kind_nonneg hx hcone hkind] at hcone
    exact ⟨mem_nonnegVars_iff.mpr ⟨x.cone, hcone⟩, by rw [← h.length_constraints hx, hlen],
      x, hx, hcost⟩
  · rintro ⟨hv, hlen, x, hx, hcost⟩
    obtain ⟨x', hx', hcone⟩ := h.var_of_mem_nonnegVars hv
    rw [hx] at hx'
    cases hx'
    exact ⟨x, _, hx, by rw [h.length_constraints hx, hlen], hcone, rfl, hcost⟩

/-- The first element with a property is the one without any such element before it. -/
theorem find?_eq_some_iff_split {β : Type} {P : β → Bool} {l : List β} {b : β} :
    l.find? P = some b ↔
      P b = true ∧ ∃ pre post, l = pre ++ b :: post ∧ ∀ a ∈ pre, ¬P a = true := by
  rw [List.find?_eq_some_iff_append]
  simp

theorem WellFormed.slackOf_eq_some_iff_picks (h : p.WellFormed) {row : Constraint α}
    (hrow : p.constraint? c = some row) :
    p.slackOf choice c = some v ↔ p.Picks choice row v := by
  unfold slackOf Picks
  simp only [← h.isSlack_iff_qualifies]
  rw [hrow, Option.bind_some]
  cases choice with
  | first => exact find?_eq_some_iff_split
  | last =>
    -- What precedes an element in the reversed list follows it in the list itself.
    have hreverse : ∀ pre post : List VarId,
        row.terms.vars.reverse = pre ++ v :: post ↔
          row.terms.vars = post.reverse ++ v :: pre.reverse := by
      intro pre post
      rw [List.reverse_eq_iff]
      simp
    refine find?_eq_some_iff_split.trans (and_congr_right fun _ => ?_)
    constructor
    · rintro ⟨pre, post, hsplit, hpre⟩
      exact ⟨post.reverse, pre.reverse, (hreverse pre post).mp hsplit, by simpa using hpre⟩
    · rintro ⟨pre, post, hsplit, hpost⟩
      exact ⟨post.reverse, pre.reverse, (hreverse _ _).mpr (by simpa using hsplit),
        by simpa using hpost⟩

/-! ## The closed form has such tables -/

omit [Scalar α] in
theorem getElem?_constraintIds_of_none (hrow : p.constraint? c = none) :
    p.constraintIds[c.index]? = none := by
  have hge : p.constraints.size ≤ c.index := by simpa [constraint?] using hrow
  simp [constraintIds, hge]

theorem signedMultiplier?_derivedDual_eq_some_iff {y : VarId} :
    (p.derivedDual settings).signedMultiplier? c = some y ↔
      (p.slackOf settings.slackChoice c).isSome = true ∧
        y = p.partVar settings.slackChoice (.multiplier c) := by
  cases hrow : p.constraint? c with
  | some row =>
    have hc : c ∈ p.constraintIds := mem_constraintIds_iff.mpr ⟨row, hrow⟩
    have hentry : (p.derivedDual settings).signedMultipliers[c.index]? = _ :=
      getElem?_constraintTable _ hrow
    unfold Dual.signedMultiplier?
    rw [hentry]
    by_cases hslack : (p.slackOf settings.slackChoice c).isSome = true <;>
      simp [hc, hslack, eq_comm]
  | none =>
    have hout := getElem?_constraintIds_of_none hrow
    have hslack : p.slackOf settings.slackChoice c = none := by simp [slackOf, hrow]
    simp [Dual.signedMultiplier?, derivedDual, rescaledDual, dualOn, signedTable, hout, hslack]

theorem freeMultiplier?_derivedDual_eq_some_iff {f : FreeMultiplier} :
    (p.derivedDual settings).freeMultiplier? c = some f ↔
      c ∈ p.constraintIds ∧ p.slackOf settings.slackChoice c = none ∧
        f = ⟨⟨c.index⟩, p.partVar settings.slackChoice (.multiplier c)⟩ := by
  cases hrow : p.constraint? c with
  | some row =>
    have hc : c ∈ p.constraintIds := mem_constraintIds_iff.mpr ⟨row, hrow⟩
    have hentry : (p.derivedDual settings).freeMultipliers[c.index]? = _ :=
      getElem?_constraintTable _ hrow
    unfold Dual.freeMultiplier?
    rw [hentry]
    cases hslack : p.slackOf settings.slackChoice c <;> simp [hc, eq_comm]
  | none =>
    have hout := getElem?_constraintIds_of_none hrow
    have hc : c ∉ p.constraintIds := by simp [mem_constraintIds_iff, hrow]
    simp [Dual.freeMultiplier?, derivedDual, rescaledDual, dualOn, freeTable, hout, hc]

theorem multiplierCone_of_none (hnone : p.slackOf choice c = none) : p.multiplierCone choice c =
    .secondOrder [p.partVar choice (.multiplier c), p.partVar choice (.auxiliary c)] := by
  rw [multiplierCone, hnone]
  rfl

theorem derivedDual_kind {row : Constraint α} (hrow : p.constraint? c = some row) :
    Xor (((p.derivedDual settings).signedMultiplier? c).isSome = true)
      (((p.derivedDual settings).freeMultiplier? c).isSome = true) := by
  have hc : c ∈ p.constraintIds := mem_constraintIds_iff.mpr ⟨row, hrow⟩
  simp only [Option.isSome_iff_exists, signedMultiplier?_derivedDual_eq_some_iff,
    freeMultiplier?_derivedDual_eq_some_iff]
  cases p.slackOf settings.slackChoice c <;> simp [hc, Xor]

variable (h : p.WellFormed)
include h

/-- A chosen slack is the term that is picked in its only constraint. -/
theorem WellFormed.slackOf_eq_some_iff_only : p.slackOf choice c = some v ↔
    ∃ row, p.constraint? c = some row ∧ p.constraintsOn v = [c] ∧ p.Picks choice row v := by
  constructor
  · intro hv
    obtain ⟨row, hrow, hmem, _⟩ := slackOf_eq_some hv
    obtain ⟨x, hx, hconstraints, _⟩ := h.slackOf_var hv
    refine ⟨row, hrow, ?_, (h.slackOf_eq_some_iff_picks hrow).mp hv⟩
    have hlen : (p.constraintsOn v).length = 1 := by
      rw [length_constraintsOn, ← h.length_constraints hx, hconstraints]
      rfl
    obtain ⟨d, hd⟩ := List.length_eq_one_iff.mp hlen
    have hc : c ∈ p.constraintsOn v := mem_constraintsOn_iff.mpr ⟨row, hrow, hmem⟩
    rw [hd, List.mem_singleton] at hc
    rw [hd, hc]
  · rintro ⟨row, hrow, _, hpicks⟩
    exact (h.slackOf_eq_some_iff_picks hrow).mpr hpicks

theorem derivedDual_nonneg (hv : v ∈ p.nonnegVars) :
    Xor (((p.derivedDual settings).constraintOf? v).isSome = true)
      (((p.derivedDual settings).slackVarOf? v).isSome = true) := by
  simp only [Option.isSome_iff_exists, constraintOf?_derivedDual_eq_some_iff h,
    slackVarOf?_derivedDual_eq_some_iff h, h.mem_ordinaryVars_iff, hv, true_and]
  by_cases hslack : ∃ c, p.slackOf settings.slackChoice c = some v
  · obtain ⟨c, hc⟩ := hslack
    exact Or.inr ⟨⟨_, c, hc, rfl⟩, fun ⟨_, hnone, _⟩ => hnone c hc⟩
  · rw [not_exists] at hslack
    exact Or.inl ⟨⟨_, hslack, rfl⟩, fun ⟨_, c, hc, _⟩ => hslack c hc⟩

/-- **The tables of a derived dual divide up its primal.** -/
theorem derivedDual_bookkeeps : (p.derivedDual settings).Bookkeeps p settings.slackChoice where
  kind := derivedDual_kind
  multiplier_isSome hrow := by
    rw [multiplier?_derivedDual hrow]
    rfl
  multiplier_injective hc hc' := by
    obtain ⟨hmem, rfl⟩ := multiplier?_derivedDual_eq_some_iff.mp hc
    obtain ⟨_, he⟩ := multiplier?_derivedDual_eq_some_iff.mp hc'
    exact partVar_multiplier_inj hmem he
  nonneg := derivedDual_nonneg h
  other hv := by
    constructor
    · rw [Option.eq_none_iff_forall_ne_some]
      intro r hr
      exact hv (h.mem_ordinaryVars_iff.mp ((constraintOf?_derivedDual_eq_some_iff h).mp hr).1).1
    · rw [Option.eq_none_iff_forall_ne_some]
      intro y hy
      obtain ⟨c, hc, _⟩ := (slackVarOf?_derivedDual_eq_some_iff h).mp hy
      obtain ⟨x, _, _, hcone, _⟩ := h.slackOf_var hc
      exact hv (mem_nonnegVars_iff.mpr ⟨x.cone, hcone⟩)
  row_exists hr := by
    obtain ⟨hv, rfl⟩ := (constraintOf?_derivedDual_eq_some_iff h).mp hr
    exact dualRow_mem_constraintIds hv
  row_injective hr hr' := by
    obtain ⟨hv, rfl⟩ := (constraintOf?_derivedDual_eq_some_iff h).mp hr
    obtain ⟨_, he⟩ := (constraintOf?_derivedDual_eq_some_iff h).mp hr'
    exact dualRow_injective hv he
  row_surjective hr := by
    obtain ⟨row, hrow⟩ := mem_constraintIds_iff.mp hr
    obtain ⟨v, hv, rfl⟩ := exists_var_of_constraint? h hrow
    exact ⟨v, (constraintOf?_derivedDual_eq_some_iff h).mpr ⟨hv, rfl⟩⟩
  slack := by
    intro v y
    rw [slackVarOf?_derivedDual_eq_some_iff h]
    refine exists_congr fun c => ?_
    simp only [signedMultiplier?_derivedDual_eq_some_iff, h.slackOf_eq_some_iff_only]
    constructor
    · rintro ⟨⟨row, hrow, honly, hpicks⟩, rfl⟩
      have hv := (h.slackOf_eq_some_iff_picks hrow).mpr hpicks
      exact ⟨row, hrow, honly, hpicks, by rw [hv]; rfl, rfl⟩
    · rintro ⟨row, hrow, honly, hpicks, _, rfl⟩
      exact ⟨⟨row, hrow, honly, hpicks⟩, rfl⟩
  apex hf := by
    obtain ⟨hc, hnone, rfl⟩ := freeMultiplier?_derivedDual_eq_some_iff.mp hf
    have hcone := congrArg some (multiplierCone_of_none hnone)
    exact ⟨_, (derivedDual_cone?_multiplier hc).trans hcone, rfl⟩

end Program

/-! ## Checking out -/

namespace Exchange

variable {x : Exchange α}

/-- **The tables of every dual that is checked out or borrowed divide up the primal.** -/
theorem checkOut_bookkeeps (hprimal : x.primal.consistent = true) (elapsed : Nat) :
    (∀ b, (x.borrow elapsed).result = .ok b →
      b.dual.Bookkeeps x.primal x.settings.slackChoice) ∧
    (∀ x', (x.checkOut elapsed).result = .ok x' →
      ∃ d, x'.state = .checkedOut d ∧ d.Bookkeeps x.primal x.settings.slackChoice) ∧
    (x.Ready → (∃ b, (x.borrow elapsed).result = .ok b) ∧
      ∃ x', (x.checkOut elapsed).result = .ok x') := by
  have h : x.primal.WellFormed := Program.consistent_iff_wellFormed.mp hprimal
  have hborrow : ∀ b, (x.borrow elapsed).result = .ok b →
      b.dual = x.primal.derivedDual x.settings := by
    intro b hb
    cases hstate : x.state with
    | checkedIn => exact (dual_of_derive h (borrow_of_checkedIn hstate elapsed ▸ hb)).1
    | checkedOut d =>
      rw [borrow_of_checkedOut hstate] at hb
      cases hb
  refine ⟨fun b hb => ?_, fun x' hx' => ?_, fun hready => ?_⟩
  · rw [hborrow b hb]
    exact Program.derivedDual_bookkeeps h
  · rw [checkOut_eq] at hx'
    cases hresult : (x.borrow elapsed).result with
    | error fault =>
      rw [hresult] at hx'
      cases hx'
    | ok b =>
      rw [hresult] at hx'
      cases hx'
      exact ⟨b.dual, rfl, by rw [hborrow b hresult]; exact Program.derivedDual_bookkeeps h⟩
  · obtain ⟨owner, howner, _⟩ := derive_result hready elapsed
    obtain ⟨x', hx', _⟩ := checkOut_result hready elapsed
    exact ⟨⟨_, (borrow_of_checkedIn hready.state elapsed).trans howner⟩, x', hx'⟩

theorem checkOut_bookkeeps_twoRows : ∃ x' d,
    ((Exchange.new Program.twoRows .standard).checkOut 0).result = .ok x' ∧
      x'.state = .checkedOut d ∧ d.Bookkeeps Program.twoRows .first := by
  obtain ⟨_, htables, hready⟩ :=
    checkOut_bookkeeps (x := Exchange.new Program.twoRows .standard) (by decide) 0
  obtain ⟨_, x', hx'⟩ := hready twoRows_ready
  obtain ⟨d, hd, hbookkeeps⟩ := htables x' hx'
  exact ⟨x', d, hx', hd, hbookkeeps⟩

end Exchange

end Conic
