import Conic.Proofs.Dual.SlackChoice

/-!
# Programs that differ in order

Terms stand in the order in which they were added, and so do membership lists. Two programs may hold
the same records in another order.

* `Program.Rearranges` — the same program up to the order of terms and of membership lists, as in
  `Program.reversed`.
* `Rearranges.coefficient?`, `Rearranges.termsOf_perm` — constraints as maps.
* `Rearranges.isSlack?` — **which variables qualify as slacks does not depend on the order.**
* `Rearranges.slackOf_isSome` — **nor does it whether a constraint has a slack**, whichever is chosen.
* `Program.SingleCandidates`, `Rearranges.slackOf` — **where a constraint has one candidate at most, the
  same slack is chosen.**
-/

set_option autoImplicit false

namespace Conic

variable {α : Type}

/-- The variable with its membership list in another order. -/
structure Variable.Rearranges (y x : Variable α) : Prop where
  cone : y.cone = x.cone
  cost : y.cost = x.cost
  reducedCost : y.reducedCost = x.reducedCost
  constraints : y.constraints.Perm x.constraints

/-- The constraint with its terms in another order. -/
structure Constraint.Rearranges (row' row : Constraint α) : Prop where
  terms : row'.terms.toList.Perm row.terms.toList
  rhs : row'.rhs = row.rhs
  multiplier : row'.multiplier = row.multiplier

/-- The same terms in another order are the same map. -/
theorem Terms.coefficient?_of_perm {s t : Terms α} (h : s.toList.Perm t.toList) (v : VarId) :
    s.coefficient? v = t.coefficient? v := by
  apply Option.ext
  intro a
  rw [coefficient?_eq_some_iff, coefficient?_eq_some_iff, h.mem_iff]

/-- The terms in reverse order. -/
def Terms.reversed (t : Terms α) : Terms α :=
  ⟨t.toList.reverse, by rw [List.map_reverse, List.nodup_reverse]; exact t.nodup⟩

namespace Program

/-- The program `q` is `p` with the terms of its constraints, and its membership lists, in another
order. -/
structure Rearranges (q p : Program α) : Prop where
  cones : q.cones = p.cones
  point : q.point = p.point
  vars_size : q.vars.size = p.vars.size
  constraints_size : q.constraints.size = p.constraints.size
  var : ∀ {v y x}, q.var? v = some y → p.var? v = some x → y.Rearranges x
  row : ∀ {c row' row}, q.constraint? c = some row' → p.constraint? c = some row →
    row'.Rearranges row

/-- No constraint has two terms on variables that qualify as slacks. -/
def SingleCandidates [Scalar α] (p : Program α) : Prop :=
  ∀ {c row u v}, p.constraint? c = some row → u ∈ row.terms.vars → v ∈ row.terms.vars →
    p.isSlack? u = some true → p.isSlack? v = some true → u = v

instance decidableSingleCandidates [Scalar α] (p : Program α) : Decidable p.SingleCandidates :=
  decidable_of_iff (∀ row ∈ p.constraints.toList, ∀ u ∈ row.terms.vars, ∀ v ∈ row.terms.vars,
      p.isSlack? u = some true → p.isSlack? v = some true → u = v)
    (forall_constraint?_iff.symm.trans
      ⟨fun h _ _ _ _ hrow hu hv => h _ _ hrow _ hu _ hv, fun h _ _ hrow _ hu _ hv => h hrow hu hv⟩)

/-- The program with the terms of every constraint in reverse order. -/
def reversed (p : Program α) : Program α :=
  { p with constraints := p.constraints.map fun row => { row with terms := row.terms.reversed } }

theorem reversed_rearranges (p : Program α) : p.reversed.Rearranges p where
  cones := rfl
  point := rfl
  vars_size := rfl
  constraints_size := Array.size_map
  var hy hx := by
    cases hy.symm.trans hx
    exact ⟨rfl, rfl, rfl, .refl _⟩
  row {c row' row} hrow' hrow := by
    have hreversed : p.reversed.constraint? c = some { row with terms := row.terms.reversed } := by
      rw [constraint?] at hrow ⊢
      rw [reversed, Array.getElem?_map, hrow, Option.map_some]
    cases hrow'.symm.trans hreversed
    exact ⟨List.reverse_perm _, rfl, rfl⟩

/-- A place is in both of two arrays of one size or in neither. -/
theorem getElem?_cases {β : Type} {ys xs : Array β} (h : ys.size = xs.size) (i : Nat) :
    (ys[i]? = none ∧ xs[i]? = none) ∨ ∃ y x, ys[i]? = some y ∧ xs[i]? = some x := by
  by_cases hi : i < xs.size
  · exact Or.inr ⟨_, _, Array.getElem?_eq_getElem (h ▸ hi), Array.getElem?_eq_getElem hi⟩
  · exact Or.inl ⟨Array.getElem?_eq_none (by omega), Array.getElem?_eq_none (by omega)⟩

namespace Rearranges

variable {p q : Program α} (h : q.Rearranges p) {v : VarId} {c : ConstraintId}
include h

/-! ## Records -/

theorem varIds : q.varIds = p.varIds := by
  rw [Program.varIds, h.vars_size, Program.varIds]

theorem constraintIds : q.constraintIds = p.constraintIds := by
  rw [Program.constraintIds, h.constraints_size, Program.constraintIds]

theorem nonnegVars : q.nonnegVars = p.nonnegVars := by
  rw [Program.nonnegVars, h.cones, Program.nonnegVars]

/-- A variable is in both programs or in neither. -/
theorem var?_cases (v : VarId) : (q.var? v = none ∧ p.var? v = none) ∨
    ∃ y x, q.var? v = some y ∧ p.var? v = some x ∧ y.Rearranges x := by
  obtain ⟨hq, hp⟩ | ⟨y, x, hy, hx⟩ := getElem?_cases h.vars_size v.index
  · exact Or.inl ⟨hq, hp⟩
  · exact Or.inr ⟨y, x, hy, hx, h.var hy hx⟩

/-- A constraint is in both programs or in neither. -/
theorem constraint?_cases (c : ConstraintId) : (q.constraint? c = none ∧ p.constraint? c = none) ∨
    ∃ row' row, q.constraint? c = some row' ∧ p.constraint? c = some row ∧ row'.Rearranges row := by
  obtain ⟨hq, hp⟩ | ⟨row', row, hrow', hrow⟩ := getElem?_cases h.constraints_size c.index
  · exact Or.inl ⟨hq, hp⟩
  · exact Or.inr ⟨row', row, hrow', hrow, h.row hrow' hrow⟩

/-! ## Terms and numbers -/

theorem termsOf_perm (c : ConstraintId) : (q.termsOf c).Perm (p.termsOf c) := by
  unfold termsOf
  obtain ⟨hq, hp⟩ | ⟨row', row, hrow', hrow, hsame⟩ := h.constraint?_cases c
  · rw [hq, hp]
  · rw [hrow', hrow]
    exact hsame.terms

theorem coefficient? (c : ConstraintId) (v : VarId) : q.coefficient? c v = p.coefficient? c v := by
  unfold Program.coefficient?
  obtain ⟨hq, hp⟩ | ⟨row', row, hrow', hrow, hsame⟩ := h.constraint?_cases c
  · rw [hq, hp]
  · rw [hrow', hrow]
    exact Terms.coefficient?_of_perm hsame.terms v

variable [Scalar α]

theorem rhsOf (c : ConstraintId) : q.rhsOf c = p.rhsOf c := by
  unfold Program.rhsOf
  obtain ⟨hq, hp⟩ | ⟨row', row, hrow', hrow, hsame⟩ := h.constraint?_cases c
  · rw [hq, hp]
  · rw [hrow', hrow]
    exact hsame.rhs

theorem costOf (v : VarId) : q.costOf v = p.costOf v := by
  unfold Program.costOf
  obtain ⟨hq, hp⟩ | ⟨y, x, hy, hx, hsame⟩ := h.var?_cases v
  · rw [hq, hp]
  · rw [hy, hx]
    exact hsame.cost

/-! ## Slacks -/

/-- **Which variables qualify as slacks does not depend on the order.** -/
theorem isSlack? (v : VarId) : q.isSlack? v = p.isSlack? v := by
  have hcone (k : ConeId) : q.cone? k = p.cone? k := by rw [cone?, h.cones, cone?]
  unfold Program.isSlack?
  obtain ⟨hq, hp⟩ | ⟨y, x, hy, hx, hsame⟩ := h.var?_cases v
  · rw [hq, hp]
    rfl
  · rw [hy, hx]
    simp only [Option.bind_eq_bind, Option.bind_some, hsame.constraints.length_eq, hsame.cone,
      hsame.cost, hcone]

/-- **Whether a constraint has a slack depends neither on the order nor on the choice.** -/
theorem slackOf_isSome (choice choice' : SlackChoice) (c : ConstraintId) :
    (q.slackOf choice' c).isSome = (p.slackOf choice c).isSome := by
  obtain ⟨hq, hp⟩ | ⟨row', row, hrow', hrow, hsame⟩ := h.constraint?_cases c
  · simp [slackOf, hq, hp]
  · have hvars (v : VarId) : v ∈ row'.terms.vars ↔ v ∈ row.terms.vars :=
      (hsame.terms.map Prod.fst).mem_iff
    rw [Bool.eq_iff_iff, slackOf_isSome_iff hrow', slackOf_isSome_iff hrow]
    simp only [hvars, h.isSlack?]

/-- **Of a single candidate, the same slack is chosen.** -/
theorem slackOf (hsingle : p.SingleCandidates) (choice choice' : SlackChoice) (c : ConstraintId) :
    q.slackOf choice' c = p.slackOf choice c := by
  cases hv : p.slackOf choice c with
  | none =>
    rw [← Option.isNone_iff_eq_none, ← Option.not_isSome, h.slackOf_isSome choice choice', hv]
    rfl
  | some v =>
    have hsome : (q.slackOf choice' c).isSome = true := by
      rw [h.slackOf_isSome choice choice', hv]
      rfl
    obtain ⟨u, hu⟩ := Option.isSome_iff_exists.mp hsome
    obtain ⟨row, hrow, hmem, hslack⟩ := slackOf_eq_some hv
    obtain ⟨row', hrow', hmem', hslack'⟩ := slackOf_eq_some hu
    have hvars := (h.row hrow' hrow).terms.map Prod.fst
    rw [h.isSlack?] at hslack'
    rw [hu, hsingle hrow (hvars.mem_iff.mp hmem') hmem hslack' hslack]

end Rearranges

end Program

end Conic
