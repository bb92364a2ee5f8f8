import Conic.Proofs.Program.Applying

/-!
# Reduced costs

A variable knows the constraints that it occurs in from its membership list. Its reduced cost is its
cost without what these constraints take, at their multipliers.

* `Program.RecordsTerms` — every term is recorded in the membership list of its variable, once, and
  nothing else is.
* `Program.priceAt` — the reduced cost of a variable; `RecordsTerms.priceAt_eq`.
* `Program.apply_reducedCost` — **storing a stationary solution of the standard form gives every variable
  its reduced cost as dual value.**
-/

set_option autoImplicit false

namespace Conic.Program

/-- Constraints and membership lists name each other. -/
structure RecordsTerms {α : Type} (p : Program α) : Prop where
  recorded : ∀ {c : ConstraintId} {row : Constraint α} {v : VarId},
    p.constraint? c = some row → v ∈ row.terms.vars →
      ∃ a, p.var? v = some a ∧ c ∈ a.constraints
  term : ∀ {v : VarId} {a : Variable α} {c : ConstraintId},
    p.var? v = some a → c ∈ a.constraints →
      ∃ row, p.constraint? c = some row ∧ v ∈ row.terms.vars
  once : ∀ {v : VarId} {a : Variable α}, p.var? v = some a → a.constraints.Nodup

theorem WellFormed.recordsTerms {α : Type} {p : Program α} (h : p.WellFormed) : p.RecordsTerms where
  recorded {c row v} hrow hv := by
    obtain ⟨a, ha⟩ := h.term_var hrow hv
    exact ⟨a, ha, (h.recorded c ha).mpr ⟨row, hrow, hv⟩⟩
  term {v a c} ha hc := (h.recorded c ha).mp hc
  once := h.recorded_nodup

theorem RecordsTerms.exportable {α : Type} {p : Program α} (h : p.RecordsTerms)
    (hpart : p.Partitioned) : p.Exportable where
  partitioned := hpart
  term_var hrow hv := (h.recorded hrow hv).imp fun _ ha => ha.1

variable {p q : Program ℚ} {μ : ConstraintId → ℚ} {x z : List ℚ} {v : VarId} {c : ConstraintId}

/-! ## Reduced costs -/

/-- The reduced cost of a variable at the multipliers `μ`: its cost without the products of
coefficient and multiplier over the constraints in its membership list. -/
def priceAt (p : Program ℚ) (μ : ConstraintId → ℚ) (v : VarId) : ℚ :=
  match p.var? v with
  | some x => x.cost - (x.constraints.map fun c => p.entry c v * μ c).sum
  | none => 0

/-- The membership list names all constraints that count. -/
theorem RecordsTerms.priceAt_eq (h : p.RecordsTerms) (hv : v ∈ p.varIds) :
    p.priceAt μ v =
      p.costOf v - ∑ c ∈ p.constraintIds.toFinset, p.entry c v * μ c := by
  obtain ⟨x, hx⟩ := mem_varIds_iff.mp hv
  have hcost : p.costOf v = x.cost := by rw [costOf, hx, Option.map_some, Option.getD_some]
  have hsub : x.constraints.toFinset ⊆ p.constraintIds.toFinset := by
    intro c hc
    obtain ⟨row, hrow, _⟩ := h.term hx (List.mem_toFinset.mp hc)
    exact List.mem_toFinset.mpr (mem_constraintIds_iff.mpr ⟨row, hrow⟩)
  have hzero : ∀ c ∈ p.constraintIds.toFinset, c ∉ x.constraints.toFinset →
      p.entry c v * μ c = 0 := by
    intro c _ hc
    have hnone : p.coefficient? c v = none := by
      rw [Option.eq_none_iff_forall_ne_some]
      intro a ha
      obtain ⟨row, hrow, hcoefficient⟩ := Option.bind_eq_some_iff.mp ha
      obtain ⟨y, hy, hrecorded⟩ :=
        h.recorded hrow (Terms.mem_vars_iff_coefficient?.mpr ⟨a, hcoefficient⟩)
      rw [hx] at hy
      cases hy
      exact hc (List.mem_toFinset.mpr hrecorded)
    rw [entry, hnone, Option.getD_none, zero_mul]
  rw [priceAt, hx, hcost, ← Finset.sum_subset hsub hzero,
    List.sum_toFinset _ (h.once hx)]

/-! ## Stored solutions -/

/-- The multiplier that a constraint holds. -/
def multiplierOf (p : Program ℚ) (c : ConstraintId) : ℚ :=
  ((p.constraint? c).map (·.multiplier)).getD 0

theorem solved_multiplierOf (hc : c ∈ p.constraintIds) :
    (p.solved x z).multiplierOf c = rowValue z c := by
  obtain ⟨row, hrow⟩ := mem_constraintIds_iff.mp hc
  rw [multiplierOf, solved_constraint?, hrow]
  rfl

theorem solved_entry (c : ConstraintId) (v : VarId) : (p.solved x z).entry c v = p.entry c v := by
  simp only [entry, coefficient?, solved_constraint?]
  cases p.constraint? c <;> rfl

/-- **In a program that holds a stationary solution, dual values are reduced costs** at the
multipliers that it holds. -/
theorem RecordsTerms.solved_priceAt (h : p.RecordsTerms) (hpart : p.Partitioned)
    (hz : p.exported.Stationary z) (hv : v ∈ p.varIds) :
    (p.solved x z).priceAt (p.solved x z).multiplierOf v = p.coneValue z v := by
  obtain ⟨a, ha⟩ := mem_varIds_iff.mp hv
  have hsolved : (p.solved x z).var? v = some { a with reducedCost := p.coneValue z v } := by
    rw [solved_var?, ha, Option.map_some]
  have hsame : (p.solved x z).priceAt (p.solved x z).multiplierOf v = p.priceAt (rowValue z) v := by
    simp only [priceAt, hsolved, ha]
    refine congrArg (a.cost - List.sum ·) (List.map_congr_left fun c hc => ?_)
    obtain ⟨row, hrow, _⟩ := h.term ha hc
    rw [solved_entry, solved_multiplierOf (mem_constraintIds_iff.mpr ⟨row, hrow⟩)]
  rw [hsame, h.priceAt_eq hv, stationary_coneValue hpart hz hv]

/-- A solution is stored over a point of its length only. -/
theorem point_size_of_apply {f : StandardForm ℚ} (hq : f.apply p x z = .ok q) :
    p.point.size = x.length := by
  unfold StandardForm.apply at hq
  split at hq
  · cases hq
  · split at hq
    · cases hq
    · rename_i hsize
      exact not_not.mp hsize

/-- **A solution of the standard form with `q + Aᵀ·z = 0` gives every variable its reduced cost**: once
it is stored, the dual value of a variable is its cost without the products of coefficient and
multiplier over its membership list. The cones may list the variables in any order. -/
theorem apply_reducedCost (hpart : p.Partitioned) (hterms : p.RecordsTerms) :
    ∃ f, p.standardForm = .ok f ∧ ∀ {x z : List ℚ}, x.length = p.vars.size →
      z.length = p.constraints.size + p.vars.size → f.Stationary z →
      (p.point.size = p.vars.size → ∃ q, f.apply p x z = .ok q) ∧
      ∀ {q}, f.apply p x z = .ok q → ∀ {v a}, p.var? v = some a →
        q.var? v = some { a with
          reducedCost := a.cost - (a.constraints.map fun c => q.entry c v * q.multiplierOf c).sum } := by
  refine ⟨p.exported, (hterms.exportable hpart).standardForm_eq, fun {x z} hx hz hstationary => ?_⟩
  have happly (hpoint) := apply_exported (z := z) hpart hpoint hx hz
  refine ⟨fun hpoint => ⟨_, happly hpoint⟩, fun {q} hq {v a} ha => ?_⟩
  obtain rfl : p.solved x z = q :=
    Except.ok.inj ((happly ((point_size_of_apply hq).trans hx)).symm.trans hq)
  have hsolved : (p.solved x z).var? v = some { a with reducedCost := p.coneValue z v } := by
    rw [solved_var?, ha, Option.map_some]
  have hprice := hterms.solved_priceAt (x := x) hpart hstationary (mem_varIds_iff.mpr ⟨a, ha⟩)
  rw [priceAt, hsolved] at hprice
  rw [hsolved, ← hprice]

/-- Minimise `x₀ + 4·x₁ + 6·x₂` subject to `2·x₀ + 3·x₁ = 5`, where `x₂` bounds `|x₀|`: the cone of these
two comes first, and its apex is the last variable. -/
def apexLast : Program ℚ where
  vars := #[⟨⟨0⟩, 1, 0, [⟨0⟩]⟩, ⟨⟨1⟩, 4, 0, [⟨0⟩]⟩, ⟨⟨0⟩, 6, 0, []⟩]
  cones := #[.secondOrder [⟨2⟩, ⟨0⟩], .nonneg ⟨1⟩]
  constraints := #[⟨⟨[(⟨0⟩, 2), (⟨1⟩, 3)], by decide⟩, 5, 0⟩]
  point := #[0, 0, 0]

/-- The multiplier of the constraint is `-1`, and the dual values are `3`, `7` and `6`. -/
theorem apply_reducedCost_apexLast : ∃ f q, apexLast.standardForm = .ok f ∧
    f.Stationary [1, 6, 3, 7] ∧ f.apply apexLast [1, 1, 1] [1, 6, 3, 7] = .ok q ∧
    q.vars.map (·.reducedCost) = #[3, 7, 6] ∧ q.multiplierOf ⟨0⟩ = -1 ∧
    ∀ {v a}, apexLast.var? v = some a → q.var? v = some { a with
      reducedCost := a.cost - (a.constraints.map fun c => q.entry c v * q.multiplierOf c).sum } := by
  have hp : apexLast.WellFormed := consistent_iff_wellFormed.mp (by decide +kernel)
  have hpart : apexLast.Partitioned := by
    unfold Partitioned
    decide +kernel
  obtain ⟨f, hf, happly⟩ := apply_reducedCost hpart hp.recordsTerms
  obtain rfl := Except.ok.inj (hf.symm.trans (hp.standardForm_eq hpart))
  have hstationary : apexLast.exported.Stationary [1, 6, 3, 7] := by
    intro j hj
    rw [Finset.sum_congr rfl fun i hi => by rw [exported_at (Finset.mem_range.mp hi) hj]]
    revert j
    decide +kernel
  obtain ⟨hsome, hall⟩ := happly (x := [1, 1, 1]) rfl rfl hstationary
  obtain ⟨q, hq⟩ := hsome rfl
  obtain rfl := Except.ok.inj (hq.symm.trans (apply_exported hpart rfl rfl rfl))
  exact ⟨_, _, hf, hstationary, hq, by decide +kernel, by decide +kernel, hall hq⟩

end Conic.Program
