import Conic.Proofs.Program.Export
import Conic.Proofs.Sparse.Pattern

/-!
# Programs that are equal

Two programs are equal when their records are, where terms are compared as maps from variables to
coefficients and numbers by `==`. The order in which terms were added and the sign of a zero are
thus passed over, and neither can be told from the standard form.

* `Terms.beq_iff` — **equal terms have equal coefficients for every variable.**
* `Program.Equal` — what an export reads of two equal programs; `Program.equal_of_beq`.
* `Program.Equal.agree_matrixEntries` — the entries of both matrices.
* `Program.standardForm_congr` — **equal programs have equal standard forms.**
-/

set_option autoImplicit false

namespace Conic

open SparseMatrix

/-! ## Records -/

section Records

variable {α : Type} [BEq α]

theorem Terms.beq_iff_forall {s t : Terms α} : (s == t) = true ↔ s.size = t.size ∧
    ∀ {v a}, s.coefficient? v = some a → ∃ b, t.coefficient? v = some b ∧ (a == b) = true := by
  show (s.size == t.size && s.toList.all _) = true ↔ _
  rw [Bool.and_eq_true, beq_iff_eq, List.all_eq_true]
  refine and_congr_right fun _ => ⟨fun h v a ha => ?_, fun h u hu => ?_⟩
  · have hfound := h (v, a) (coefficient?_eq_some_iff.mp ha)
    dsimp only at hfound
    split at hfound
    · next b hb => exact ⟨b, hb, hfound⟩
    · cases hfound
  · obtain ⟨b, hb, hequal⟩ := h (coefficient?_eq_some_iff.mpr hu)
    simp only [hb, hequal]

/-- **Equal terms have equal coefficients for every variable**, or none. -/
theorem Terms.beq_iff {s t : Terms α} : (s == t) = true ↔
    ∀ v, Option.Rel (fun a b => (a == b) = true) (s.coefficient? v) (t.coefficient? v) := by
  rw [beq_iff_forall]
  constructor
  · rintro ⟨hsize, hfound⟩ v
    have hsubset : s.vars ⊆ t.vars := fun u hu => by
      obtain ⟨a, ha⟩ := mem_vars_iff_coefficient?.mp hu
      obtain ⟨b, hb, _⟩ := hfound ha
      exact mem_vars_iff_coefficient?.mpr ⟨b, hb⟩
    have hlength : t.vars.length ≤ s.vars.length := by
      simpa [vars, size] using hsize.ge
    -- No variable stands twice, so that lists of one length have the same variables.
    have hperm := (List.subperm_of_subset s.nodup hsubset).perm_of_length_le hlength
    cases hs : s.coefficient? v with
    | some a =>
      obtain ⟨b, hb, hequal⟩ := hfound hs
      rw [hb]
      exact .some hequal
    | none =>
      rw [coefficient?_eq_none_iff.mpr (hperm.mem_iff.not.mp (coefficient?_eq_none_iff.mp hs))]
      exact .none
  · intro h
    have hmem : ∀ v, v ∈ s.vars ↔ v ∈ t.vars := by
      intro v
      rw [mem_vars_iff_coefficient?, mem_vars_iff_coefficient?]
      have hv := h v
      generalize s.coefficient? v = x, t.coefficient? v = y at hv ⊢
      cases hv <;> simp
    have hperm := (List.perm_ext_iff_of_nodup s.nodup t.nodup).mpr hmem
    refine ⟨by simpa [vars, size] using hperm.length_eq, fun {v a} ha => ?_⟩
    have hv := h v
    rw [ha] at hv
    generalize t.coefficient? v = y at hv ⊢
    cases hv with
    | some hequal => exact ⟨_, rfl, hequal⟩

theorem Variable.cost_beq {x y : Variable α} (h : (x == y) = true) : (x.cost == y.cost) = true := by
  obtain ⟨_, _, _, _⟩ := x
  obtain ⟨_, _, _, _⟩ := y
  have hparts : instBEqVariable.beq _ _ = true := h
  simp only [instBEqVariable.beq, Bool.and_eq_true] at hparts
  exact hparts.2.1

theorem Constraint.terms_beq {row row' : Constraint α} (h : (row == row') = true) :
    (row.terms == row'.terms) = true ∧ (row.rhs == row'.rhs) = true := by
  obtain ⟨_, _, _⟩ := row
  obtain ⟨_, _, _⟩ := row'
  have hparts : instBEqConstraint.beq _ _ = true := h
  simp only [instBEqConstraint.beq, Bool.and_eq_true] at hparts
  exact ⟨hparts.1, hparts.2.1⟩

theorem StandardForm.beq_iff {f g : StandardForm α} : (f == g) = true ↔
    (f.cost == g.cost) = true ∧ (f.matrix == g.matrix) = true ∧ (f.rhs == g.rhs) = true ∧
      f.blocks = g.blocks ∧ f.coneRows = g.coneRows ∧ f.equalities = g.equalities := by
  obtain ⟨_, _, _, _, _, _⟩ := f
  obtain ⟨_, _, _, _, _, _⟩ := g
  show instBEqStandardForm.beq _ _ = true ↔ _
  simp only [instBEqStandardForm.beq, Bool.and_eq_true, beq_iff_eq]

end Records

namespace Program

variable {α : Type}

/-! ## Programs -/

/-- What an export reads of two equal programs. -/
structure Equal [BEq α] (p q : Program α) : Prop where
  cones : p.cones = q.cones
  cost : List.Forall₂ (fun x y => (x.cost == y.cost) = true) p.vars.toList q.vars.toList
  rhs : List.Forall₂ (fun row row' => (row.rhs == row'.rhs) = true) p.constraints.toList
    q.constraints.toList
  coefficient : ∀ c v,
    Option.Rel (fun a b => (a == b) = true) (p.coefficient? c v) (q.coefficient? c v)

theorem equal_of_beq [BEq α] {p q : Program α} (h : (p == q) = true) : p.Equal q := by
  obtain ⟨vars, cones, constraints, point⟩ := p
  obtain ⟨vars', cones', constraints', point'⟩ := q
  have hparts : instBEqProgram.beq _ _ = true := h
  simp only [instBEqProgram.beq, Bool.and_eq_true] at hparts
  obtain ⟨hvars, hcones, hconstraints, _⟩ := hparts
  have hrows := beq_array_iff.mp hconstraints
  refine ⟨beq_iff_eq.mp hcones, (beq_array_iff.mp hvars).imp fun _ _ => Variable.cost_beq,
    hrows.imp fun _ _ hrow => (Constraint.terms_beq hrow).2, fun c v => ?_⟩
  have hlength : constraints.size = constraints'.size := by simpa using hrows.length_eq
  show Option.Rel _ (constraints[c.index]?.bind _) (constraints'[c.index]?.bind _)
  by_cases hc : c.index < constraints.size
  · have hc' : c.index < constraints'.size := by simpa [hlength] using hc
    rw [Array.getElem?_eq_getElem hc, Array.getElem?_eq_getElem hc']
    exact Terms.beq_iff.mp (Constraint.terms_beq (hrows.get hc hc')).1 v
  · have hc' : ¬c.index < constraints'.size := by simpa [hlength] using hc
    rw [Array.getElem?_eq_none (Nat.le_of_not_lt hc), Array.getElem?_eq_none (Nat.le_of_not_lt hc')]
    exact .none

namespace Equal

variable [Scalar α] {p q : Program α} (h : p.Equal q)
include h

theorem vars_size : p.vars.size = q.vars.size := by
  simpa using h.cost.length_eq

theorem constraints_size : p.constraints.size = q.constraints.size := by
  simpa using h.rhs.length_eq

theorem coneMembers : p.coneMembers = q.coneMembers := by
  rw [Program.coneMembers, h.cones, Program.coneMembers]

theorem blocks : p.blocks = q.blocks := by
  rw [Program.blocks, h.cones, h.constraints_size, Program.blocks]

/-- **The entries of both matrices**: a term of a constraint is given with equal coefficients, and a
row of a cone member with the same entry. -/
theorem agree_matrixEntries [EqualityScalar α] : Agree p.matrixEntries q.matrixEntries := by
  have hposition : ∀ row col,
      (entriesAt p.matrixEntries row col = [] ∧ entriesAt q.matrixEntries row col = []) ∨
      ∃ a b : α, (a == b) = true ∧ entriesAt p.matrixEntries row col = [⟨row, col, a⟩] ∧
        entriesAt q.matrixEntries row col = [⟨row, col, b⟩] := by
    intro row col
    by_cases hrow : row < p.constraints.size
    · have hp : ⟨row⟩ ∈ p.constraintIds :=
        mem_constraintIds_iff.mpr ⟨_, Array.getElem?_eq_getElem hrow⟩
      have hq : ⟨row⟩ ∈ q.constraintIds :=
        mem_constraintIds_iff.mpr ⟨_, Array.getElem?_eq_getElem (h.constraints_size ▸ hrow)⟩
      have hcoefficient := h.coefficient ⟨row⟩ ⟨col⟩
      rw [entriesAt_constraint hp ⟨col⟩, entriesAt_constraint hq ⟨col⟩]
      generalize p.coefficient? ⟨row⟩ ⟨col⟩ = x, q.coefficient? ⟨row⟩ ⟨col⟩ = y at hcoefficient ⊢
      cases hcoefficient with
      | some hequal => exact Or.inr ⟨_, _, hequal, rfl, rfl⟩
      | none => exact Or.inl ⟨rfl, rfl⟩
    · obtain ⟨r, rfl⟩ := Nat.exists_eq_add_of_le (Nat.le_of_not_lt hrow)
      have hp := entriesAt_coneRow (p := p) r ⟨col⟩
      have hq := entriesAt_coneRow (p := q) r ⟨col⟩
      rw [← h.constraints_size, ← h.coneMembers] at hq
      dsimp only at hp hq
      rw [hp, hq]
      split
      · have hself : ((-1 : α) == -1) = true :=
          EqualityScalar.beq_self_iff.mpr EqualityScalar.isNaN_neg_one
        exact Or.inr ⟨-1, -1, hself, rfl, rfl⟩
      · exact Or.inl ⟨rfl, rfl⟩
  constructor
  · intro row col
    obtain ⟨hp, hq⟩ | ⟨a, b, _, hp, hq⟩ := hposition row col <;> simp [hp, hq]
  · intro row col hgiven
    obtain ⟨hp, _⟩ | ⟨a, b, hequal, hp, hq⟩ := hposition row col
    · exact absurd hp hgiven
    · rw [valueAt, valueAt, hp, hq]
      exact EqualityScalar.zero_add_beq hequal

theorem exported_beq [EqualityScalar α] : (p.exported == q.exported) = true := by
  have hzero : ((0 : α) == 0) = true := EqualityScalar.beq_self_iff.mpr EqualityScalar.isNaN_zero
  have hcost : (p.exported.cost == q.exported.cost) = true :=
    beq_list_iff.mpr (List.forall₂_map_left_iff.mpr (List.forall₂_map_right_iff.mpr h.cost))
  have hmatrix : (p.exported.matrix == q.exported.matrix) = true := by
    rw [exported, exported, h.vars_size, h.constraints_size]
    exact h.agree_matrixEntries.assembled_beq _ _
  have hrhs : (p.exported.rhs == q.exported.rhs) = true := by
    rw [exported, exported, h.vars_size]
    refine beq_list_iff.mpr (List.rel_append ?_ (List.forall₂_same.mpr fun a ha => ?_))
    · exact List.forall₂_map_left_iff.mpr (List.forall₂_map_right_iff.mpr h.rhs)
    · rwa [List.eq_of_mem_replicate ha]
  exact StandardForm.beq_iff.mpr
    ⟨hcost, hmatrix, hrhs, h.blocks, h.coneMembers, h.constraints_size⟩

end Equal

/-- **Equal programs have equal standard forms.** Both exports succeed, and costs, matrix with its
column starts, rows and values, right-hand sides, blocks and cone rows are equal, in whatever order
the terms of the constraints were added. Programs with undefined numbers are not equal to any. -/
theorem standardForm_congr [Scalar α] [EqualityScalar α] {p q : Program α} (hp : p.Built)
    (hq : q.Built) (h : (p == q) = true) :
    ∃ f g, p.standardForm = .ok f ∧ q.standardForm = .ok g ∧ (f == g) = true :=
  ⟨p.exported, q.exported, hp.wellFormed.standardForm_eq hp.partitioned,
    hq.wellFormed.standardForm_eq hq.partitioned, (equal_of_beq h).exported_beq⟩

/-- The constraint `x₀ + 0·x₁ = 0`. -/
def unsignedZero : Program Float where
  vars := #[⟨⟨0⟩, 0, 0, [⟨0⟩]⟩, ⟨⟨1⟩, 0, 0, [⟨0⟩]⟩]
  cones := #[.nonneg ⟨0⟩, .nonneg ⟨1⟩]
  constraints := #[⟨⟨[(⟨0⟩, 1), (⟨1⟩, 0)], by decide⟩, 0, 0⟩]
  point := #[0, 0]

/-- The same constraint as `-0·x₁ + x₀ = 0`. -/
def signedZero : Program Float :=
  { unsignedZero with constraints := #[⟨⟨[(⟨1⟩, -0), (⟨0⟩, 1)], by decide⟩, 0, 0⟩] }

theorem unsignedZero_built : unsignedZero.Built := by
  have h₁ := Built.empty.edit (.addNonnegCone : Edit Float) rfl
  have h₂ := h₁.edit .addNonnegCone rfl
  have h₃ := h₂.edit .addConstraint rfl
  have h₄ := h₃.edit (.addTerm ⟨0⟩ ⟨0⟩ 1) rfl
  exact h₄.edit (.addTerm ⟨0⟩ ⟨1⟩ 0) rfl

theorem signedZero_built : signedZero.Built := by
  have h₁ := Built.empty.edit (.addNonnegCone : Edit Float) rfl
  have h₂ := h₁.edit .addNonnegCone rfl
  have h₃ := h₂.edit .addConstraint rfl
  have h₄ := h₃.edit (.addTerm ⟨0⟩ ⟨1⟩ (-0)) rfl
  exact h₄.edit (.addTerm ⟨0⟩ ⟨0⟩ 1) rfl

/-- Neither the order of the terms nor the sign of the zero can be told from the standard form. -/
theorem standardForm_congr_signedZero : (signedZero == unsignedZero) = true ∧
    ∃ f g, signedZero.standardForm = .ok f ∧ unsignedZero.standardForm = .ok g ∧ (f == g) = true :=
  have h : (signedZero == unsignedZero) = true := by decide +kernel
  ⟨h, standardForm_congr signedZero_built unsignedZero_built h⟩

end Program

end Conic
