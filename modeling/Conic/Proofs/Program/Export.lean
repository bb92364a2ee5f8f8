import Conic.Proofs.Arithmetic
import Conic.Proofs.Program.Blocks
import Conic.Proofs.Program.Editing
import Conic.Proofs.Program.StandardForm

/-!
# The standard form as an image of the program

* `StandardForm.Mirrors` — what a standard form has to say about a program: costs, right-hand sides,
  every position of the matrix, and the blocks of rows.
* `Program.Built`, `Program.Reorders` — programs made by operations, and the same with their cones
  in another order.
* `Program.standardForm_mirrors` — **the standard form is an exact image of the program.**
-/

set_option autoImplicit false

namespace Conic

open SparseMatrix

/-! ## The specification -/

/-- The standard form `f` says what the program `p` says. The rows of the constraints come first,
and below them one row for every member of a cone. -/
structure StandardForm.Mirrors {α : Type} [Scalar α] (f : StandardForm α) (p : Program α) :
    Prop where
  cost_length : f.cost.length = p.vars.size
  cost : ∀ {v x}, p.var? v = some x → f.cost[v.index]? = some x.cost
  rhs_length : f.rhs.length = p.constraints.size + p.vars.size
  rhs : ∀ {c row}, p.constraint? c = some row → f.rhs[c.index]? = some row.rhs
  rhs_cone : ∀ {r}, r < p.vars.size → f.rhs[p.constraints.size + r]? = some 0
  rows : f.matrix.rows = p.constraints.size + p.vars.size
  cols : f.matrix.cols = p.vars.size
  format : f.matrix.formatFault? = none
  entryCount : f.matrix.entryCount? = some (p.termCount + p.vars.size)
  coefficient : ∀ {c row v a}, p.constraint? c = some row → row.terms.coefficient? v = some a →
    ∃ b, f.matrix.entry? c.index v.index = some (some b) ∧ Scalar.Same b a
  absent : ∀ {c row v}, p.constraint? c = some row → v ∈ p.varIds →
    row.terms.coefficient? v = none → f.matrix.entry? c.index v.index = some (some 0)
  members_length : p.coneMembers.length = p.vars.size
  /-- The row of a cone member stores −1 in the column of the member, and nothing else. -/
  member : ∀ {r v}, p.coneMembers[r]? = some v →
    ∃ i, f.matrix.StoresAt i (p.constraints.size + r) v.index (-1) ∧
      ∀ {j col a}, f.matrix.StoresAt j (p.constraints.size + r) col a →
        j = i ∧ col = v.index ∧ a = -1
  blocks : ∃ groups, p.BlockedBy groups f.blocks
  blocks_dim : (f.blocks.map Block.dim).sum = p.constraints.size + p.vars.size

namespace Program

/-- The program results from operations on the empty one. -/
inductive Built {α : Type} [Zero α] : Program α → Prop
  | empty : Built .empty
  | edit {p q : Program α} (edit : Edit α) (hp : Built p) (hq : p.edit edit = .ok q) : Built q

/-- The program `q` has the cones of `p` in any order, and as many variables and the same
constraints. -/
structure Reorders {α : Type} (q p : Program α) : Prop where
  cones : q.cones.toList.Perm p.cones.toList
  vars : q.vars.size = p.vars.size
  constraints : q.constraints = p.constraints

/-! ## Programs made by operations -/

section

variable {α : Type} [Zero α] {p q : Program α} {k : Cone}

theorem coneMembers_withCone : (p.withCone k).coneMembers = p.coneMembers ++ k.members := by
  simp [withCone, coneMembers]

theorem varIds_withCone : (p.withCone k).varIds = p.varIds ++ p.freshVars k.dim := by
  have hrange : List.range (p.vars.size + k.dim) =
      List.range p.vars.size ++ List.range' p.vars.size k.dim := by
    rw [List.range_eq_range', List.range_eq_range', ← List.range'_append_1, Nat.zero_add]
  simp [withCone, addVariables, varIds, freshVars, hrange]

/-- Operations keep the members of the cones in the order of the variables. -/
theorem Edited.inOrder {edit : Edit α} (hedited : p.Edited edit q)
    (h : p.coneMembers = p.varIds) : q.coneMembers = q.varIds := by
  cases hedited with
  | nonneg =>
    rw [coneMembers_withCone, varIds_withCone, h]
    simp [Cone.members, Cone.dim, freshVars, nextVar]
  | secondOrder =>
    rw [coneMembers_withCone, varIds_withCone, h]
    simp [Cone.members, Cone.dim, freshVars]
  | constraint => exact h
  | term | removed =>
    simpa [coneMembers, varIds, rewired, modifyVariable, modifyConstraint] using h
  | numbers hrec =>
    simpa [coneMembers, varIds, cones_of_records hrec, vars_size_of_records hrec] using h

theorem Built.wellFormed (h : p.Built) : p.WellFormed := by
  induction h with
  | empty => exact consistent_iff_wellFormed.mp rfl
  | edit _ _ hq ih => exact (edit_edited hq).wellFormed ih

theorem Built.inOrder (h : p.Built) : p.coneMembers = p.varIds := by
  induction h with
  | empty => rfl
  | edit _ _ hq ih => exact (edit_edited hq).inOrder ih

theorem Built.partitioned (h : p.Built) : p.Partitioned := by
  rw [Partitioned, h.inOrder]

/-- **The order of the cones does not matter to an export.** -/
theorem Built.exportable (h : p.Built) (hq : q.Reorders p) : q.Exportable where
  partitioned := by
    have hmembers : q.coneMembers.Perm p.coneMembers := hq.cones.flatMap_right _
    have hvars : q.varIds = p.varIds := by rw [varIds, hq.vars, varIds]
    rw [Partitioned, hvars]
    exact hmembers.trans h.partitioned
  term_var {c row v} hrow hv := by
    rw [constraint?, hq.constraints] at hrow
    have hmem := mem_varIds_iff.mpr (h.wellFormed.term_var hrow hv)
    rw [varIds, ← hq.vars] at hmem
    exact mem_varIds_iff.mp hmem

end

/-! ## The matrix -/

section

variable {α : Type} [Scalar α] {p : Program α} {c : ConstraintId} {v : VarId}

omit [Scalar α] in
theorem length_constraintEntries (p : Program α) : p.constraintEntries.length = p.termCount := by
  have hrows : p.constraintIds.map (fun c => (p.termsOf c).length) =
      p.constraints.toList.map (·.terms.size) := by
    apply List.ext_getElem
    · simp
    · intro i hi _
      have hi' : i < p.constraints.size := by simpa using hi
      simp [constraintIds, termsOf, constraint?, Terms.size, hi']
  simp only [constraintEntries, List.length_flatMap, List.length_map, hrows]
  rw [List.sum_eq_foldr, List.foldr_map, termCount]

theorem length_matrixEntries (h : p.Exportable) :
    p.matrixEntries.length = p.termCount + p.vars.size := by
  rw [matrixEntries_eq, List.length_append, length_constraintEntries, coneEntries, List.length_map,
    List.length_zipIdx, h.partitioned.length_coneMembers]

/-- No position is given twice. -/
theorem length_entriesAt_matrixEntries (p : Program α) (row col : Nat) :
    (entriesAt p.matrixEntries row col).length ≤ 1 := by
  rcases Nat.lt_or_ge row p.constraints.size with hlt | hge
  · have hc : (⟨row⟩ : ConstraintId) ∈ p.constraintIds := by simp [constraintIds, hlt]
    have hentries := entriesAt_constraint hc ⟨col⟩
    dsimp only at hentries
    rw [hentries]
    cases p.coefficient? ⟨row⟩ ⟨col⟩ <;> simp
  · obtain ⟨r, rfl⟩ := Nat.exists_eq_add_of_le hge
    have hentries := entriesAt_coneRow (p := p) r ⟨col⟩
    dsimp only at hentries
    rw [hentries]
    split <;> simp

/-- What is stored in the row of a cone member. -/
theorem mem_storedEntries_coneRow_iff [LawfulScalar α] {r : Nat}
    (hv : p.coneMembers[r]? = some v) {col : Nat} {a : α} :
    (⟨p.constraints.size + r, col, a⟩ : Entry α) ∈ storedEntries p.matrixEntries ↔
      col = v.index ∧ a = -1 := by
  have hentries := entriesAt_coneRow (p := p) r ⟨col⟩
  dsimp only at hentries
  rw [mem_storedEntries_iff, valueAt, hentries, hv]
  by_cases hcol : v = ⟨col⟩
  · simp [hcol, LawfulScalar.zero_add_neg_one]
  · have hindex : col ≠ v.index := fun he => hcol (congrArg VarId.mk he.symm)
    simp [hcol, hindex]

/-! ## The result -/

theorem Exportable.exported_mirrors [LawfulScalar α] (h : p.Exportable) :
    p.exported.Mirrors p where
  cost_length := by simp [exported]
  cost hx := by
    rw [var?] at hx
    simp [exported, hx]
  rhs_length := by simp [exported]
  rhs {c row} hrow := by
    rw [constraint?] at hrow
    have hlt := (Array.getElem?_eq_some_iff.mp hrow).1
    simpa [exported, List.getElem?_append_left, hlt] using congrArg (·.map (·.rhs)) hrow
  rhs_cone hr := by
    simp [exported, hr]
  rows := rfl
  cols := rfl
  format := assembled_formatFault? h.matrixEntries_inside
  entryCount := by
    have hcount := assembled_entryCount? h.matrixEntries_inside (length_entriesAt_matrixEntries p)
    rw [length_matrixEntries h] at hcount
    exact hcount
  coefficient {c row v a} hrow ha := by
    have hv : v ∈ row.terms.vars := Terms.mem_vars_iff_coefficient?.mpr ⟨a, ha⟩
    have hentry := exported_entry? (mem_constraintIds_iff.mpr ⟨row, hrow⟩)
      (mem_varIds_iff.mpr (h.term_var hrow hv))
    rw [coefficient?_eq hrow, ha] at hentry
    exact ⟨_, hentry, LawfulScalar.zero_add a⟩
  absent {c row v} hrow hv hnone := by
    have hentry := exported_entry? (mem_constraintIds_iff.mpr ⟨row, hrow⟩) hv
    rw [coefficient?_eq hrow, hnone] at hentry
    exact hentry
  members_length := h.partitioned.length_coneMembers
  member {r v} hv := by
    have hmem := (mem_storedEntries_coneRow_iff hv).mpr ⟨rfl, rfl⟩
    obtain ⟨i, hi⟩ := List.mem_iff_getElem?.mp hmem
    have hinside := h.matrixEntries_inside
    refine ⟨i, (assembled_storesAt_iff hinside).mpr hi, fun {j col a} hj => ?_⟩
    have hj := (assembled_storesAt_iff hinside).mp hj
    obtain ⟨rfl, rfl⟩ := (mem_storedEntries_coneRow_iff hv).mp (List.mem_of_getElem? hj)
    exact ⟨storedEntries_inj hj hi rfl rfl, rfl, rfl⟩
  blocks := p.blockedBy_blocks
  blocks_dim := by
    obtain ⟨groups, hgroups⟩ := p.blockedBy_blocks
    have hdim := hgroups.cones.sum_dim
    have hlength : (p.cones.toList.flatMap Cone.members).length = p.vars.size :=
      h.partitioned.length_coneMembers
    show (p.blocks.map Block.dim).sum = _
    rw [hgroups.blocks, List.map_append, List.sum_append, hdim, hlength]
    congr 1
    split
    · simp [Block.dim]
    · simp only [List.map_nil, List.sum_nil]
      omega

end

/-- **The standard form is an exact image of the program**, for every program whose cones partition
its variables. Programs made by operations are such programs, and their cones may stand in any
order. -/
theorem standardForm_mirrors {α : Type} [Scalar α] [LawfulScalar α] :
    (∀ {p : Program α}, p.Exportable → ∃ f, p.standardForm = .ok f ∧ f.Mirrors p) ∧
      ∀ {p q : Program α}, p.Built → q.Reorders p → q.Exportable :=
  ⟨fun h => ⟨_, h.standardForm_eq, h.exported_mirrors⟩, fun hp hq => hp.exportable hq⟩

/-- Two nonnegative variables, a second-order cone between them, and the constraint `2·x₀ = 0`. -/
def mixedCones : Program ℚ where
  vars := #[⟨⟨0⟩, 0, 0, [⟨0⟩]⟩, ⟨⟨1⟩, 0, 0, []⟩, ⟨⟨1⟩, 0, 0, []⟩, ⟨⟨2⟩, 0, 0, []⟩]
  cones := #[.nonneg ⟨0⟩, .secondOrder [⟨1⟩, ⟨2⟩], .nonneg ⟨3⟩]
  constraints := #[⟨⟨[(⟨0⟩, 2)], by decide⟩, 0, 0⟩]
  point := #[0, 0, 0, 0]

theorem mixedCones_built : mixedCones.Built := by
  have h₁ := Built.empty.edit (.addNonnegCone : Edit ℚ) rfl
  have h₂ := h₁.edit (.addSecondOrderCone 2) rfl
  have h₃ := h₂.edit .addNonnegCone rfl
  have h₄ := h₃.edit .addConstraint rfl
  exact h₄.edit (.addTerm ⟨0⟩ ⟨0⟩ 2) rfl

/-- The program as it was built, and with the second-order cone moved to the end. -/
theorem standardForm_mirrors_mixedCones :
    (∃ f, mixedCones.standardForm = .ok f ∧ f.Mirrors mixedCones) ∧
      let q := { mixedCones with
        cones := #[.nonneg ⟨0⟩, .nonneg ⟨3⟩, .secondOrder [⟨1⟩, ⟨2⟩]] }
      ∃ f, q.standardForm = .ok f ∧ f.Mirrors q :=
  have h := standardForm_mirrors (α := ℚ)
  ⟨h.1 (h.2 mixedCones_built ⟨.refl _, rfl, rfl⟩),
    h.1 (h.2 mixedCones_built ⟨by decide, rfl, rfl⟩)⟩

end Program

end Conic
