import Conic.Proofs.Program.Slacks

/-!
# What the program measures

A program tells by how much its point misses the constraints and the cones. The standard form tells
the same by its slacks, which have to lie in a product of cones.

* `Block.Holds`, `Block.Product` — slacks that lie in a cone, and in the product of the blocks.
* `Cone.HoldsUpTo` — a cone that is missed by no more than a tolerance.
* `Exportable.constraintViolation?_eq`, `Exportable.coneViolation?_eq` — what the program measures.
* `Program.product_slacks_iff` — slacks in the product.
* `Program.standardForm_measures` — **the slacks of the standard form say what the program
  measures.**
-/

set_option autoImplicit false

namespace Conic

/-! ## Cones of slacks -/

/-- The slacks lie in the cone of the block. -/
def Block.Holds : Block → List ℝ → Prop
  | .zero _, s => ∀ a ∈ s, a = 0
  | .nonneg _, s => ∀ a ∈ s, 0 ≤ a
  | .secondOrder _, [] => True
  | .secondOrder _, apex :: others => √((others.map fun a => a * a).sum) ≤ apex

/-- The slacks lie in the product of the cones of the blocks. -/
inductive Block.Product : List Block → List ℝ → Prop
  | nil : Product [] []
  | cons {b : Block} {bs : List Block} {part rest : List ℝ} (hdim : part.length = b.dim)
    (hpart : b.Holds part) (hrest : Product bs rest) : Product (b :: bs) (part ++ rest)

/-- The coordinates of the members miss the cone by no more than `t`. -/
def Cone.HoldsUpTo (x : VarId → ℝ) (t : ℝ) : Cone → Prop
  | .nonneg v => -t ≤ x v
  | .secondOrder [] => True
  | .secondOrder (apex :: others) => √((others.map fun u => x u * x u).sum) ≤ x apex + t

/-- The slacks of the first block are told apart from the others by their number. -/
theorem Block.product_append_iff {b : Block} {bs : List Block} {part rest : List ℝ}
    (hdim : part.length = b.dim) :
    Product (b :: bs) (part ++ rest) ↔ b.Holds part ∧ Product bs rest := by
  constructor
  · intro h
    generalize hs : part ++ rest = s at h
    cases h with
    | cons hdim' hpart hrest =>
      obtain ⟨rfl, rfl⟩ := List.append_inj hs (hdim.trans hdim'.symm)
      exact ⟨hpart, hrest⟩
  · exact fun ⟨hpart, hrest⟩ => .cons hdim hpart hrest

namespace Cone

variable {x : VarId → ℝ} {t : ℝ} {g : List Cone} {b : Block}

/-- The slacks of a block lie in its cone when the cones that fill it hold. -/
theorem Fills.holds_iff (h : Fills g b) :
    b.Holds ((g.flatMap members).map x) ↔ ∀ k ∈ g, k.HoldsUpTo x 0 := by
  cases h with
  | run vs => simp [Block.Holds, HoldsUpTo, members, List.flatMap_map]
  | single vs => cases vs <;> simp [Block.Holds, HoldsUpTo, members, Function.comp_def]

/-- The slacks of all cones lie in the product of their blocks when all cones hold. -/
theorem product_iff {groups : List (List Cone × Block)} (h : ∀ g ∈ groups, Fills g.1 g.2) :
    Block.Product (groups.map Prod.snd) (((groups.flatMap Prod.fst).flatMap members).map x) ↔
      ∀ k ∈ groups.flatMap Prod.fst, k.HoldsUpTo x 0 := by
  induction groups with
  | nil => simp [Block.Product.nil]
  | cons g groups ih =>
    have hfills := h g List.mem_cons_self
    have hdim : ((g.1.flatMap members).map x).length = g.2.dim := by
      rw [List.length_map, hfills.dim_eq]
    have hrest := ih fun g' hg' => h g' (List.mem_cons_of_mem g hg')
    rw [List.map_cons, List.flatMap_cons, List.flatMap_append, List.map_append,
      Block.product_append_iff hdim, hfills.holds_iff, hrest, List.forall_mem_append]

/-- By how much the coordinates of the members miss the cone. -/
noncomputable def shortfall (x : VarId → ℝ) : Cone → ℝ
  | .nonneg v => larger 0 (-x v)
  | .secondOrder [] => 0
  | .secondOrder (apex :: others) =>
    larger 0 (√((others.map fun u => x u * x u).sum) - x apex)

theorem shortfall_le_iff {k : Cone} : k.shortfall x ≤ t ↔ 0 ≤ t ∧ k.HoldsUpTo x t := by
  match k with
  | .nonneg v => rw [shortfall, larger_le_iff, HoldsUpTo, neg_le]
  | .secondOrder [] => simp [shortfall, HoldsUpTo]
  | .secondOrder (apex :: others) =>
    rw [shortfall, larger_le_iff, HoldsUpTo, sub_le_iff_le_add']

theorem coneShortfall?_eq {k : Cone} (hne : k.members ≠ []) :
    Program.coneShortfall? k.kind (k.members.map x) = some (k.shortfall x) := by
  match k with
  | .nonneg v => rfl
  | .secondOrder [] => exact absurd rfl hne
  | .secondOrder (apex :: others) =>
    have hsum := foldl_add_eq_sum (fun a : ℝ => a * a) (others.map x) 0
    rw [zero_add, List.map_map] at hsum
    exact congrArg (fun a => some (larger 0 (√a - x apex))) hsum

end Cone

/-- A look-up of everything in a list. -/
theorem mapM_eq_some_map {β γ : Type} {f : β → Option γ} {g : β → γ} {l : List β}
    (h : ∀ b ∈ l, f b = some (g b)) : l.mapM f = some (l.map g) := by
  induction l with
  | nil => rfl
  | cons b l ih =>
    rw [List.mapM_cons, h b List.mem_cons_self, ih fun b hb => h b (List.mem_cons_of_mem _ hb)]
    rfl

/-- A look-up that fails for one of them. -/
theorem mapM_eq_none {β γ : Type} {f : β → Option γ} {l : List β} {b : β} (hb : b ∈ l)
    (hf : f b = none) : l.mapM f = none := by
  induction l with
  | nil => cases hb
  | cons c l ih =>
    rw [List.mapM_cons]
    rcases List.mem_cons.mp hb with rfl | hb
    · rw [hf]
      rfl
    · rw [ih hb]
      cases f c <;> rfl

namespace Program

/-- The violation of the cones is the largest of what `f` gives for each of them. -/
theorem coneViolation?_eq_foldl {α : Type} [RootScalar α] {p : Program α} {x : VarId → α}
    {f : Cone → α} (hx : ∀ k ∈ p.cones.toList, ∀ v ∈ k.members, p.coordinate? v = some (x v))
    (hf : ∀ k ∈ p.cones.toList, coneShortfall? k.kind (k.members.map x) = some (f k)) :
    p.coneViolation? = some ((p.cones.toList.map f).foldl larger 0) := by
  have hshortfall : ∀ k ∈ p.cones.toList,
      ((k.members.mapM p.coordinate?).bind fun s => coneShortfall? k.kind s) = some (f k) := by
    intro k hk
    rw [mapM_eq_some_map (hx k hk), Option.bind_some, hf k hk]
  have hall := mapM_eq_some_map hshortfall
  unfold coneViolation?
  simp only [Option.bind_eq_bind]
  rw [hall]
  rfl

variable {p : Program ℝ}

/-! ## What the program measures -/

/-- The largest number by which a cone is missed. -/
noncomputable def largestShortfall (p : Program ℝ) : ℝ :=
  (p.cones.toList.map (Cone.shortfall p.coordinateOf)).foldl larger 0

/-- **The tolerances up to which all cones hold.** -/
theorem largestShortfall_le_iff {t : ℝ} : p.largestShortfall ≤ t ↔
    0 ≤ t ∧ ∀ k ∈ p.cones.toList, k.HoldsUpTo p.coordinateOf t := by
  rw [largestShortfall, foldl_larger_le_iff, List.forall_mem_map]
  refine and_congr_right fun ht => forall₂_congr fun k _ => ?_
  rw [Cone.shortfall_le_iff, and_iff_right ht]

theorem largestShortfall_eq_zero_iff : p.largestShortfall = 0 ↔
    ∀ k ∈ p.cones.toList, k.HoldsUpTo p.coordinateOf 0 := by
  have hnonneg : 0 ≤ p.largestShortfall := (largestShortfall_le_iff.mp le_rfl).1
  rw [← hnonneg.ge_iff_eq', largestShortfall_le_iff, and_iff_right le_rfl]

section

variable (h : p.Exportable) (hpoint : p.point.size = p.vars.size)
include h hpoint

theorem Exportable.coordinate?_member {v : VarId} (hv : v ∈ p.coneMembers) :
    p.coordinate? v = some (p.coordinateOf v) :=
  coordinate?_eq_coordinateOf hpoint (h.partitioned.mem_iff.mp hv)

/-- What a constraint misses is its slack, negated. -/
theorem Exportable.residual?_eq {row : Constraint ℝ} (hrow : row ∈ p.constraints.toList) :
    p.residual? row =
      some (-(row.rhs - (row.terms.toList.map fun t => t.2 * p.coordinateOf t.1).sum)) := by
  have hterm : ∀ row ∈ p.constraints.toList, ∀ v ∈ row.terms.vars, ∃ a, p.var? v = some a :=
    forall_constraint?_iff.mp fun _ _ hrow _ hv => h.term_var hrow hv
  have hfold := foldl_add_eq_sum (fun t : VarId × ℝ => t.2 * p.coordinateOf t.1) row.terms.toList
    (-row.rhs)
  rw [neg_add_eq_sub, ← neg_sub] at hfold
  have hcoordinate : ∀ v ∈ row.terms.vars, p.coordinate? v = some (p.coordinateOf v) :=
    fun v hv => coordinate?_eq_coordinateOf hpoint (mem_varIds_iff.mpr (hterm row hrow v hv))
  exact (residual?_eq_foldl hcoordinate).trans (congrArg some hfold)

/-- **The violation of the constraints is the largest absolute slack.** -/
theorem Exportable.constraintViolation?_eq :
    p.constraintViolation? = some (Vector.maxAbs (p.slacks.take p.constraints.size)) := by
  have hsign := Vector.maxAbs_map_neg (p.slacks.take p.constraints.size)
  rw [take_slacks, List.map_map] at hsign
  rw [constraintViolation?, mapM_eq_some_map fun row hrow => h.residual?_eq hpoint hrow, take_slacks,
    ← hsign]
  rfl

/-- **The violation of the cones is the largest shortfall.** -/
theorem Exportable.coneViolation?_eq (hne : ∀ k ∈ p.cones.toList, k.members ≠ []) :
    p.coneViolation? = some p.largestShortfall :=
  coneViolation?_eq_foldl
    (fun _ hk _ hv => h.coordinate?_member hpoint (List.mem_flatMap.mpr ⟨_, hk, hv⟩))
    fun k hk => Cone.coneShortfall?_eq (hne k hk)

end

/-- A cone without members has no first coordinate to measure. -/
theorem coneViolation?_eq_none {k : Cone} (hk : k ∈ p.cones.toList) (hmembers : k.members = []) :
    p.coneViolation? = none := by
  have hnone : ((k.members.mapM p.coordinate?).bind fun s => coneShortfall? k.kind s) = none := by
    rw [hmembers]
    rfl
  unfold coneViolation?
  simp only [Option.bind_eq_bind]
  rw [mapM_eq_none hk hnone]
  rfl

/-! ## The product of the blocks -/

/-- **The slacks lie in the product of the blocks when the constraints and the cones hold.** -/
theorem product_slacks_iff (p : Program ℝ) : Block.Product p.blocks p.slacks ↔
    (∀ a ∈ p.slacks.take p.constraints.size, a = 0) ∧
      ∀ k ∈ p.cones.toList, k.HoldsUpTo p.coordinateOf 0 := by
  obtain ⟨groups, hgroups⟩ := p.blockedBy_blocks
  have hcones := Cone.product_iff (x := p.coordinateOf) hgroups.cones.fills
  rw [hgroups.cones.order] at hcones
  suffices hsplit : Block.Product p.blocks
      (p.slacks.take p.constraints.size ++ p.slacks.drop p.constraints.size) ↔ _ by
    rwa [List.take_append_drop] at hsplit
  rw [hgroups.blocks, drop_slacks, ← hcones]
  split
  · have hdim : (p.slacks.take p.constraints.size).length = (Block.zero p.constraints.size).dim := by
      simp [take_slacks, Block.dim]
    exact Block.product_append_iff hdim
  · rename_i hnone
    have hempty : p.slacks.take p.constraints.size = [] := by
      rw [Nat.eq_zero_of_not_pos hnone, List.take_zero]
    simp [hempty, coneMembers]

/-! ## The result -/

/-- What the slacks `s` of a standard form `f` say about the measures of a program. A cone without
members, which no tolerance can tell anything about, leaves the cones unmeasured. -/
structure Measures (p : Program ℝ) (f : StandardForm ℝ) (s : List ℝ) : Prop where
  length : s.length = f.equalities + p.vars.size
  constraints : p.constraintViolation? = some (Vector.maxAbs (s.take f.equalities))
  norm : IsLeast {t | 0 ≤ t ∧ ∀ a ∈ s.take f.equalities, |a| ≤ t}
    (Vector.maxAbs (s.take f.equalities))
  coordinates : p.coneMembers.mapM p.coordinate? = some (s.drop f.equalities)
  cones : (∀ k ∈ p.cones.toList, k.members ≠ []) → ∃ t, p.coneViolation? = some t ∧
    IsLeast {t | 0 ≤ t ∧ ∀ k ∈ p.cones.toList, k.HoldsUpTo p.coordinateOf t} t
  product : (∀ k ∈ p.cones.toList, k.members ≠ []) →
    (Block.Product f.blocks s ↔ p.constraintViolation? = some 0 ∧ p.coneViolation? = some 0)
  unmeasured : (∃ k ∈ p.cones.toList, k.members = []) → p.coneViolation? = none

theorem Exportable.measures (h : p.Exportable) (hpoint : p.point.size = p.vars.size) :
    p.Measures p.exported p.slacks where
  length := by simp [slacks, exported, h.partitioned.length_coneMembers]
  norm := Vector.isLeast_maxAbs _
  constraints := h.constraintViolation?_eq hpoint
  coordinates := by
    rw [mapM_eq_some_map fun v hv => h.coordinate?_member hpoint hv]
    exact congrArg some p.drop_slacks.symm
  cones hne := ⟨_, h.coneViolation?_eq hpoint hne, largestShortfall_le_iff.mp le_rfl,
    fun _ ht => largestShortfall_le_iff.mpr ht⟩
  product hne := by
    rw [h.constraintViolation?_eq hpoint, h.coneViolation?_eq hpoint hne, Option.some.injEq,
      Option.some.injEq, Vector.maxAbs_eq_zero_iff, largestShortfall_eq_zero_iff]
    exact p.product_slacks_iff
  unmeasured := fun ⟨_, hk, hmembers⟩ => coneViolation?_eq_none hk hmembers

/-- **The slacks of the standard form say what the program measures**, for every program whose cones
partition its variables and every point: the slacks of the equalities are what the constraints miss,
the others are the coordinates of the members of the cones, and they lie in the product of the blocks
when nothing is missed. -/
theorem standardForm_measures (h : p.Exportable) (hpoint : p.point.size = p.vars.size) :
    ∃ f s, p.standardForm = .ok f ∧ f.residual? p.point.toList = some s ∧ p.Measures f s :=
  ⟨_, _, h.standardForm_eq, h.residual?_exported hpoint, h.measures hpoint⟩

/-- `2·x₀ + 3·x₁ = 5`, `|x₀| ≤ x₂` and `0 ≤ x₁` at the point `(3, -1, 1)`. The second-order cone comes
first, and its apex is the last variable. -/
noncomputable def allMissed : Program ℝ where
  vars := #[⟨⟨0⟩, 0, 0, [⟨0⟩]⟩, ⟨⟨1⟩, 0, 0, [⟨0⟩]⟩, ⟨⟨0⟩, 0, 0, []⟩]
  cones := #[.secondOrder [⟨2⟩, ⟨0⟩], .nonneg ⟨1⟩]
  constraints := #[⟨⟨[(⟨0⟩, 2), (⟨1⟩, 3)], by decide⟩, 5, 0⟩]
  point := #[3, -1, 1]

/-- The constraint is missed by `2`, and so is the second-order cone; the variable misses by `1`. -/
theorem standardForm_measures_allMissed : ∃ f, allMissed.standardForm = .ok f ∧
    f.residual? [3, -1, 1] = some [2, 1, 3, -1] ∧ allMissed.Measures f [2, 1, 3, -1] ∧
    allMissed.constraintViolation? = some 2 ∧ allMissed.coneViolation? = some 2 ∧
    ¬Block.Product f.blocks [2, 1, 3, -1] := by
  have hp : allMissed.WellFormed := consistent_iff_wellFormed.mp (by decide +kernel)
  have hpart : allMissed.Partitioned := by
    unfold Partitioned
    decide +kernel
  have h := hp.exportable hpart
  obtain ⟨f, s, hf, hs, hmeasures⟩ := standardForm_measures h rfl
  obtain rfl := Except.ok.inj (hf.symm.trans h.standardForm_eq)
  obtain rfl := Option.some.inj (hs.symm.trans (h.residual?_exported rfl))
  have hslacks : allMissed.slacks = [2, 1, 3, -1] := by
    norm_num [slacks, allMissed, coneMembers, Cone.members, coordinateOf, coordinate?]
  rw [hslacks] at hs hmeasures
  have hne : ∀ k ∈ allMissed.cones.toList, k.members ≠ [] := by
    simp [allMissed, Cone.members]
  have htolerance : ∀ t, (0 ≤ t ∧ ∀ k ∈ allMissed.cones.toList,
      k.HoldsUpTo allMissed.coordinateOf t) ↔ 2 ≤ t := by
    intro t
    have hlength : √((3 : ℝ) * 3) = 3 := Real.sqrt_mul_self (by norm_num)
    have hcones : (∀ k ∈ allMissed.cones.toList, k.HoldsUpTo allMissed.coordinateOf t) ↔
        3 ≤ 1 + t ∧ 1 ≤ t := by
      simp [allMissed, coordinateOf, coordinate?, Cone.HoldsUpTo, hlength]
    rw [hcones]
    constructor
    · rintro ⟨_, hball, _⟩
      linarith
    · exact fun ht => ⟨by linarith, by linarith, by linarith⟩
  obtain ⟨t, hcone, hleast⟩ := hmeasures.cones hne
  have ht : t = 2 := le_antisymm (hleast.2 ((htolerance 2).mpr le_rfl)) ((htolerance t).mp hleast.1)
  have hconstraint : allMissed.constraintViolation? = some 2 := by
    have hmax : Vector.maxAbs [(2 : ℝ)] = 2 := by
      simp [Vector.maxAbs_eq, larger, Scalar.isNaN]
    exact hmeasures.constraints.trans (congrArg some hmax)
  refine ⟨_, hf, hs, hmeasures, hconstraint, ht ▸ hcone, fun hproduct => ?_⟩
  have hzero := ((hmeasures.product hne).mp hproduct).1
  rw [hconstraint] at hzero
  norm_num at hzero

end Program

end Conic
