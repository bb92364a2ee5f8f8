import Conic.Proofs.Dual.Drafting
import Conic.Proofs.Staging

/-!
# Multipliers and reduced costs

Each of the four steps of `Program.dual` is a fold over a list, and after every prefix of the list
the dual so far is known in closed form. This module follows the two steps that let the dual grow.

* `Program.set_varTable`, `Program.getElem?_varTable` — tables indexed by handles.
* `Program.addMultiplier_stage`, `Program.addReducedCost_stage` — one element of each fold.
-/

set_option autoImplicit false

namespace Conic

namespace Dual

variable {α : Type} [Scalar α]

@[simp] theorem firstMember_withNonneg (P : Program α) (a : α) :
    firstMember (P.withNonneg a) P.nextCone = .ok P.nextVar := by
  rw [firstMember, Program.cone?_withNonneg]
  rfl

/-- The cone of two that a free multiplier gets has an apex, the multiplier itself. -/
@[simp] theorem apex_withPair (P : Program α) (a : α) :
    apex (P.withPair a) P.nextCone = .ok P.nextVar := by
  rw [apex, Program.cone?_withPair]
  rfl

theorem result_addSignedMultiplier (d : Dual α) (c : ConstraintId) (slack : VarId) (rhs : α) :
    (d.addSignedMultiplier c slack rhs).result = .ok { d with
      program := d.program.withNonneg rhs
      slackMultipliers := d.slackMultipliers.setIfInBounds slack.index (some d.program.nextVar)
      signedMultipliers := d.signedMultipliers.setIfInBounds c.index (some d.program.nextVar) } := by
  simp [addSignedMultiplier, found, Program.addNonnegCone_eq, Program.setCost?_withNonneg]

theorem result_addFreeMultiplier (d : Dual α) (c : ConstraintId) (rhs : α) :
    (d.addFreeMultiplier c rhs).result = .ok { d with
      program := d.program.withPair rhs
      freeMultipliers := d.freeMultipliers.setIfInBounds c.index
        (some ⟨d.program.nextCone, d.program.nextVar⟩) } := by
  simp [addFreeMultiplier, found, Program.addSecondOrderCone_two, Program.setCost?_withPair]

theorem result_addReducedCost {primal : Program α} {d : Dual α} {v : VarId} {x : Variable α}
    (hslot : d.slackMultipliers[v.index]? = some none) (hx : primal.var? v = some x) :
    (addReducedCost primal d v).result = .ok { d with
      program := d.program.withRow (-x.cost)
      reducedCostRows := d.reducedCostRows.setIfInBounds v.index
        (some d.program.nextConstraint) } := by
  have hnext : (d.program.withConstraint (-x.cost)).nextVar = d.program.nextVar := rfl
  have hrow : d.program.addConstraint.2 = d.program.nextConstraint := rfl
  simp [addReducedCost, found, hslot, hx, hrow, Program.setRhs?_addConstraint, hnext,
    Program.addNonnegCone_eq, Program.addTerm_withConstraint, Program.setCost?_withRow]

end Dual

namespace Program

variable {α : Type} {p : Program α}

/-! ## Tables -/

theorem index_of_constraintIds_split {c : ConstraintId} {pre post : List ConstraintId}
    (hsplit : p.constraintIds = pre ++ c :: post) : c = ⟨pre.length⟩ := by
  have hpos : p.constraintIds[pre.length]? = some c := by
    rw [hsplit, List.getElem?_append_right (Nat.le_refl _), Nat.sub_self]
    rfl
  simp only [constraintIds, List.getElem?_map, Option.map_eq_some_iff] at hpos
  obtain ⟨i, hi, rfl⟩ := hpos
  rw [List.getElem?_eq_some_iff] at hi
  obtain ⟨_, hi⟩ := hi
  rw [← hi, List.getElem_range]

/-- Setting an entry of a table that is indexed by handles. -/
theorem set_table {ι β : Type} (mk : Nat → ι) {n i : Nat} {f g : ι → β} {b : β}
    (hi : g (mk i) = b) (hne : ∀ j, j ≠ i → g (mk j) = f (mk j)) :
    (((List.range n).map mk).map f).toArray.setIfInBounds i b =
      (((List.range n).map mk).map g).toArray := by
  apply Array.ext'
  apply List.ext_getElem
  · simp
  · intro j hj _
    simp only [Array.toList_setIfInBounds, List.getElem_set, List.getElem_map, List.getElem_range]
    split
    · rename_i hij
      subst hij
      exact hi.symm
    · rename_i hij
      exact (hne j (Ne.symm hij)).symm

theorem set_varTable {β : Type} {f g : VarId → β} {v : VarId} {b : β} (hv : g v = b)
    (hne : ∀ u, u ≠ v → g u = f u) :
    (p.varIds.map f).toArray.setIfInBounds v.index b = (p.varIds.map g).toArray :=
  set_table VarId.mk hv fun j hj => hne ⟨j⟩ fun he => hj (by rw [← he])

theorem set_constraintTable {β : Type} {f g : ConstraintId → β} {c : ConstraintId} {b : β}
    (hc : g c = b) (hne : ∀ d, d ≠ c → g d = f d) :
    (p.constraintIds.map f).toArray.setIfInBounds c.index b =
      (p.constraintIds.map g).toArray :=
  set_table ConstraintId.mk hc fun j hj => hne ⟨j⟩ fun he => hj (by rw [← he])

theorem getElem?_varTable {β : Type} (f : VarId → β) {v : VarId} {x : Variable α}
    (hv : p.var? v = some x) : (p.varIds.map f).toArray[v.index]? = some (f v) := by
  have hlt : v.index < p.vars.size := (Array.getElem?_eq_some_iff.mp hv).1
  simp [varIds, hlt]

theorem getElem?_constraintTable {β : Type} (f : ConstraintId → β) {c : ConstraintId}
    {row : Constraint α} (hc : p.constraint? c = some row) :
    (p.constraintIds.map f).toArray[c.index]? = some (f c) := by
  have hlt : c.index < p.constraints.size := (Array.getElem?_eq_some_iff.mp hc).1
  simp [constraintIds, hlt]

variable [Scalar α] {choice : SlackChoice} {c : ConstraintId} {cs post : List ConstraintId}

theorem slackTable_concat_of_some (h : p.WellFormed) {v : VarId}
    (hv : p.slackOf choice c = some v) : (p.slackTable choice cs).setIfInBounds v.index
      (some (p.partVar choice (.multiplier c))) = p.slackTable choice (cs ++ [c]) := by
  refine set_varTable ?_ fun u hu => ?_
  · rw [List.find?_append]
    cases hfind : cs.find? fun d => p.slackOf choice d = some v with
    | none => simp [hv]
    | some d =>
      have hd : p.slackOf choice d = some v := by simpa using List.find?_some hfind
      simp [h.slackOf_unique hd hv]
  · have hne : ¬ p.slackOf choice c = some u := fun he => hu (Option.some.inj (he.symm.trans hv))
    simp [List.find?_append, hne]

theorem slackTable_concat_of_none (hc : p.slackOf choice c = none) :
    p.slackTable choice (cs ++ [c]) = p.slackTable choice cs := by
  simp [slackTable, List.find?_append, hc]

theorem signedTable_concat_of_some {v : VarId} (hv : p.slackOf choice c = some v) :
    (p.signedTable choice cs).setIfInBounds c.index (some (p.partVar choice (.multiplier c))) =
      p.signedTable choice (cs ++ [c]) := by
  refine set_constraintTable ?_ fun d hd => ?_
  · simp [hv]
  · simp [hd]

theorem signedTable_concat_of_none (hc : p.slackOf choice c = none) :
    p.signedTable choice (cs ++ [c]) = p.signedTable choice cs := by
  unfold signedTable
  congr 1
  refine List.map_congr_left fun d _ => ?_
  by_cases hd : d = c
  · subst hd
    simp [hc]
  · simp [hd]

theorem freeTable_concat_of_none (hc : p.slackOf choice c = none) :
    (p.freeTable choice cs).setIfInBounds c.index
      (some ⟨⟨c.index⟩, p.partVar choice (.multiplier c)⟩) = p.freeTable choice (cs ++ [c]) := by
  refine set_constraintTable ?_ fun d hd => ?_
  · simp [hc]
  · simp [hd]

theorem freeTable_concat_of_some {v : VarId} (hv : p.slackOf choice c = some v) :
    p.freeTable choice (cs ++ [c]) = p.freeTable choice cs := by
  unfold freeTable
  congr 1
  refine List.map_congr_left fun d _ => ?_
  by_cases hd : d = c
  · subst hd
    simp [hv]
  · simp [hd]

/-! ## Multipliers -/

/-- The parts, split where those of `c` begin. -/
theorem parts_of_split (choice : SlackChoice) (hsplit : p.constraintIds = cs ++ c :: post) :
    p.parts choice =
      p.partsOn choice cs [] ++ p.partsOf choice c ++
        p.partsOn choice post (p.ordinaryVars choice) := by
  rw [parts, partsOn, hsplit, List.flatMap_append, List.flatMap_cons]
  simp [partsOn]

section

variable (h : p.WellFormed) (hsplit : p.constraintIds = cs ++ c :: post)
include h hsplit

theorem partVar_multiplier_of_split :
    p.partVar choice (.multiplier c) = ⟨(p.partsOn choice cs []).length⟩ := by
  have hparts := parts_of_split choice hsplit
  cases hc : p.slackOf choice c with
  | some v =>
    rw [partsOf, hc] at hparts
    exact h.partVar_of_split (by simpa using hparts)
  | none =>
    rw [partsOf, hc] at hparts
    exact h.partVar_of_split (by simpa using hparts)

theorem partVar_auxiliary_of_split (hc : p.slackOf choice c = none) :
    p.partVar choice (.auxiliary c) = ⟨(p.partsOn choice cs []).length + 1⟩ := by
  have hparts := parts_of_split choice hsplit
  rw [partsOf, hc] at hparts
  have hpos : p.parts choice = (p.partsOn choice cs [] ++ [.multiplier c]) ++ .auxiliary c ::
      p.partsOn choice post (p.ordinaryVars choice) := by simpa using hparts
  rw [h.partVar_of_split hpos, List.length_append, List.length_singleton]

theorem programOn_concat_of_some {v : VarId} (hv : p.slackOf choice c = some v) :
    ((p.transposedDraft choice []).programOn p choice cs []).withNonneg (p.rhsOf c) =
      (p.transposedDraft choice []).programOn p choice (cs ++ [c]) [] := by
  have hc : c = ⟨cs.length⟩ := index_of_constraintIds_split hsplit
  have hy : p.partVar choice (.multiplier c) = _ := partVar_multiplier_of_split h hsplit
  have hparts : p.partsOn choice (cs ++ [c]) [] = p.partsOn choice cs [] ++ [.multiplier c] := by
    simp [partsOn, partsOf, hv]
  have hcone : p.multiplierCone choice c = .nonneg (p.partVar choice (.multiplier c)) := by
    simp [multiplierCone, hv]
  apply Program.ext
  · simp [Dual.Draft.programOn, withNonneg, hparts, Dual.Draft.var, transposedDraft, nextCone]
    exact hc ▸ rfl
  · simp [Dual.Draft.programOn, withNonneg, hcone, hy, nextVar]
  · rfl
  · simp [Dual.Draft.programOn, withNonneg, hparts, Array.replicate_succ]

theorem programOn_concat_of_none (hnone : p.slackOf choice c = none) :
    ((p.transposedDraft choice []).programOn p choice cs []).withPair (p.rhsOf c) =
      (p.transposedDraft choice []).programOn p choice (cs ++ [c]) [] := by
  have hc : c = ⟨cs.length⟩ := index_of_constraintIds_split hsplit
  have hy : p.partVar choice (.multiplier c) = _ := partVar_multiplier_of_split h hsplit
  have hu : p.partVar choice (.auxiliary c) = _ := partVar_auxiliary_of_split h hsplit hnone
  have hparts : p.partsOn choice (cs ++ [c]) [] =
      p.partsOn choice cs [] ++ [.multiplier c, .auxiliary c] := by
    simp [partsOn, partsOf, hnone]
  have hcone : p.multiplierCone choice c =
      .secondOrder [p.partVar choice (.multiplier c), p.partVar choice (.auxiliary c)] := by
    simp [multiplierCone, hnone]
  apply Program.ext
  · simp [Dual.Draft.programOn, withPair, hparts, Dual.Draft.var, transposedDraft, nextCone]
    exact hc ▸ rfl
  · simp [Dual.Draft.programOn, withPair, hcone, hy, hu, nextVar]
  · rfl
  · simp [Dual.Draft.programOn, withPair, hparts, Array.replicate_succ]

/-- **One constraint gets its multiplier.** -/
theorem addMultiplier_stage : (Dual.addMultiplier p choice
      (p.dualOn choice (p.transposedDraft choice []) cs [] 0) c).result =
    .ok (p.dualOn choice (p.transposedDraft choice []) (cs ++ [c]) [] 0) := by
  obtain ⟨row, hrow⟩ := mem_constraintIds_iff.mp (by rw [hsplit]; simp : c ∈ p.constraintIds)
  have hrhs : row.rhs = p.rhsOf c := by simp [rhsOf, hrow]
  have hy : p.partVar choice (.multiplier c) = _ := partVar_multiplier_of_split h hsplit
  have hnext : ((p.transposedDraft choice []).programOn p choice cs []).nextVar =
      p.partVar choice (.multiplier c) := by
    rw [hy]
    simp [nextVar, Dual.Draft.programOn]
  have hk : ((p.transposedDraft choice []).programOn p choice cs []).nextCone = ⟨c.index⟩ := by
    rw [index_of_constraintIds_split hsplit]
    simp [nextCone, Dual.Draft.programOn]
  simp only [Dual.addMultiplier, Dual.found, hrow, Checked.found_some, Traced.result_bind,
    Traced.result_quiet, Checked.ok_bind, h.slack?_eq hrow]
  cases hslack : p.slackOf choice c with
  | some v =>
    rw [Dual.result_addSignedMultiplier]
    simp only [dualOn, hnext, hrhs, programOn_concat_of_some h hsplit hslack,
      slackTable_concat_of_some h hslack, signedTable_concat_of_some hslack,
      freeTable_concat_of_some hslack]
  | none =>
    rw [Dual.result_addFreeMultiplier]
    simp only [dualOn, hnext, hk, hrhs, programOn_concat_of_none h hsplit hslack,
      slackTable_concat_of_none hslack, signedTable_concat_of_none hslack,
      freeTable_concat_of_none hslack]

end

/-! ## Reduced costs -/

section

variable (h : p.WellFormed) {v : VarId} {vs rest : List VarId}
include h

theorem partVar_reducedCost_of_split (hsplit : p.ordinaryVars choice = vs ++ v :: rest) :
    p.partVar choice (.reducedCost v) = ⟨(p.partsOn choice p.constraintIds vs).length⟩ := by
  have hparts : p.parts choice = p.partsOn choice p.constraintIds vs ++ .reducedCost v ::
      rest.map .reducedCost := by
    rw [parts, hsplit]
    simp [partsOn]
  exact h.partVar_of_split hparts

theorem programOn_concat_var (hsplit : p.ordinaryVars choice = vs ++ v :: rest) :
    ((p.transposedDraft choice []).programOn p choice p.constraintIds vs).withRow (-p.costOf v) =
      (p.transposedDraft choice []).programOn p choice p.constraintIds (vs ++ [v]) := by
  have hw : p.partVar choice (.reducedCost v) = _ := partVar_reducedCost_of_split h hsplit
  have hr : p.dualRow choice v = _ := h.dualRow_of_split hsplit
  have hidx : (p.ordinaryVars choice).idxOf v = vs.length := by
    simpa [dualRow] using hr
  have hparts : p.partsOn choice p.constraintIds (vs ++ [v]) =
      p.partsOn choice p.constraintIds vs ++ [.reducedCost v] := by
    simp [partsOn]
  have hnext : ((p.transposedDraft choice []).programOn p choice p.constraintIds vs).nextVar =
      p.partVar choice (.reducedCost v) := by
    rw [hw]
    simp [nextVar, Dual.Draft.programOn]
  rw [withRow, hnext]
  apply Program.ext
  · simp [Dual.Draft.programOn, hparts, Dual.Draft.var, nextCone, nextConstraint, hr, hidx]
  · simp [Dual.Draft.programOn]
  · simp [Dual.Draft.programOn, Dual.Draft.row, transposedDraft, dualTerms, Terms.ofList]
  · simp [Dual.Draft.programOn, hparts, Array.replicate_succ]

omit h in
theorem rowTable_concat : (p.rowTable choice vs).setIfInBounds v.index
    (some (p.dualRow choice v)) = p.rowTable choice (vs ++ [v]) := by
  refine set_varTable ?_ fun u hu => ?_
  · simp
  · simp [hu]

omit h in
theorem getElem?_slackTable (choice : SlackChoice) {x : Variable α} (hx : p.var? v = some x) :
    (p.slackTable choice p.constraintIds)[v.index]? =
      some ((p.slackRow? choice v).map fun c => p.partVar choice (.multiplier c)) :=
  getElem?_varTable _ hx

/-- **One nonnegative variable gets its dual constraint, unless it is a chosen slack.** -/
theorem addReducedCost_stage (hsplit : p.nonnegVars = vs ++ v :: rest) :
    (Dual.addReducedCost p (p.dualOn choice (p.transposedDraft choice []) p.constraintIds
      (vs.filter fun u => (p.slackRow? choice u).isNone) 0) v).result =
    .ok (p.dualOn choice (p.transposedDraft choice []) p.constraintIds
      ((vs ++ [v]).filter fun u => (p.slackRow? choice u).isNone) 0) := by
  obtain ⟨x, hx, _⟩ := h.var_of_mem_nonnegVars (by rw [hsplit]; simp : v ∈ p.nonnegVars)
  have hcost : x.cost = p.costOf v := by simp [costOf, hx]
  have hslot := getElem?_slackTable choice hx
  rw [List.filter_append]
  cases hrow : p.slackRow? choice v with
  | some c =>
    rw [hrow] at hslot
    simp [Dual.addReducedCost, Dual.found, dualOn, hslot, hrow]
  | none =>
    rw [hrow] at hslot
    have hsplit' : p.ordinaryVars choice = (vs.filter fun u => (p.slackRow? choice u).isNone) ++
        v :: rest.filter fun u => (p.slackRow? choice u).isNone := by
      unfold ordinaryVars
      rw [hsplit, List.filter_append, List.filter_cons, hrow]
      rfl
    have hc : ((p.transposedDraft choice []).programOn p choice p.constraintIds
        (vs.filter fun u => (p.slackRow? choice u).isNone)).nextConstraint =
        p.dualRow choice v := by
      rw [h.dualRow_of_split hsplit']
      simp [nextConstraint, Dual.Draft.programOn]
    rw [Dual.result_addReducedCost hslot hx]
    simp [dualOn, hcost, hc, hrow, programOn_concat_var h hsplit', rowTable_concat]

end

end Program

end Conic
