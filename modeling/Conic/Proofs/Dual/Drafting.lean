import Conic.Proofs.Dual.ClosedForm
import Conic.Proofs.Program.Growth

/-!
# Changing a draft

The operations on programs that transposing and rescaling use, carried out on the program of a
draft: each changes the draft in one place.

* `Draft.var?_program`, `Draft.constraint?_program` — look-up by handle.
* `Draft.addTerm_program`, `Draft.removeTerm_program`, `Draft.setCost?_program` — one change each.
-/

set_option autoImplicit false

namespace Conic.Dual.Draft

/-! ## Arrays indexed by the elements of a list -/

theorem getElem?_map_idxOf {β γ : Type} [DecidableEq β] {l : List β} {b : β} (f : β → γ)
    (hb : b ∈ l) : (l.map f).toArray[l.idxOf b]? = some (f b) := by
  rw [List.getElem?_toArray, List.getElem?_map, List.getElem?_idxOf hb, Option.map_some]

theorem modify_map_idxOf {β γ : Type} [DecidableEq β] {l : List β} (b : β) (hl : l.Nodup)
    (f : β → γ) (g : γ → γ) : (l.map f).toArray.modify (l.idxOf b) g =
      (l.map (Function.update f b (g (f b)))).toArray := by
  apply Array.ext
  · simp
  · intro i hi _
    simp only [Array.size_modify, List.size_toArray, List.length_map] at hi
    simp only [Array.getElem_modify, List.getElem_toArray, List.getElem_map]
    by_cases hib : l.idxOf b = i
    · subst hib
      simp [List.getElem_idxOf]
    · have hne : l[i] ≠ b := fun he => hib (by rw [← he, hl.idxOf_getElem])
      simp [hib, hne]

variable {α : Type} [Scalar α] {D : Draft α} {p : Program α} {choice : SlackChoice}

/-! ## Look-up -/

theorem var?_program {part : Part} (hpart : part ∈ p.parts choice) :
    (D.program p choice).var? (p.partVar choice part) = some (D.var p choice part) :=
  getElem?_map_idxOf (D.var p choice) hpart

theorem constraint?_program {v : VarId} (hv : v ∈ p.ordinaryVars choice) :
    (D.program p choice).constraint? (p.dualRow choice v) = some (D.row p v) :=
  getElem?_map_idxOf (D.row p) hv

/-! ## Changes -/

/-- The draft with another objective coefficient for the multiplier of `c`. -/
def withCost (D : Draft α) (c : ConstraintId) (a : α) : Draft α :=
  { D with cost := Function.update D.cost c a }

/-- The draft with another membership list for the multiplier of `c` and other terms in the
constraint of `v`. -/
def withRecords (D : Draft α) (c : ConstraintId) (l : List ConstraintId) (v : VarId) (t : Terms α) :
    Draft α :=
  { D with
    membership := Function.update D.membership c l
    terms := Function.update D.terms v t }

/-- The draft with one more term in the constraint of `v`, on the multiplier of `c`. -/
def withTerm (D : Draft α) (p : Program α) (choice : SlackChoice) (c : ConstraintId) (v : VarId)
    (a : α) : Draft α :=
  D.withRecords c (D.membership c ++ [p.dualRow choice v]) v
    ((D.terms v).put (p.partVar choice (.multiplier c)) a)

/-- The draft without the term on the multiplier of `c` in the constraint of `v`. -/
def withoutTerm (D : Draft α) (p : Program α) (choice : SlackChoice) (c : ConstraintId)
    (v : VarId) : Draft α :=
  D.withRecords c ((D.membership c).filter (· ≠ p.dualRow choice v)) v
    ((D.terms v).erase (p.partVar choice (.multiplier c)))

theorem update_var_cost (c : ConstraintId) (a : α) :
    Function.update (D.var p choice) (.multiplier c)
      { D.var p choice (.multiplier c) with cost := a } = (D.withCost c a).var p choice := by
  funext part
  by_cases hpart : part = .multiplier c
  · subst hpart
    simp [var, withCost]
  · rw [Function.update_of_ne hpart]
    cases part with
    | multiplier d =>
      have hd : d ≠ c := fun he => hpart (he ▸ rfl)
      simp [var, withCost, hd]
    | auxiliary d => rfl
    | reducedCost v => rfl

theorem update_var_membership (c : ConstraintId) (l : List ConstraintId) (v : VarId) (t : Terms α) :
    Function.update (D.var p choice) (.multiplier c)
      { D.var p choice (.multiplier c) with constraints := l } =
        (D.withRecords c l v t).var p choice := by
  funext part
  by_cases hpart : part = .multiplier c
  · subst hpart
    simp [var, withRecords]
  · rw [Function.update_of_ne hpart]
    cases part with
    | multiplier d =>
      have hd : d ≠ c := fun he => hpart (he ▸ rfl)
      simp [var, withRecords, hd]
    | auxiliary d => rfl
    | reducedCost v => rfl

theorem update_row (c : ConstraintId) (l : List ConstraintId) (v : VarId) (t : Terms α) :
    Function.update (D.row p) v { D.row p v with terms := t } = (D.withRecords c l v t).row p := by
  funext u
  by_cases hu : u = v
  · subst hu
    simp [row, withRecords]
  · simp [row, withRecords, hu]

variable {c : ConstraintId} {v : VarId} (h : p.WellFormed) (hc : c ∈ p.constraintIds)
  (hv : v ∈ p.ordinaryVars choice)

section
include hc

theorem multiplier_mem_parts : Part.multiplier c ∈ p.parts choice :=
  (p.multiplier_mem_partsOn choice).mpr hc

theorem var?_multiplier : (D.program p choice).var? (p.partVar choice (.multiplier c)) =
    some ⟨⟨c.index⟩, D.cost c, 0, D.membership c⟩ :=
  var?_program (multiplier_mem_parts hc)

include h

theorem setCost?_program (a : α) :
    (D.program p choice).setCost? (p.partVar choice (.multiplier c)) a =
      some ((D.withCost c a).program p choice) := by
  have hnd : (p.parts choice).Nodup := h.parts_nodup
  have hvars := modify_map_idxOf (.multiplier c) hnd (D.var p choice)
    fun x => { x with cost := a }
  rw [update_var_cost] at hvars
  unfold Program.setCost?
  rw [var?_multiplier hc, Option.map_some]
  congr 1
  exact Program.ext hvars rfl rfl rfl

omit hc in
/-- Changing one row and the membership list of one multiplier. -/
theorem modify_program (f : Terms α → Terms α) (g : List ConstraintId → List ConstraintId) :
    ((D.program p choice).modifyConstraint (p.dualRow choice v) fun row =>
        { row with terms := f row.terms }).modifyVariable (p.partVar choice (.multiplier c))
          (fun x => { x with constraints := g x.constraints }) =
      (D.withRecords c (g (D.membership c)) v (f (D.terms v))).program p choice := by
  have hnd : (p.parts choice).Nodup := h.parts_nodup
  have hvars := modify_map_idxOf (.multiplier c) hnd (D.var p choice)
    fun x => { x with constraints := g x.constraints }
  have hrowsnd : (p.ordinaryVars choice).Nodup := h.ordinaryVars_nodup
  have hrows := modify_map_idxOf v hrowsnd (D.row p)
    fun row => { row with terms := f row.terms }
  rw [update_var_membership c _ v (f (D.terms v))] at hvars
  rw [update_row c (g (D.membership c))] at hrows
  exact Program.ext hvars rfl hrows rfl

include hv

theorem addTerm_program (a : α) (hnew : p.partVar choice (.multiplier c) ∉ (D.terms v).vars) :
    (D.program p choice).addTerm (p.dualRow choice v) (p.partVar choice (.multiplier c)) a =
      .ok ((D.withTerm p choice c v a).program p choice) := by
  have hcontains : (D.terms v).contains (p.partVar choice (.multiplier c)) = false :=
    Bool.eq_false_iff.mpr fun ht => hnew (Terms.contains_iff.mp ht)
  rw [Program.addTerm, constraint?_program hv, var?_multiplier hc]
  simp only [row, hcontains, Bool.false_eq_true, if_false]
  rw [modify_program h (fun t => t.put (p.partVar choice (.multiplier c)) a)
    fun l => l ++ [p.dualRow choice v], withTerm]

theorem removeTerm_program {a : α}
    (ha : (D.terms v).coefficient? (p.partVar choice (.multiplier c)) = some a) :
    (D.program p choice).removeTerm (p.dualRow choice v) (p.partVar choice (.multiplier c)) =
      .ok ((D.withoutTerm p choice c v).program p choice, a) := by
  rw [Program.removeTerm, constraint?_program hv, var?_multiplier hc]
  simp only [row, ha]
  rw [modify_program h (fun t => t.erase (p.partVar choice (.multiplier c)))
    fun l => l.filter (· ≠ p.dualRow choice v), withoutTerm]

end

end Conic.Dual.Draft
