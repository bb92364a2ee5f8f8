import Conic.Proofs.Program.Optimal
import Conic.Proofs.Staging

/-!
# Storing a solution in a program

* `Program.withMultipliers`, `Program.withReducedCosts`, `Program.withCoordinates` — some of the
  solved quantities of a program replaced.
* `StandardForm.setMultipliers?_eq`, `StandardForm.setReducedCosts?_eq` — the two folds.
* `Program.solved` — a program that holds a solution of its standard form.
* `Program.apply_exported` — **storing a solution of the standard form of a program succeeds.**
-/

set_option autoImplicit false

namespace Conic

namespace Program

variable {α : Type} {p : Program α} {v : VarId} {c : ConstraintId} {b : α}

/-! ## Replaced quantities -/

/-- The program with the multipliers that `f` names. -/
def withMultipliers (p : Program α) (f : ConstraintId → Option α) : Program α :=
  { p with
    constraints :=
      overwritten (fun b row => { row with multiplier := b }) (fun i => f ⟨i⟩) p.constraints }

/-- The program with the dual values that `f` names. -/
def withReducedCosts (p : Program α) (f : VarId → Option α) : Program α :=
  { p with
    vars := overwritten (fun b x => { x with reducedCost := b }) (fun i => f ⟨i⟩) p.vars }

/-- The program with the coordinates that `f` names. -/
def withCoordinates (p : Program α) (f : VarId → Option α) : Program α :=
  { p with point := overwritten (fun b _ => b) (fun i => f ⟨i⟩) p.point }

theorem setMultiplier?_withMultipliers {f g : ConstraintId → Option α}
    (hc : c.index < p.constraints.size) (hf : f c = none) (hg : g c = some b)
    (hne : ∀ d, d ≠ c → g d = f d) :
    (p.withMultipliers f).setMultiplier? c b = some (p.withMultipliers g) := by
  have hrow : (p.withMultipliers f).constraint? c ≠ none := by
    simp [withMultipliers, constraint?, hc]
  obtain ⟨row, hrow⟩ := Option.ne_none_iff_exists'.mp hrow
  rw [setMultiplier?, hrow, Option.map_some]
  unfold modifyConstraint withMultipliers
  rw [modify_overwritten hf hg fun j hj => hne ⟨j⟩ fun he => hj (by rw [← he])]

theorem setReducedCost?_withReducedCosts {f g : VarId → Option α} (hv : v.index < p.vars.size)
    (hf : f v = none) (hg : g v = some b) (hne : ∀ u, u ≠ v → g u = f u) :
    (p.withReducedCosts f).setReducedCost? v b = some (p.withReducedCosts g) := by
  have hx : (p.withReducedCosts f).var? v ≠ none := by
    simp [withReducedCosts, var?, hv]
  obtain ⟨x, hx⟩ := Option.ne_none_iff_exists'.mp hx
  rw [setReducedCost?, hx, Option.map_some]
  unfold modifyVariable withReducedCosts
  rw [modify_overwritten hf hg fun j hj => hne ⟨j⟩ fun he => hj (by rw [← he])]

theorem setCoordinate?_withCoordinates {f g : VarId → Option α} (hv : v.index < p.point.size)
    (hf : f v = none) (hg : g v = some b) (hne : ∀ u, u ≠ v → g u = f u) :
    (p.withCoordinates f).setCoordinate? v b = some (p.withCoordinates g) := by
  have hlt : v.index < (p.withCoordinates f).point.size := by
    simpa [withCoordinates] using hv
  rw [setCoordinate?, if_pos hlt]
  unfold withCoordinates
  rw [setIfInBounds_overwritten hf hg fun j hj => hne ⟨j⟩ fun he => hj (by rw [← he])]

theorem withMultipliers_none (p : Program α) : p.withMultipliers (fun _ => none) = p := by
  unfold withMultipliers
  rw [overwritten_none fun _ => rfl]

theorem withReducedCosts_none (p : Program α) : p.withReducedCosts (fun _ => none) = p := by
  unfold withReducedCosts
  rw [overwritten_none fun _ => rfl]

theorem withCoordinates_none (p : Program α) : p.withCoordinates (fun _ => none) = p := by
  unfold withCoordinates
  rw [overwritten_none fun _ => rfl]

theorem withMultipliers_congr {f g : ConstraintId → Option α}
    (hfg : ∀ c ∈ p.constraintIds, f c = g c) : p.withMultipliers f = p.withMultipliers g := by
  unfold withMultipliers
  rw [overwritten_congr fun i hi => hfg ⟨i⟩ (List.mem_map_of_mem (List.mem_range.mpr hi))]

theorem withReducedCosts_congr {f g : VarId → Option α} (hfg : ∀ v ∈ p.varIds, f v = g v) :
    p.withReducedCosts f = p.withReducedCosts g := by
  unfold withReducedCosts
  rw [overwritten_congr fun i hi => hfg ⟨i⟩ (List.mem_map_of_mem (List.mem_range.mpr hi))]

theorem constraint?_withMultipliers (f : ConstraintId → Option α) :
    (p.withMultipliers f).constraint? c =
      (p.constraint? c).map fun row => { row with multiplier := (f c).getD row.multiplier } := by
  rw [constraint?, withMultipliers, getElem?_overwritten]
  congr 1
  funext row
  cases f c <;> rfl

theorem var?_withReducedCosts (f : VarId → Option α) : (p.withReducedCosts f).var? v =
    (p.var? v).map fun x => { x with reducedCost := (f v).getD x.reducedCost } := by
  rw [var?, withReducedCosts, getElem?_overwritten]
  congr 1
  funext x
  cases f v <;> rfl

theorem coordinate?_withCoordinates (f : VarId → Option α) : (p.withCoordinates f).coordinate? v =
    (p.coordinate? v).map fun a => (f v).getD a := by
  rw [coordinate?, withCoordinates, getElem?_overwritten]
  congr 1
  funext a
  cases f v <;> rfl

end Program

/-! ## The folds -/

namespace StandardForm

variable {α : Type} [Scalar α] {p : Program α}

/-- Setting the multipliers of the first constraints. -/
theorem setMultipliers?_eq {z : List α} (hz : z.length ≤ p.constraints.size) :
    setMultipliers? p z = some (p.withMultipliers fun c => z[c.index]?.map fun a => -a) := by
  let stage (pre : List α) : Program α := p.withMultipliers fun c => pre[c.index]?.map fun a => -a
  have hfold : setMultipliers? (stage []) z = some (stage z) := by
    refine foldlM_zipIdx_stages stage fun pre a post hsplit => ?_
    have hlt : pre.length < p.constraints.size := by
      rw [hsplit, List.length_append, List.length_cons] at hz
      omega
    refine Program.setMultiplier?_withMultipliers hlt ?_ ?_ fun d hd => ?_
    · simp
    · simp
    · rw [getElem?_concat_of_ne fun he => hd (by rw [← he])]
  have hnil : stage [] = p := p.withMultipliers_none
  rw [hnil] at hfold
  exact hfold

omit [Scalar α] in
/-- Setting dual values, each once. -/
theorem setReducedCosts?_eq {values : List (VarId × α)} (hnodup : (values.map Prod.fst).Nodup)
    (hvars : ∀ t ∈ values, t.1 ∈ p.varIds) :
    setReducedCosts? p values = some (p.withReducedCosts fun v => values.lookup v) := by
  let stage (pre : List (VarId × α)) : Program α := p.withReducedCosts fun v => pre.lookup v
  have hfold : setReducedCosts? (stage []) values = some (stage values) := by
    refine foldlM_stages stage fun pre t post hsplit => ?_
    have hfresh : t.1 ∉ pre.map Prod.fst := by
      rw [hsplit, List.map_append, List.map_cons] at hnodup
      have hmiddle := List.nodup_middle.mp hnodup
      exact fun hmem => hmiddle.notMem (List.mem_append_left _ hmem)
    have hnone : pre.lookup t.1 = none := by
      rw [List.lookup_eq_none_iff]
      intro u hu
      have hne : u.1 ≠ t.1 := fun he => hfresh (he ▸ List.mem_map_of_mem hu)
      simpa using Ne.symm hne
    have hmem : t.1 ∈ p.varIds := hvars t (hsplit ▸ List.mem_append_right pre List.mem_cons_self)
    refine Program.setReducedCost?_withReducedCosts (Program.index_of_mem_varIds hmem) hnone ?_
      fun u hu => ?_
    · rw [List.lookup_append, hnone]
      exact List.lookup_cons_self
    · rw [List.lookup_append]
      have hne : (u == t.1) = false := by simpa using hu
      have hlast : [t].lookup u = none := by
        rw [List.lookup_cons, hne]
        rfl
      rw [hlast, Option.or_none]
  have hnil : stage [] = p := p.withReducedCosts_none
  rw [hnil] at hfold
  exact hfold

/-- Looking a key up in two lists of the same length. -/
theorem lookup_zip {β : Type} {l : List VarId} {values : List β} (hlength : l.length = values.length)
    (v : VarId) : (l.zip values).lookup v = values[l.idxOf v]? := by
  induction l generalizing values with
  | nil => simp [List.length_eq_zero_iff.mp hlength.symm]
  | cons u l ih =>
    cases values with
    | nil => cases hlength
    | cons b values =>
      rw [List.zip_cons_cons, List.lookup_cons, List.idxOf_cons]
      by_cases huv : u = v
      · simp [huv]
      · have hvu : (v == u) = false := by simpa using Ne.symm huv
        have huv' : (u == v) = false := by simpa using huv
        rw [hvu, huv', ih (Nat.succ.inj hlength)]
        rfl

end StandardForm

/-! ## Solved programs -/

namespace Program

variable {p : Program ℚ} {x z : List ℚ} {v : VarId} {c : ConstraintId}

/-- The program with the point `x` and the solved quantities that belong to the multipliers `z` of
the rows of its standard form. -/
def solved (p : Program ℚ) (x z : List ℚ) : Program ℚ :=
  (({ p with point := x.toArray } : Program ℚ).withMultipliers fun c =>
    some (rowValue z c)).withReducedCosts fun v => some (p.coneValue z v)

theorem solved_constraint? : (p.solved x z).constraint? c =
    (p.constraint? c).map fun row => { row with multiplier := rowValue z c } :=
  constraint?_withMultipliers (p := { p with point := x.toArray }) fun c => some (rowValue z c)

theorem solved_var? : (p.solved x z).var? v =
    (p.var? v).map fun y => { y with reducedCost := p.coneValue z v } :=
  var?_withReducedCosts _

/-- The rows of the constraints give the multipliers. -/
theorem setMultipliers?_take (hz : p.constraints.size ≤ z.length) :
    StandardForm.setMultipliers? p (z.take p.constraints.size) =
      some (p.withMultipliers fun c => some (rowValue z c)) := by
  rw [StandardForm.setMultipliers?_eq (List.length_take_le _ _)]
  refine congrArg some (withMultipliers_congr fun c hc => ?_)
  have hlt : c.index < p.constraints.size := index_of_mem_constraintIds hc
  have hlt' : c.index < z.length := by omega
  rw [List.getElem?_take_of_lt hlt, rowValue, List.getD_eq_getElem?_getD,
    List.getElem?_eq_getElem hlt']
  rfl

/-- The rows of the cones give the dual values. -/
theorem setReducedCosts?_drop (hpart : p.Partitioned)
    (hz : z.length = p.constraints.size + p.vars.size) {q : Program ℚ} (hvars : q.varIds = p.varIds) :
    StandardForm.setReducedCosts? q (p.coneMembers.zip (z.drop p.constraints.size)) =
      some (q.withReducedCosts fun v => some (p.coneValue z v)) := by
  have hlength : p.coneMembers.length = (z.drop p.constraints.size).length := by
    rw [hpart.length_coneMembers, List.length_drop]
    omega
  have hkeys : (p.coneMembers.zip (z.drop p.constraints.size)).map Prod.fst = p.coneMembers :=
    List.map_fst_zip (Nat.le_of_eq hlength)
  rw [StandardForm.setReducedCosts?_eq]
  · refine congrArg some (withReducedCosts_congr fun v hv => ?_)
    have hlt := hpart.idxOf_lt (hvars ▸ hv)
    have hlt' : p.constraints.size + p.coneMembers.idxOf v < z.length := by omega
    rw [StandardForm.lookup_zip hlength, List.getElem?_drop, coneValue,
      List.getD_eq_getElem?_getD, List.getElem?_eq_getElem hlt']
    rfl
  · rw [hkeys]
    exact hpart.nodup
  · intro t ht
    have hmem : t.1 ∈ p.coneMembers := hkeys ▸ List.mem_map_of_mem ht
    rw [hvars]
    exact hpart.mem_iff.mp hmem

theorem exported_mismatch? (hx : x.length = p.vars.size)
    (hz : z.length = p.constraints.size + p.vars.size) : p.exported.mismatch? p x z = none := by
  unfold StandardForm.mismatch?
  rw [length_exported_cost, length_exported_rhs, if_neg, if_neg]
  · rintro (hne | hne)
    · exact hne hz
    · exact hne rfl
  · rintro (hne | hne)
    · exact hne hx
    · exact hne rfl

/-- **Storing a solution of the standard form of a program succeeds.** -/
theorem apply_exported (hpart : p.Partitioned) (hpoint : p.point.size = p.vars.size)
    (hx : x.length = p.vars.size) (hz : z.length = p.constraints.size + p.vars.size) :
    p.exported.apply p x z = .ok (p.solved x z) := by
  let q : Program ℚ := { p with point := x.toArray }
  have hsize : ¬p.point.size ≠ x.length := by
    rw [hpoint, hx]
    exact fun hne => hne rfl
  have hrows : StandardForm.setMultipliers? q (z.take p.constraints.size) =
      some (q.withMultipliers fun c => some (rowValue z c)) :=
    setMultipliers?_take (p := q) (hz.symm ▸ Nat.le_add_right _ _)
  have hvars : (q.withMultipliers fun c => some (rowValue z c)).varIds = p.varIds := rfl
  unfold StandardForm.apply
  rw [exported_mismatch? hx hz]
  show (if p.point.size ≠ x.length then _ else _) = _
  rw [if_neg hsize]
  show Checked.found ((StandardForm.setMultipliers? q (z.take p.constraints.size)).bind _) = _
  rw [hrows]
  exact congrArg Checked.found (setReducedCosts?_drop hpart hz hvars)

end Program

end Conic
