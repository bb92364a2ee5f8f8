import Mathlib.Data.List.Basic
import Conic.Proofs.Program.Records

/-!
# What an operation does

* `Program.Edited` — **everything that an operation can come to**, with `Program.edit_edited`.
* `Edited.wellFormed` — operations keep the records free of contradictions.
* `Edited.orthant` — only one operation brings in second-order cones.
* `Edited.within` — operations take no handle away.
-/

set_option autoImplicit false

namespace Conic

namespace Program

variable {α : Type} {p q : Program α} {v u : VarId} {c d : ConstraintId}

/-! ## Operations -/

/-- The next `n` variables. -/
def freshVars (p : Program α) (n : Nat) : List VarId :=
  (List.range' p.vars.size n).map VarId.mk

/-- A fresh cone with its variables. -/
def withCone [Zero α] (p : Program α) (k : Cone) : Program α :=
  { p.addVariables p.nextCone k.dim with cones := p.cones.push k }

/-- The terms of `c` and the membership list of `v` changed together. -/
def rewired (p : Program α) (c : ConstraintId) (v : VarId) (f : Terms α → Terms α)
    (g : List ConstraintId → List ConstraintId) : Program α :=
  (p.modifyConstraint c fun row => { row with terms := f row.terms }).modifyVariable v
    fun x => { x with constraints := g x.constraints }

/-- What an operation that is not declined comes to. -/
inductive Edited [Zero α] (p : Program α) : Edit α → Program α → Prop
  | nonneg : Edited p .addNonnegCone (p.withCone (.nonneg p.nextVar))
  | secondOrder {n : Nat} (hn : 2 ≤ n) :
      Edited p (.addSecondOrderCone n) (p.withCone (.secondOrder (p.freshVars n)))
  | constraint : Edited p .addConstraint p.addConstraint.1
  | term {c : ConstraintId} {v : VarId} {a : α} {row : Constraint α} {x : Variable α}
      (hrow : p.constraint? c = some row) (hx : p.var? v = some x) (hv : v ∉ row.terms.vars) :
      Edited p (.addTerm c v a) (p.rewired c v (·.put v a) (· ++ [c]))
  | removed {c : ConstraintId} {v : VarId} {row : Constraint α} {x : Variable α}
      (hrow : p.constraint? c = some row) (hx : p.var? v = some x) :
      Edited p (.removeTerm c v) (p.rewired c v (·.erase v) (·.filter (· ≠ c)))
  | numbers {edit : Edit α} {q : Program α} (hrec : q.records = p.records) : Edited p edit q

/-- **Everything that an operation can come to.** -/
theorem edit_edited [Zero α] {edit : Edit α} (hq : p.edit edit = .ok q) : p.Edited edit q := by
  cases edit with
  | addNonnegCone =>
    cases hq
    exact .nonneg
  | addSecondOrderCone n =>
    obtain ⟨⟨r, k⟩, hr, rfl⟩ := map_eq_ok.mp hq
    unfold addSecondOrderCone at hr
    split at hr
    · cases hr
    · rename_i hn
      split at hr
      · cases hr
      · cases hr
        have hcone : p.withCone (.secondOrder (p.freshVars n)) =
            { p.addVariables p.nextCone n with
              cones := p.cones.push (.secondOrder (p.freshVars n)) } := by
          simp [withCone, Cone.dim, Cone.members, freshVars]
        exact hcone ▸ .secondOrder (by omega)
  | addConstraint =>
    cases hq
    exact .constraint
  | addTerm c v a =>
    simp only [Program.edit, addTerm] at hq
    split at hq
    · cases hq
    · rename_i row hrow
      split at hq
      · cases hq
      · rename_i hv
        split at hq
        · cases hq
        · rename_i x hx
          cases hq
          exact .term hrow hx (by simpa using hv)
  | removeTerm c v =>
    obtain ⟨⟨r, a⟩, hr, rfl⟩ := map_eq_ok.mp hq
    unfold removeTerm at hr
    split at hr
    · cases hr
    · rename_i row hrow
      split at hr
      · cases hr
      · split at hr
        · cases hr
        · rename_i x hx
          cases hr
          exact .removed hrow hx
  | setCost v a =>
    obtain ⟨x, _, rfl⟩ := Option.map_eq_some_iff.mp (found_eq_ok.mp hq)
    exact .numbers (records_modifyVariable fun _ => ⟨rfl, rfl⟩)
  | setReducedCost v a => exact .numbers (setReducedCost?_records (found_eq_ok.mp hq))
  | setRhs c a =>
    obtain ⟨row, _, rfl⟩ := Option.map_eq_some_iff.mp (found_eq_ok.mp hq)
    exact .numbers (records_modifyConstraint fun _ => rfl)
  | setMultiplier c a => exact .numbers (setMultiplier?_records (found_eq_ok.mp hq))
  | setCoordinate v a => exact .numbers (setCoordinate?_records (found_eq_ok.mp hq))

/-! ## Well-formedness after an operation -/

theorem getElem?_push_eq_some_iff {β : Type} {xs : Array β} {b b' : β} {i : Nat} :
    (xs.push b)[i]? = some b' ↔ xs[i]? = some b' ∨ i = xs.size ∧ b' = b := by
  rw [Array.getElem?_push]
  split
  · rename_i hi
    subst hi
    simp [eq_comm]
  · rename_i hi
    simp [hi]

theorem mem_freshVars_iff {n : Nat} :
    v ∈ p.freshVars n ↔ p.vars.size ≤ v.index ∧ v.index < p.vars.size + n := by
  obtain ⟨i⟩ := v
  simp [freshVars, List.mem_range'_1]

theorem var?_of_mem_freshVars {n : Nat} (hv : v ∈ p.freshVars n) : p.var? v = none :=
  Array.getElem?_eq_none (mem_freshVars_iff.mp hv).1

section

variable [Zero α] {k : Cone}

theorem var?_withCone_eq_some_iff {x : Variable α} : (p.withCone k).var? v = some x ↔
    p.var? v = some x ∨ v ∈ p.freshVars k.dim ∧ x = ⟨p.nextCone, 0, 0, []⟩ := by
  rw [mem_freshVars_iff]
  simp only [withCone, addVariables, var?, Array.getElem?_append, Array.getElem?_replicate]
  by_cases hv : v.index < p.vars.size
  · have hold : ¬(p.vars.size ≤ v.index ∧ v.index < p.vars.size + k.dim) := by omega
    rw [if_pos hv]
    simp only [hold, false_and, or_false]
  · have hout : p.vars[v.index]? = none := Array.getElem?_eq_none (Nat.le_of_not_lt hv)
    have hpos : v.index - p.vars.size < k.dim ↔
        p.vars.size ≤ v.index ∧ v.index < p.vars.size + k.dim := by omega
    rw [if_neg hv, hout, ← hpos]
    split
    · rename_i hlt
      simp [hlt, eq_comm]
    · rename_i hge
      simp [hge]

theorem cone?_withCone_eq_some_iff {j : ConeId} {cone : Cone} :
    (p.withCone k).cone? j = some cone ↔ p.cone? j = some cone ∨ j = p.nextCone ∧ cone = k := by
  obtain ⟨i⟩ := j
  simp [withCone, cone?, nextCone, getElem?_push_eq_some_iff]

/-- A cone of fresh variables. -/
theorem WellFormed.withCone (h : p.WellFormed) (hmembers : k.members = p.freshVars k.dim)
    (hdim : ∀ members, k = .secondOrder members → 2 ≤ members.length) :
    (p.withCone k).WellFormed where
  point_size := by
    simp [Program.withCone, addVariables, h.point_size]
  dim hk := by
    rcases cone?_withCone_eq_some_iff.mp hk with hk | ⟨_, hk⟩
    · exact h.dim hk
    · exact hdim _ hk.symm
  owned hk hv := by
    rcases cone?_withCone_eq_some_iff.mp hk with hk | ⟨rfl, rfl⟩
    · obtain ⟨x, hx, hcone⟩ := h.owned hk hv
      exact ⟨x, var?_withCone_eq_some_iff.mpr (Or.inl hx), hcone⟩
    · exact ⟨_, var?_withCone_eq_some_iff.mpr (Or.inr ⟨hmembers ▸ hv, rfl⟩), rfl⟩
  term_var hrow hv := by
    obtain ⟨x, hx⟩ := h.term_var hrow hv
    exact ⟨x, var?_withCone_eq_some_iff.mpr (Or.inl hx)⟩
  listed hx := by
    rcases var?_withCone_eq_some_iff.mp hx with hx | ⟨hv, rfl⟩
    · obtain ⟨cone, hcone, hmem⟩ := h.listed hx
      exact ⟨cone, cone?_withCone_eq_some_iff.mpr (Or.inl hcone), hmem⟩
    · exact ⟨k, cone?_withCone_eq_some_iff.mpr (Or.inr ⟨rfl, rfl⟩), hmembers ▸ hv⟩
  recorded_nodup hx := by
    rcases var?_withCone_eq_some_iff.mp hx with hx | ⟨_, rfl⟩
    · exact h.recorded_nodup hx
    · exact List.nodup_nil
  recorded c hx := by
    rcases var?_withCone_eq_some_iff.mp hx with hx | ⟨hv, rfl⟩
    · exact h.recorded c hx
    · -- No constraint of the program can have a term on a variable that was not there.
      refine ⟨fun hc => absurd hc List.not_mem_nil, ?_⟩
      rintro ⟨row, hrow, hmem⟩
      obtain ⟨x, hx⟩ := h.term_var hrow hmem
      rw [var?_of_mem_freshVars hv] at hx
      cases hx

theorem constraint?_addConstraint_eq_some_iff {row : Constraint α} :
    p.addConstraint.1.constraint? c = some row ↔
      p.constraint? c = some row ∨ c = p.nextConstraint ∧ row = ⟨.empty, 0, 0⟩ := by
  obtain ⟨i⟩ := c
  simp [addConstraint, constraint?, nextConstraint, getElem?_push_eq_some_iff]

/-- A constraint without terms. -/
theorem WellFormed.addConstraint (h : p.WellFormed) : p.addConstraint.1.WellFormed := by
  have hempty : ∀ v, v ∉ (Terms.empty : Terms α).vars := fun v => List.not_mem_nil
  refine h.of_owners rfl rfl rfl (fun _ => rfl) ?_ (fun hx => h.recorded_nodup hx) ?_
  · intro c row v hrow hv
    rcases constraint?_addConstraint_eq_some_iff.mp hrow with hrow | ⟨_, rfl⟩
    · exact h.term_var hrow hv
    · exact absurd hv (hempty v)
  · intro v x c hx
    rw [h.recorded c hx]
    constructor
    · rintro ⟨row, hrow, hv⟩
      exact ⟨row, constraint?_addConstraint_eq_some_iff.mpr (Or.inl hrow), hv⟩
    · rintro ⟨row, hrow, hv⟩
      rcases constraint?_addConstraint_eq_some_iff.mp hrow with hrow | ⟨_, rfl⟩
      · exact ⟨row, hrow, hv⟩
      · exact absurd hv (hempty v)

end

/-! ### Terms -/

section

variable {f : Terms α → Terms α} {g : List ConstraintId → List ConstraintId}

theorem var?_rewired (u : VarId) : (p.rewired c v f g).var? u = (p.var? u).map fun x =>
    if u = v then { x with constraints := g x.constraints } else x := by
  obtain ⟨i⟩ := u
  obtain ⟨j⟩ := v
  simp only [rewired, modifyVariable, modifyConstraint, var?, Array.getElem?_modify,
    VarId.mk.injEq, eq_comm (a := j)]
  split <;> simp

theorem constraint?_rewired (d : ConstraintId) : (p.rewired c v f g).constraint? d =
    (p.constraint? d).map fun row => if d = c then { row with terms := f row.terms } else row := by
  obtain ⟨i⟩ := d
  obtain ⟨j⟩ := c
  simp only [rewired, modifyVariable, modifyConstraint, constraint?, Array.getElem?_modify,
    ConstraintId.mk.injEq, eq_comm (a := j)]
  split <;> simp

/-- When the terms of `c` and the membership list of `v` agree after a change, and nothing else is
concerned, the program stays well-formed. -/
theorem WellFormed.rewired (h : p.WellFormed) {row : Constraint α} {x : Variable α}
    (hrow : p.constraint? c = some row) (hx : p.var? v = some x)
    (hterms : ∀ u, u ≠ v → (u ∈ (f row.terms).vars ↔ u ∈ row.terms.vars))
    (hnodup : (g x.constraints).Nodup)
    (hlist : ∀ d, d ≠ c → (d ∈ g x.constraints ↔ d ∈ x.constraints))
    (hagree : c ∈ g x.constraints ↔ v ∈ (f row.terms).vars) : (p.rewired c v f g).WellFormed := by
  have hoccurs : ∀ d u, (∃ r, (p.rewired c v f g).constraint? d = some r ∧ u ∈ r.terms.vars) ↔
      if d = c then u ∈ (f row.terms).vars
      else ∃ r, p.constraint? d = some r ∧ u ∈ r.terms.vars := by
    intro d u
    rw [constraint?_rewired]
    by_cases hd : d = c
    · simp [hd, hrow]
    · simp [hd]
  have hsize : (p.rewired c v f g).vars.size = p.vars.size := by
    simp [Program.rewired, modifyVariable, modifyConstraint]
  refine h.of_owners rfl rfl hsize ?_ ?_ ?_ ?_
  · intro u
    rw [var?_rewired, Option.map_map]
    congr 1
    funext y
    by_cases hu : u = v <;> simp [hu]
  · intro d r u hr hu
    by_cases huv : u = v
    · exact ⟨x, huv ▸ hx⟩
    · have hold : ∃ r, p.constraint? d = some r ∧ u ∈ r.terms.vars := by
        have hnew := (hoccurs d u).mp ⟨r, hr, hu⟩
        split at hnew
        · rename_i hd
          exact ⟨row, hd ▸ hrow, (hterms u huv).mp hnew⟩
        · exact hnew
      obtain ⟨r, hr, hu⟩ := hold
      exact h.term_var hr hu
  · intro u y hnew
    rw [var?_rewired] at hnew
    obtain ⟨y, hy, rfl⟩ := Option.map_eq_some_iff.mp hnew
    by_cases hu : u = v
    · subst hu
      rw [hx] at hy
      cases hy
      simpa using hnodup
    · simpa [hu] using h.recorded_nodup hy
  · intro u y d hnew
    rw [var?_rewired] at hnew
    obtain ⟨y, hy, rfl⟩ := Option.map_eq_some_iff.mp hnew
    rw [hoccurs]
    have hold := h.recorded d hy
    by_cases hu : u = v
    · subst hu
      rw [hx] at hy
      cases hy
      by_cases hd : d = c
      · subst hd
        simpa using hagree
      · simpa [hd, hlist d hd] using hold
    · by_cases hd : d = c
      · subst hd
        simpa [hu, hterms u hu, hrow] using hold
      · simpa [hu, hd] using hold

end

/-- **Operations keep a program well-formed.** -/
theorem Edited.wellFormed [Zero α] {edit : Edit α} (hedited : p.Edited edit q) (h : p.WellFormed) :
    q.WellFormed := by
  cases hedited with
  | nonneg =>
    refine h.withCone (by simp [Cone.members, Cone.dim, freshVars, nextVar]) fun members hk => ?_
    cases hk
  | @secondOrder n hn =>
    refine h.withCone (by simp [Cone.members, Cone.dim, freshVars]) fun members hk => ?_
    cases hk
    simpa [freshVars] using hn
  | constraint => exact h.addConstraint
  | @term c v a row x hrow hx hv =>
    have hc : c ∉ x.constraints := fun hc => by
      obtain ⟨row', hrow', hmem⟩ := (h.recorded c hx).mp hc
      rw [hrow] at hrow'
      cases hrow'
      exact hv hmem
    refine h.rewired hrow hx (fun u hu => ?_) ?_ (fun d hd => ?_) ?_
    · rw [Terms.vars_put, if_neg hv]
      simp [hu]
    · exact List.nodup_append.mpr ⟨h.recorded_nodup hx, List.nodup_singleton c, fun d hd e he heq =>
        hc (List.mem_singleton.mp he ▸ heq ▸ hd)⟩
    · simp [hd]
    · rw [Terms.vars_put, if_neg hv]
      simp
  | @removed c v row x hrow hx =>
    refine h.rewired hrow hx (fun u hu => ?_) ((h.recorded_nodup hx).filter _) (fun d hd => ?_) ?_
    · rw [Terms.vars_erase]
      exact List.mem_erase_of_ne hu
    · simp [hd]
    · rw [Terms.vars_erase]
      simp [row.terms.nodup.mem_erase_iff, Terms.vars]
  | numbers hrec => exact h.of_records hrec

theorem Orthant.of_records (h : p.Orthant) (hrec : q.records = p.records) : q.Orthant := by
  intro k cone hk
  rw [cone?, cones_of_records hrec] at hk
  exact h hk

/-- Only the operation for second-order cones brings one in. -/
theorem Edited.orthant [Zero α] {edit : Edit α} (hedited : p.Edited edit q) (h : p.Orthant)
    (hedit : ∀ n, edit ≠ .addSecondOrderCone n) : q.Orthant := by
  cases hedited with
  | nonneg =>
    intro k cone hk
    rcases cone?_withCone_eq_some_iff.mp hk with hk | ⟨_, rfl⟩
    · exact h hk
    · rfl
  | secondOrder hn => exact absurd rfl (hedit _)
  | constraint => exact h
  | term hrow hx hv => exact h
  | removed hrow hx => exact h
  | numbers hrec => exact h.of_records hrec

/-- Every handle of `p` is one of `q`. -/
structure Within (p q : Program α) : Prop where
  vars : p.vars.size ≤ q.vars.size
  cones : p.cones.size ≤ q.cones.size
  constraints : p.constraints.size ≤ q.constraints.size

theorem Within.refl (p : Program α) : p.Within p :=
  ⟨Nat.le_refl _, Nat.le_refl _, Nat.le_refl _⟩

theorem Within.trans {r : Program α} (hpq : p.Within q) (hqr : q.Within r) : p.Within r :=
  ⟨Nat.le_trans hpq.vars hqr.vars, Nat.le_trans hpq.cones hqr.cones,
    Nat.le_trans hpq.constraints hqr.constraints⟩

theorem Within.of_records (hrec : q.records = p.records) : p.Within q :=
  ⟨Nat.le_of_eq (vars_size_of_records hrec).symm,
    Nat.le_of_eq (congrArg Array.size (cones_of_records hrec)).symm,
    Nat.le_of_eq (constraints_size_of_records hrec).symm⟩

/-- Operations take no handle away. -/
theorem Edited.within [Zero α] {edit : Edit α} (hedited : p.Edited edit q) : p.Within q := by
  cases hedited with
  | nonneg | secondOrder => constructor <;> simp [withCone, addVariables]
  | constraint => constructor <;> simp [addConstraint]
  | term | removed => constructor <;> simp [rewired, modifyVariable, modifyConstraint]
  | numbers hrec => exact .of_records hrec

end Program

end Conic
