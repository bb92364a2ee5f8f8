import Conic.Proofs.Dual.Derivation

/-!
# Looking things up in the dual

What the records of `Program.derivedDual` are, by what they stand for.

* `derivedDual_var?_multiplier`, `derivedDual_var?_auxiliary`, `derivedDual_var?_reducedCost` — the
  variables; `exists_part_of_var?` says that there are no others.
* `derivedDual_cone?_multiplier`, `derivedDual_cone?_reducedCost` — the cones.
* `derivedDual_constraint?`, `WellFormed.coefficient?_derivedDual` — the constraints and their terms.
* `constraintOf?_derivedDual`, `multiplier?_derivedDual` — the tables.
-/

set_option autoImplicit false

namespace Conic.Program

variable {α : Type} [Scalar α] {p : Program α} {settings : Settings α} {c : ConstraintId} {v : VarId}

/-- The draft that the construction ends in. -/
def finalDraft (p : Program α) (settings : Settings α) : Dual.Draft α :=
  p.rescaledDraft settings (p.rescaledRows settings)

theorem derivedDual_program (p : Program α) (settings : Settings α) :
    (p.derivedDual settings).program =
      (p.finalDraft settings).program p settings.slackChoice := rfl

/-! ## Variables -/

theorem derivedDual_var?_multiplier (hc : c ∈ p.constraintIds) :
    (p.derivedDual settings).program.var? (p.partVar settings.slackChoice (.multiplier c)) =
      some ⟨⟨c.index⟩, (p.finalDraft settings).cost c, 0,
        p.dualMembership settings.slackChoice c⟩ :=
  Dual.Draft.var?_multiplier hc

theorem derivedDual_var?_auxiliary (hc : c ∈ p.constraintIds)
    (hnone : p.slackOf settings.slackChoice c = none) :
    (p.derivedDual settings).program.var? (p.partVar settings.slackChoice (.auxiliary c)) =
      some ⟨⟨c.index⟩, 0, 0, []⟩ :=
  Dual.Draft.var?_program ((p.auxiliary_mem_partsOn _).mpr ⟨hc, hnone⟩)

theorem derivedDual_var?_reducedCost (hv : v ∈ p.ordinaryVars settings.slackChoice) :
    (p.derivedDual settings).program.var? (p.partVar settings.slackChoice (.reducedCost v)) =
      some ⟨⟨p.constraints.size + (p.ordinaryVars settings.slackChoice).idxOf v⟩, 0, 0,
        [p.dualRow settings.slackChoice v]⟩ :=
  Dual.Draft.var?_program ((p.reducedCost_mem_partsOn _).mpr hv)

theorem exists_getElem?_of_map {β γ : Type} {l : List β} {f : β → γ} {i : Nat} {b : γ}
    (h : (l.map f).toArray[i]? = some b) : ∃ a, l[i]? = some a ∧ f a = b := by
  simpa using h

/-- Every variable of the dual stands for a part. -/
theorem exists_part_of_var? (h : p.WellFormed) {y : VarId} {x : Variable α}
    (hy : (p.derivedDual settings).program.var? y = some x) :
    ∃ part ∈ p.parts settings.slackChoice, y = p.partVar settings.slackChoice part := by
  obtain ⟨part, hpart, _⟩ := exists_getElem?_of_map hy
  obtain ⟨hlt, hget⟩ := List.getElem?_eq_some_iff.mp hpart
  have hnd : (p.parts settings.slackChoice).Nodup := h.parts_nodup
  have hidx : (p.parts settings.slackChoice).idxOf part = y.index := by
    rw [← hget]
    exact hnd.idxOf_getElem y.index hlt
  exact ⟨part, List.mem_of_getElem? hpart, by rw [partVar, hidx]⟩

/-- The variables of the dual, as what they stand for. -/
theorem varIds_derivedDual (h : p.WellFormed) (settings : Settings α) :
    (p.derivedDual settings).program.varIds =
      (p.parts settings.slackChoice).map (p.partVar settings.slackChoice) := by
  have hsize : (p.derivedDual settings).program.vars.size =
      (p.parts settings.slackChoice).length := by
    simp [derivedDual_program, Dual.Draft.program, Dual.Draft.programOn, parts]
  have hnd : (p.parts settings.slackChoice).Nodup := h.parts_nodup
  apply List.ext_getElem
  · simp [hsize]
  · intro i hi _
    have hi' : i < (p.parts settings.slackChoice).length := by simpa [hsize] using hi
    simp [varIds, partVar, hnd.idxOf_getElem i hi']

/-! ## Cones -/

theorem derivedDual_cone?_multiplier (hc : c ∈ p.constraintIds) :
    (p.derivedDual settings).program.cone? ⟨c.index⟩ =
      some (p.multiplierCone settings.slackChoice c) := by
  have hlt : c.index < p.constraints.size := by
    obtain ⟨row, hrow⟩ := mem_constraintIds_iff.mp hc
    exact (Array.getElem?_eq_some_iff.mp hrow).1
  have hleft : c.index < (p.constraintIds.map (p.multiplierCone settings.slackChoice)).length := by
    simpa using hlt
  rw [cone?, derivedDual_program]
  simp only [Dual.Draft.program, Dual.Draft.programOn, List.getElem?_toArray]
  rw [List.getElem?_append_left hleft]
  simp [constraintIds, hlt]

theorem derivedDual_cone?_reducedCost (hv : v ∈ p.ordinaryVars settings.slackChoice) :
    (p.derivedDual settings).program.cone?
        ⟨p.constraints.size + (p.ordinaryVars settings.slackChoice).idxOf v⟩ =
      some (.nonneg (p.partVar settings.slackChoice (.reducedCost v))) := by
  simp [derivedDual_program, Dual.Draft.program, Dual.Draft.programOn, cone?, constraintIds,
    List.getElem?_append_right, hv]

/-- Every cone of the dual belongs to a constraint or to an ordinary variable. -/
theorem exists_of_cone? (h : p.WellFormed) {k : ConeId} {cone : Cone}
    (hk : (p.derivedDual settings).program.cone? k = some cone) :
    (∃ c ∈ p.constraintIds, k = ⟨c.index⟩ ∧ cone = p.multiplierCone settings.slackChoice c) ∨
    ∃ v ∈ p.ordinaryVars settings.slackChoice,
      k = ⟨p.constraints.size + (p.ordinaryVars settings.slackChoice).idxOf v⟩ ∧
        cone = .nonneg (p.partVar settings.slackChoice (.reducedCost v)) := by
  have hnd : (p.ordinaryVars settings.slackChoice).Nodup := h.ordinaryVars_nodup
  by_cases hlt : k.index < p.constraints.size
  · have hc : (⟨k.index⟩ : ConstraintId) ∈ p.constraintIds := by simp [constraintIds, hlt]
    have hcone : (p.derivedDual settings).program.cone? k = _ := derivedDual_cone?_multiplier hc
    rw [hcone] at hk
    exact Or.inl ⟨⟨k.index⟩, hc, rfl, (Option.some.inj hk).symm⟩
  · have hright := hk
    rw [cone?, derivedDual_program] at hright
    simp only [Dual.Draft.program, Dual.Draft.programOn, List.getElem?_toArray] at hright
    rw [List.getElem?_append_right (by simpa using hlt)] at hright
    simp only [List.length_map, length_constraintIds, List.getElem?_map,
      Option.map_eq_some_iff] at hright
    obtain ⟨v, hv, rfl⟩ := hright
    obtain ⟨hvlt, hget⟩ := List.getElem?_eq_some_iff.mp hv
    have hidx := hnd.idxOf_getElem _ hvlt
    rw [hget] at hidx
    refine Or.inr ⟨v, List.mem_of_getElem? hv, ?_, rfl⟩
    rw [hidx, Nat.add_sub_cancel' (Nat.le_of_not_lt hlt)]

/-! ## Constraints -/

theorem derivedDual_constraint? (hv : v ∈ p.ordinaryVars settings.slackChoice) :
    (p.derivedDual settings).program.constraint? (p.dualRow settings.slackChoice v) =
      some ⟨(p.finalDraft settings).terms v, -p.costOf v, 0⟩ :=
  Dual.Draft.constraint?_program hv

theorem dualRow_mem_constraintIds (hv : v ∈ p.ordinaryVars settings.slackChoice) :
    p.dualRow settings.slackChoice v ∈ (p.derivedDual settings).program.constraintIds :=
  mem_constraintIds_iff.mpr ⟨_, derivedDual_constraint? hv⟩

theorem derivedDual_rhsOf (hv : v ∈ p.ordinaryVars settings.slackChoice) :
    (p.derivedDual settings).program.rhsOf (p.dualRow settings.slackChoice v) = -p.costOf v := by
  unfold rhsOf
  rw [derivedDual_constraint? hv]
  rfl

theorem derivedDual_costOf_auxiliary (hc : c ∈ p.constraintIds)
    (hnone : p.slackOf settings.slackChoice c = none) :
    (p.derivedDual settings).program.costOf (p.partVar settings.slackChoice (.auxiliary c)) = 0 := by
  unfold costOf
  rw [derivedDual_var?_auxiliary hc hnone]
  rfl

theorem derivedDual_costOf_reducedCost (hv : v ∈ p.ordinaryVars settings.slackChoice) :
    (p.derivedDual settings).program.costOf
      (p.partVar settings.slackChoice (.reducedCost v)) = 0 := by
  unfold costOf
  rw [derivedDual_var?_reducedCost hv]
  rfl

/-- The constraint at position `j` belongs to the variable at position `j`. -/
theorem dualRow_of_getElem? (h : p.WellFormed) {choice : SlackChoice} {j : Nat}
    (hj : (p.ordinaryVars choice)[j]? = some v) : p.dualRow choice v = ⟨j⟩ := by
  obtain ⟨hlt, hget⟩ := List.getElem?_eq_some_iff.mp hj
  have hnd : (p.ordinaryVars choice).Nodup := h.ordinaryVars_nodup
  rw [dualRow, ← hget, hnd.idxOf_getElem j hlt]

/-- Every constraint of the dual belongs to an ordinary variable. -/
theorem exists_var_of_constraint? (h : p.WellFormed) {r : ConstraintId} {row : Constraint α}
    (hr : (p.derivedDual settings).program.constraint? r = some row) :
    ∃ v ∈ p.ordinaryVars settings.slackChoice, r = p.dualRow settings.slackChoice v := by
  obtain ⟨v, hv, _⟩ := exists_getElem?_of_map hr
  exact ⟨v, List.mem_of_getElem? hv, (dualRow_of_getElem? h hv).symm⟩

theorem constraintIds_derivedDual (p : Program α) (settings : Settings α) :
    (p.derivedDual settings).program.constraintIds =
      (List.range (p.ordinaryVars settings.slackChoice).length).map ConstraintId.mk := by
  simp [derivedDual_program, Dual.Draft.program, Dual.Draft.programOn, constraintIds]

namespace WellFormed

variable (h : p.WellFormed)
include h

theorem mem_rescaledRows_iff :
    c ∈ p.rescaledRows settings ↔ (p.divisorOf? settings c).isSome = true := by
  unfold rescaledRows
  rw [mem_rescaledAmong_iff h]
  constructor
  · exact fun hc => hc.2
  · intro hc
    refine ⟨?_, hc⟩
    obtain ⟨k, hk⟩ := Option.isSome_iff_exists.mp hc
    obtain ⟨v, hv, _⟩ := Option.bind_eq_some_iff.mp (Option.filter_eq_some_iff.mp hk).1
    exact ⟨v, h.mem_varIds_of_slackOf hv, hv⟩

theorem rescaledRows_nodup : (p.rescaledRows settings).Nodup :=
  rescaledAmong_nodup h p.varIds_nodup

theorem rescaledRows_sub : ∀ c ∈ p.rescaledRows settings, c ∈ p.constraintIds :=
  rescaledAmong_sub h

theorem divisorsAfter_rescaledRows :
    p.divisorsAfter settings (p.rescaledRows settings) = p.divisorOf? settings := by
  funext c
  rw [divisorsAfter]
  split
  · rfl
  · rename_i hc
    rw [h.mem_rescaledRows_iff, Option.not_isSome_iff_eq_none] at hc
    exact hc.symm

/-- The objective coefficient of a multiplier. -/
theorem finalDraft_cost : (p.finalDraft settings).cost c =
    dividedBy (p.divisorOf? settings c) (p.rhsOf c) := by
  unfold finalDraft
  rw [rescaledDraft, h.divisorsAfter_rescaledRows]

theorem derivedDual_costOf_multiplier (hc : c ∈ p.constraintIds) :
    (p.derivedDual settings).program.costOf (p.partVar settings.slackChoice (.multiplier c)) =
      dividedBy (p.divisorOf? settings c) (p.rhsOf c) := by
  unfold costOf
  rw [derivedDual_var?_multiplier hc, Option.map_some, Option.getD_some, h.finalDraft_cost]

theorem finalDraft_terms : (p.finalDraft settings).terms v =
    Terms.ofList (p.dualTerms settings.slackChoice (p.divisorOf? settings)
      (p.contributionOrder (p.rescaledRows settings)) v) := by
  unfold finalDraft
  rw [rescaledDraft, h.divisorsAfter_rescaledRows]

theorem toList_finalDraft_terms : ((p.finalDraft settings).terms v).toList =
    p.dualTerms settings.slackChoice (p.divisorOf? settings)
      (p.contributionOrder (p.rescaledRows settings)) v := by
  rw [h.finalDraft_terms]
  exact toList_ofList_dualTerms (contributionOrder_nodup h.rescaledRows_nodup)
    fun d => (mem_contributionOrder h.rescaledRows_sub).mp

/-- **The terms of a dual constraint**: one on its own reduced-cost variable, and one on the
multiplier of every constraint with a term on the variable. -/
theorem coefficient?_finalDraft_iff {y : VarId} {b : α} :
    ((p.finalDraft settings).terms v).coefficient? y = some b ↔
      (y = p.partVar settings.slackChoice (.reducedCost v) ∧ b = -1) ∨
      ∃ c a, p.coefficient? c v = some a ∧
        y = p.partVar settings.slackChoice (.multiplier c) ∧
        b = dividedBy (p.divisorOf? settings c) a := by
  have hmem : ∀ d, d ∈ p.contributionOrder (p.rescaledRows settings) ↔ d ∈ p.constraintIds :=
    fun d => mem_contributionOrder h.rescaledRows_sub
  rw [h.finalDraft_terms, coefficient?_dualTerms_iff (contributionOrder_nodup h.rescaledRows_nodup)
    fun d => (hmem d).mp]
  refine or_congr_right ⟨fun ⟨c, _, a, hc⟩ => ⟨c, a, hc⟩, fun ⟨c, a, hc, hrest⟩ => ?_⟩
  obtain ⟨row, hrow, _⟩ := Option.bind_eq_some_iff.mp hc
  exact ⟨c, (hmem c).mpr (mem_constraintIds_iff.mpr ⟨row, hrow⟩), a, hc, hrest⟩

/-- The variables with a term in a dual constraint. -/
theorem mem_vars_of_derivedDual_constraint? {r : ConstraintId} {row : Constraint α} {y : VarId}
    (hr : (p.derivedDual settings).program.constraint? r = some row) (hy : y ∈ row.terms.vars) :
    ∃ v ∈ p.ordinaryVars settings.slackChoice, r = p.dualRow settings.slackChoice v ∧
      (y = p.partVar settings.slackChoice (.reducedCost v) ∨
        ∃ c ∈ p.constraintIds, y = p.partVar settings.slackChoice (.multiplier c)) := by
  obtain ⟨v, hv, rfl⟩ := exists_var_of_constraint? h hr
  refine ⟨v, hv, rfl, ?_⟩
  rw [derivedDual_constraint? hv] at hr
  cases hr
  obtain ⟨b, hb⟩ := Terms.mem_vars_iff_coefficient?.mp hy
  rcases h.coefficient?_finalDraft_iff.mp hb with ⟨rfl, _⟩ | ⟨c, a, ha, rfl, _⟩
  · exact Or.inl rfl
  · obtain ⟨row, hrow, _⟩ := Option.bind_eq_some_iff.mp ha
    exact Or.inr ⟨c, mem_constraintIds_iff.mpr ⟨row, hrow⟩, rfl⟩

/-! ## Coefficients -/

variable {u : VarId} (hv : v ∈ p.ordinaryVars settings.slackChoice)
include hv

theorem derivedDual_coefficient?_multiplier (hc : c ∈ p.constraintIds) :
    (p.derivedDual settings).program.coefficient? (p.dualRow settings.slackChoice v)
      (p.partVar settings.slackChoice (.multiplier c)) =
        (p.coefficient? c v).map (dividedBy (p.divisorOf? settings c)) := by
  rw [coefficient?, derivedDual_constraint? hv]
  show ((p.finalDraft settings).terms v).coefficient? _ = _
  unfold finalDraft
  rw [coefficient?_rescaledDraft h.rescaledRows_nodup h.rescaledRows_sub hc,
    h.divisorsAfter_rescaledRows]

theorem derivedDual_coefficient?_auxiliary (hc : c ∈ p.constraintIds)
    (hnone : p.slackOf settings.slackChoice c = none) :
    (p.derivedDual settings).program.coefficient? (p.dualRow settings.slackChoice v)
      (p.partVar settings.slackChoice (.auxiliary c)) = none := by
  have hpart : Dual.Part.auxiliary c ∈ p.parts settings.slackChoice :=
    (p.auxiliary_mem_partsOn _).mpr ⟨hc, hnone⟩
  unfold coefficient?
  rw [derivedDual_constraint? hv, Option.eq_none_iff_forall_ne_some]
  intro b hb
  rcases h.coefficient?_finalDraft_iff.mp hb with ⟨he, _⟩ | ⟨d, _, _, he, _⟩
  · cases partVar_injective hpart he
  · cases partVar_injective hpart he

theorem derivedDual_coefficient?_reducedCost (hu : u ∈ p.ordinaryVars settings.slackChoice) :
    (p.derivedDual settings).program.coefficient? (p.dualRow settings.slackChoice v)
      (p.partVar settings.slackChoice (.reducedCost u)) = if u = v then some (-1) else none := by
  have hpart : Dual.Part.reducedCost u ∈ p.parts settings.slackChoice :=
    (p.reducedCost_mem_partsOn _).mpr hu
  unfold coefficient?
  rw [derivedDual_constraint? hv]
  apply Option.ext
  intro b
  refine h.coefficient?_finalDraft_iff.trans ⟨?_, fun hb => ?_⟩
  · rintro (⟨he, rfl⟩ | ⟨d, _, _, he, _⟩)
    · cases partVar_injective hpart he
      rw [if_pos rfl]
    · cases partVar_injective hpart he
  · split at hb
    · rename_i huv
      cases hb
      exact Or.inl ⟨huv ▸ rfl, rfl⟩
    · cases hb

end WellFormed

/-! ## Tables -/

theorem signedMultiplier?_derivedDual (hv : p.slackOf settings.slackChoice c = some v) :
    (p.derivedDual settings).signedMultiplier? c =
      some (p.partVar settings.slackChoice (.multiplier c)) := by
  obtain ⟨row, hrow, _⟩ := slackOf_eq_some hv
  have hc : c ∈ p.constraintIds := mem_constraintIds_iff.mpr ⟨row, hrow⟩
  have hentry : (p.derivedDual settings).signedMultipliers[c.index]? = _ :=
    getElem?_constraintTable _ hrow
  unfold Dual.signedMultiplier?
  rw [hentry]
  simp [hc, hv]

/-- Where every constraint has a slack there are no free multipliers. -/
theorem freeMultiplier?_derivedDual (hslack : p.SlackEverywhere) (c : ConstraintId) :
    (p.derivedDual settings).freeMultiplier? c = none := by
  cases hrow : p.constraint? c with
  | some row =>
    have hentry : (p.derivedDual settings).freeMultipliers[c.index]? = _ :=
      getElem?_constraintTable _ hrow
    have hsome : ¬(p.slackOf settings.slackChoice c).isNone = true := by
      simpa [Option.isSome_iff_ne_none] using (slackOf_isSome_iff hrow).mpr (hslack hrow)
    unfold Dual.freeMultiplier?
    rw [hentry]
    simp [hsome]
  | none =>
    have hge : p.constraints.size ≤ c.index := by simpa [constraint?] using hrow
    have hout : p.constraintIds[c.index]? = none := by simp [constraintIds, hge]
    simp [Dual.freeMultiplier?, derivedDual, rescaledDual, dualOn, freeTable, hout]

theorem multiplier?_derivedDual {row : Constraint α} (hrow : p.constraint? c = some row) :
    (p.derivedDual settings).multiplier? c =
      some (p.partVar settings.slackChoice (.multiplier c)) :=
  multiplier?_dualOn _ hrow

theorem multiplier?_derivedDual_eq_some_iff {y : VarId} :
    (p.derivedDual settings).multiplier? c = some y ↔
      c ∈ p.constraintIds ∧ y = p.partVar settings.slackChoice (.multiplier c) := by
  cases hrow : p.constraint? c with
  | some row =>
    have hc : c ∈ p.constraintIds := mem_constraintIds_iff.mpr ⟨row, hrow⟩
    simp [multiplier?_derivedDual hrow, hc, eq_comm]
  | none =>
    have hc : c ∉ p.constraintIds := fun hc => by
      obtain ⟨row, hrow'⟩ := mem_constraintIds_iff.mp hc
      rw [hrow] at hrow'
      cases hrow'
    have hge : p.constraints.size ≤ c.index := by simpa [constraint?] using hrow
    have hout : p.constraintIds[c.index]? = none := by simp [constraintIds, hge]
    simp [Dual.multiplier?, Dual.signedMultiplier?, Dual.freeMultiplier?, derivedDual, rescaledDual,
      dualOn, signedTable, freeTable, hout, hc]

theorem slackVarOf?_derivedDual_eq_some_iff (h : p.WellFormed) {y : VarId} :
    (p.derivedDual settings).slackVarOf? v = some y ↔
      ∃ c, p.slackOf settings.slackChoice c = some v ∧
        y = p.partVar settings.slackChoice (.multiplier c) := by
  have hfind : ∀ c, (p.constraintIds.find? fun c => p.slackOf settings.slackChoice c = some v) =
      some c ↔ p.slackOf settings.slackChoice c = some v := fun c => h.slackRow?_eq_some_iff
  cases hx : p.var? v with
  | some x =>
    have hentry : (p.derivedDual settings).slackMultipliers[v.index]? = _ := getElem?_varTable _ hx
    unfold Dual.slackVarOf?
    rw [hentry]
    show Option.map _ _ = some y ↔ _
    rw [Option.map_eq_some_iff]
    exact exists_congr fun c => and_congr (hfind c) eq_comm
  | none =>
    have hge : p.vars.size ≤ v.index := by simpa [var?] using hx
    have hout : p.varIds[v.index]? = none := by simp [varIds, hge]
    have hnone : (p.derivedDual settings).slackVarOf? v = none := by
      simp [Dual.slackVarOf?, derivedDual, rescaledDual, dualOn, slackTable, hout]
    rw [hnone]
    refine iff_of_false (fun hy => by cases hy) ?_
    rintro ⟨c, hc, _⟩
    obtain ⟨x, hx', _⟩ := h.slackOf_var hc
    rw [hx] at hx'
    cases hx'

theorem constraintOf?_derivedDual_eq_some_iff (h : p.WellFormed) {r : ConstraintId} :
    (p.derivedDual settings).constraintOf? v = some r ↔
      v ∈ p.ordinaryVars settings.slackChoice ∧ r = p.dualRow settings.slackChoice v := by
  cases hx : p.var? v with
  | some x =>
    have hslot := getElem?_rowTable settings.slackChoice (p.ordinaryVars settings.slackChoice) hx
    have hentry : (p.derivedDual settings).reducedCostRows[v.index]? = _ := hslot
    unfold Dual.constraintOf?
    rw [hentry]
    by_cases hv : v ∈ p.ordinaryVars settings.slackChoice <;> simp [hv, eq_comm]
  | none =>
    have hv : v ∉ p.ordinaryVars settings.slackChoice := fun hv => by
      obtain ⟨x, hx', _⟩ := h.var_of_mem_nonnegVars (h.mem_ordinaryVars_iff.mp hv).1
      rw [hx] at hx'
      cases hx'
    have hge : p.vars.size ≤ v.index := by simpa [var?] using hx
    have hout : p.varIds[v.index]? = none := by simp [varIds, hge]
    simp [Dual.constraintOf?, derivedDual, rescaledDual, dualOn, rowTable, hout, hv]

end Conic.Program
