import Conic.Proofs.Dual.Lookup

/-!
# The dual is well-formed

The records of a derived dual agree with each other, so a dual can be a primal in turn.

* `Program.mem_dualMembership_iff` — the membership list of a multiplier.
* `WellFormed.derivedDual` — **the dual of a well-formed program is well-formed.**
-/

set_option autoImplicit false

namespace Conic.Program

variable {α : Type} [Scalar α] {p : Program α} {settings : Settings α} {c : ConstraintId} {v : VarId}

theorem mem_dualMembership_iff {choice : SlackChoice} {r : ConstraintId} :
    r ∈ p.dualMembership choice c ↔
      ∃ v ∈ p.ordinaryVars choice, (∃ a, p.coefficient? c v = some a) ∧ r = p.dualRow choice v := by
  rw [dualMembership_eq, List.mem_map]
  simp only [mem_ordinaryOn_iff, and_assoc, eq_comm]

theorem dualMembership_nodup (p : Program α) (choice : SlackChoice) (c : ConstraintId) :
    (p.dualMembership choice c).Nodup := by
  rw [dualMembership_eq]
  exact List.Nodup.map_on
    (fun v hv u _ he => dualRow_injective (mem_ordinaryOn_iff.mp hv).1 he) (ordinaryOn_nodup p _ c)

namespace WellFormed

variable (h : p.WellFormed)
include h

/-- A variable of the dual is recorded with the cone that lists it. -/
theorem derivedDual_owned {k : ConeId} {cone : Cone}
    (hk : (p.derivedDual settings).program.cone? k = some cone) (hv : v ∈ cone.members) :
    ∃ x, (p.derivedDual settings).program.var? v = some x ∧ x.cone = k := by
  rcases exists_of_cone? h hk with ⟨c, hc, rfl, rfl⟩ | ⟨u, hu, rfl, rfl⟩
  · unfold multiplierCone at hv
    split at hv
    · cases List.mem_singleton.mp hv
      exact ⟨_, derivedDual_var?_multiplier hc, rfl⟩
    · rename_i hslack
      have hnone : p.slackOf settings.slackChoice c = none := by simpa using hslack
      rcases List.mem_cons.mp hv with rfl | hv
      · exact ⟨_, derivedDual_var?_multiplier hc, rfl⟩
      · cases List.mem_singleton.mp hv
        exact ⟨_, derivedDual_var?_auxiliary hc hnone, rfl⟩
  · cases List.mem_singleton.mp hv
    exact ⟨_, derivedDual_var?_reducedCost hu, rfl⟩

theorem derivedDual_listed {x : Variable α}
    (hx : (p.derivedDual settings).program.var? v = some x) :
    ∃ cone, (p.derivedDual settings).program.cone? x.cone = some cone ∧ v ∈ cone.members := by
  obtain ⟨part, hpart, rfl⟩ := exists_part_of_var? h hx
  cases part with
  | multiplier c =>
    have hc := (p.multiplier_mem_partsOn _).mp hpart
    rw [derivedDual_var?_multiplier hc] at hx
    cases hx
    refine ⟨_, derivedDual_cone?_multiplier hc, ?_⟩
    unfold multiplierCone
    split <;> simp [Cone.members]
  | auxiliary c =>
    obtain ⟨hc, hnone⟩ := (p.auxiliary_mem_partsOn _).mp hpart
    rw [derivedDual_var?_auxiliary hc hnone] at hx
    cases hx
    exact ⟨_, derivedDual_cone?_multiplier hc, by simp [multiplierCone, hnone, Cone.members]⟩
  | reducedCost u =>
    have hu := (p.reducedCost_mem_partsOn _).mp hpart
    rw [derivedDual_var?_reducedCost hu] at hx
    cases hx
    exact ⟨_, derivedDual_cone?_reducedCost hu, List.mem_singleton_self _⟩

/-- A dual constraint with a term on a variable of the dual. -/
theorem derivedDual_occurs_iff {r : ConstraintId} : (∃ row,
    (p.derivedDual settings).program.constraint? r = some row ∧ v ∈ row.terms.vars) ↔
      ∃ u ∈ p.ordinaryVars settings.slackChoice, r = p.dualRow settings.slackChoice u ∧
        ∃ b, (p.derivedDual settings).program.coefficient? r v = some b := by
  constructor
  · rintro ⟨row, hr, hv⟩
    obtain ⟨u, hu, rfl⟩ := exists_var_of_constraint? h hr
    obtain ⟨b, hb⟩ := Terms.mem_vars_iff_coefficient?.mp hv
    exact ⟨u, hu, rfl, b, (coefficient?_eq hr v).trans hb⟩
  · rintro ⟨u, _, rfl, b, hb⟩
    obtain ⟨row, hr, hcoefficient⟩ := Option.bind_eq_some_iff.mp hb
    exact ⟨row, hr, Terms.mem_vars_iff_coefficient?.mpr ⟨b, hcoefficient⟩⟩

theorem derivedDual_recorded {x : Variable α} (r : ConstraintId)
    (hx : (p.derivedDual settings).program.var? v = some x) : r ∈ x.constraints ↔
      ∃ row, (p.derivedDual settings).program.constraint? r = some row ∧ v ∈ row.terms.vars := by
  rw [h.derivedDual_occurs_iff]
  obtain ⟨part, hpart, rfl⟩ := exists_part_of_var? h hx
  cases part with
  | multiplier c =>
    have hc := (p.multiplier_mem_partsOn _).mp hpart
    rw [derivedDual_var?_multiplier hc] at hx
    cases hx
    rw [mem_dualMembership_iff]
    refine exists_congr fun u => and_congr_right fun hu => ?_
    rw [and_comm]
    refine and_congr_right fun hr => ?_
    rw [hr, h.derivedDual_coefficient?_multiplier hu hc]
    simp
  | auxiliary c =>
    obtain ⟨hc, hnone⟩ := (p.auxiliary_mem_partsOn _).mp hpart
    rw [derivedDual_var?_auxiliary hc hnone] at hx
    cases hx
    refine ⟨fun hr => absurd hr List.not_mem_nil, ?_⟩
    rintro ⟨u, hu, rfl, b, hb⟩
    rw [h.derivedDual_coefficient?_auxiliary hu hc hnone] at hb
    cases hb
  | reducedCost w =>
    have hw := (p.reducedCost_mem_partsOn _).mp hpart
    rw [derivedDual_var?_reducedCost hw] at hx
    cases hx
    rw [List.mem_singleton]
    constructor
    · rintro rfl
      refine ⟨w, hw, rfl, -1, ?_⟩
      rw [h.derivedDual_coefficient?_reducedCost hw hw, if_pos rfl]
    · rintro ⟨u, hu, rfl, b, hb⟩
      rw [h.derivedDual_coefficient?_reducedCost hu hw] at hb
      split at hb
      · rename_i huw
        rw [huw]
      · cases hb

/-- **The dual of a well-formed program is well-formed.** -/
theorem derivedDual (settings : Settings α) :
    (p.derivedDual settings).program.WellFormed where
  point_size := by
    simp [derivedDual_program, Dual.Draft.program, Dual.Draft.programOn]
  dim hk := by
    rcases exists_of_cone? h hk with ⟨c, _, _, hcone⟩ | ⟨u, _, _, hcone⟩
    · unfold multiplierCone at hcone
      split at hcone
      · cases hcone
      · cases hcone
        exact Nat.le_refl 2
    · cases hcone
  owned := h.derivedDual_owned
  term_var hr hv := by
    obtain ⟨u, hu, _, rfl | ⟨c, hc, rfl⟩⟩ := h.mem_vars_of_derivedDual_constraint? hr hv
    · exact ⟨_, derivedDual_var?_reducedCost hu⟩
    · exact ⟨_, derivedDual_var?_multiplier hc⟩
  listed := h.derivedDual_listed
  recorded_nodup hx := by
    obtain ⟨part, hpart, rfl⟩ := exists_part_of_var? h hx
    cases part with
    | multiplier c =>
      rw [derivedDual_var?_multiplier ((p.multiplier_mem_partsOn _).mp hpart)] at hx
      cases hx
      exact dualMembership_nodup p _ c
    | auxiliary c =>
      obtain ⟨hc, hnone⟩ := (p.auxiliary_mem_partsOn _).mp hpart
      rw [derivedDual_var?_auxiliary hc hnone] at hx
      cases hx
      exact List.nodup_nil
    | reducedCost u =>
      rw [derivedDual_var?_reducedCost ((p.reducedCost_mem_partsOn _).mp hpart)] at hx
      cases hx
      exact List.nodup_singleton _
  recorded := h.derivedDual_recorded

end WellFormed

end Conic.Program
