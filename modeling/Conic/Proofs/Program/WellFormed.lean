import Mathlib.Data.List.Induction
import Mathlib.Data.List.Perm.Subperm
import Conic.Program.Consistency
import Conic.Proofs.Program.Reading

/-!
# What consistency means

`Program.inconsistency?` looks for the first contradiction and counts; `Program.WellFormed` says
the same without an order of search.

* `Program.WellFormed` — the point has one coordinate per variable, cones and variables name each
  other, terms name variables, and membership lists name exactly the constraints of a variable.
* `Program.consistent_iff_wellFormed` — the check decides well-formedness.
* `WellFormed.nonnegVars_nodup`, `WellFormed.mem_nonnegVars_iff` — no variable is nonnegative twice.
-/

set_option autoImplicit false

namespace Conic.Program

variable {α : Type}

/-! ## Well-formedness -/

/-- The records of a program agree with each other. -/
structure WellFormed (p : Program α) : Prop where
  point_size : p.point.size = p.vars.size
  dim : ∀ {k : ConeId} {members : List VarId},
    p.cone? k = some (.secondOrder members) → 2 ≤ members.length
  owned : ∀ {k : ConeId} {cone : Cone} {v : VarId},
    p.cone? k = some cone → v ∈ cone.members → ∃ x, p.var? v = some x ∧ x.cone = k
  term_var : ∀ {c : ConstraintId} {row : Constraint α} {v : VarId},
    p.constraint? c = some row → v ∈ row.terms.vars → ∃ x, p.var? v = some x
  listed : ∀ {v : VarId} {x : Variable α},
    p.var? v = some x → ∃ cone, p.cone? x.cone = some cone ∧ v ∈ cone.members
  recorded_nodup : ∀ {v : VarId} {x : Variable α}, p.var? v = some x → x.constraints.Nodup
  recorded : ∀ {v : VarId} {x : Variable α} (c : ConstraintId), p.var? v = some x →
    (c ∈ x.constraints ↔ ∃ row, p.constraint? c = some row ∧ v ∈ row.terms.vars)

theorem occursIn_iff {p : Program α} {v : VarId} {c : ConstraintId} :
    p.occursIn v c = true ↔ ∃ row, p.constraint? c = some row ∧ v ∈ row.terms.vars := by
  unfold occursIn
  cases p.constraint? c <;> simp

/-- A count over a list is a count over its positions. -/
theorem countP_eq_countP_range {β : Type} (f : β → Bool) (l : List β) :
    l.countP f = (List.range l.length).countP fun i => l[i]?.any f := by
  induction l using List.reverseRecOn with
  | nil => rfl
  | append_singleton l b ih =>
    have hpos : (List.range l.length).countP (fun i => (l ++ [b])[i]?.any f) =
        (List.range l.length).countP fun i => l[i]?.any f := by
      refine List.countP_congr fun i hi => ?_
      rw [List.getElem?_append_left (List.mem_range.mp hi)]
    rw [List.countP_append, ih, List.length_append, List.length_singleton, List.range_succ,
      List.countP_append, hpos]
    simp

/-- The constraints with a term on `v`, in order. -/
def constraintsOn (p : Program α) (v : VarId) : List ConstraintId :=
  p.constraintIds.filter (p.occursIn v)

theorem length_constraintsOn (p : Program α) (v : VarId) :
    (p.constraintsOn v).length = p.occurrences v := by
  unfold constraintsOn occurrences constraintIds
  rw [← List.countP_eq_length_filter, List.countP_map, countP_eq_countP_range _ p.constraints.toList,
    Array.length_toList]
  refine List.countP_congr fun i _ => ?_
  simp [occursIn, constraint?]

theorem mem_constraintsOn_iff {p : Program α} {v : VarId} {c : ConstraintId} :
    c ∈ p.constraintsOn v ↔ ∃ row, p.constraint? c = some row ∧ v ∈ row.terms.vars := by
  unfold constraintsOn
  rw [List.mem_filter, occursIn_iff, mem_constraintIds_iff]
  exact ⟨fun h => h.2, fun ⟨row, hrow, hv⟩ => ⟨⟨row, hrow⟩, row, hrow, hv⟩⟩

theorem constraintsOn_nodup (p : Program α) (v : VarId) : (p.constraintsOn v).Nodup :=
  p.constraintIds_nodup.filter _

/-- Comparing lengths decides whether a list without repetition names the right constraints. -/
theorem recorded_iff {p : Program α} {v : VarId} {l : List ConstraintId} :
    (l.Nodup ∧ l.length = p.occurrences v ∧ l.all (p.occursIn v) = true) ↔
      l.Nodup ∧ ∀ c, c ∈ l ↔ ∃ row, p.constraint? c = some row ∧ v ∈ row.terms.vars := by
  constructor
  · rintro ⟨hnd, hlen, hall⟩
    refine ⟨hnd, fun c => ?_⟩
    have hsub : l ⊆ p.constraintsOn v := by
      intro d hd
      exact mem_constraintsOn_iff.mpr (occursIn_iff.mp (List.all_eq_true.mp hall d hd))
    have hperm : l.Perm (p.constraintsOn v) :=
      (hnd.subperm hsub).perm_of_length_le (Nat.le_of_eq (by rw [length_constraintsOn, hlen]))
    rw [hperm.mem_iff, mem_constraintsOn_iff]
  · rintro ⟨hnd, hmem⟩
    have hperm : l.Perm (p.constraintsOn v) :=
      (List.perm_ext_iff_of_nodup hnd (p.constraintsOn_nodup v)).mpr fun c => by
        rw [hmem, mem_constraintsOn_iff]
    refine ⟨hnd, by rw [hperm.length_eq, length_constraintsOn], List.all_eq_true.mpr fun c hc => ?_⟩
    exact occursIn_iff.mpr ((hmem c).mp hc)

theorem coneFault?_eq_none_iff {p : Program α} {k : ConeId} {cone : Cone} :
    p.coneFault? k cone = none ↔ (∀ members, cone = .secondOrder members → 2 ≤ members.length) ∧
      ∀ v ∈ cone.members, ∃ x, p.var? v = some x ∧ x.cone = k := by
  have howned : cone.members.all (p.ownedBy k) = true ↔
      ∀ v ∈ cone.members, ∃ x, p.var? v = some x ∧ x.cone = k := by
    simp [ownedBy, Option.any_eq_true]
  have hdim : (cone.kind = .secondOrder ∧ cone.dim < 2) ↔
      ¬ ∀ members, cone = .secondOrder members → 2 ≤ members.length := by
    cases cone <;> simp [Cone.kind, Cone.dim, Cone.members]
  rw [← howned]
  unfold coneFault?
  split
  · rename_i h
    simp [hdim.mp h]
  · rename_i h
    rw [hdim, not_not] at h
    split
    · rename_i hall
      exact ⟨fun _ => ⟨h, hall⟩, fun _ => rfl⟩
    · rename_i hall
      simp [hall]

theorem termFault?_eq_none_iff {p : Program α} {row : Constraint α} :
    p.termFault? row = none ↔ ∀ v ∈ row.terms.vars, ∃ x, p.var? v = some x := by
  simp [termFault?, Option.ne_none_iff_exists']

theorem variableFault?_eq_none_iff {p : Program α} {v : VarId} {x : Variable α} :
    p.variableFault? v x = none ↔ (∃ cone, p.cone? x.cone = some cone ∧ v ∈ cone.members) ∧
      x.constraints.Nodup ∧
      ∀ c, c ∈ x.constraints ↔ ∃ row, p.constraint? c = some row ∧ v ∈ row.terms.vars := by
  rw [← recorded_iff, variableFault?]
  have hlisted : (p.cone? x.cone).any (fun cone => cone.members.contains v) = true ↔
      ∃ cone, p.cone? x.cone = some cone ∧ v ∈ cone.members := by
    simp [Option.any_eq_true]
  simp only [hlisted]
  split <;> simp_all

/-- **The check decides well-formedness.** -/
theorem consistent_iff_wellFormed {p : Program α} : p.consistent = true ↔ p.WellFormed := by
  have hcone : (∀ cone i, (cone, i) ∈ p.cones.toList.zipIdx → p.coneFault? ⟨i⟩ cone = none) ↔
      ∀ k cone, p.cone? k = some cone → p.coneFault? k cone = none := by
    constructor
    · intro h k cone hk
      exact h cone k.index (List.mem_zipIdx_iff_getElem?.mpr (by simpa [cone?] using hk))
    · intro h cone k hk
      exact h ⟨k⟩ cone (by simpa [cone?] using List.mem_zipIdx_iff_getElem?.mp hk)
  have hvar : (∀ x i, (x, i) ∈ p.vars.toList.zipIdx → p.variableFault? ⟨i⟩ x = none) ↔
      ∀ v x, p.var? v = some x → p.variableFault? v x = none := by
    constructor
    · intro h v x hv
      exact h x v.index (List.mem_zipIdx_iff_getElem?.mpr (by simpa [var?] using hv))
    · intro h x i hi
      exact h ⟨i⟩ x (by simpa [var?] using List.mem_zipIdx_iff_getElem?.mp hi)
  have hrow : (∀ row ∈ p.constraints.toList, p.termFault? row = none) ↔
      ∀ c row, p.constraint? c = some row → p.termFault? row = none :=
    forall_constraint?_iff.symm
  have hpoint : p.pointFault? = none ↔ p.point.size = p.vars.size := by
    simp [pointFault?]
  simp only [consistent, inconsistency?, Option.isNone_iff_eq_none, Option.orElse_eq_orElse,
    Option.orElse_eq_or, Option.or_eq_none_iff, List.findSome?_eq_none_iff, Prod.forall]
  rw [hcone, hvar, hrow, hpoint]
  simp only [coneFault?_eq_none_iff, termFault?_eq_none_iff, variableFault?_eq_none_iff]
  constructor
  · rintro ⟨hp, hc, hr, hv⟩
    exact {
      point_size := hp
      dim := fun hk => (hc _ _ hk).1 _ rfl
      owned := fun hk hv => (hc _ _ hk).2 _ hv
      term_var := fun hrow hv => hr _ _ hrow _ hv
      listed := fun hx => (hv _ _ hx).1
      recorded_nodup := fun hx => (hv _ _ hx).2.1
      recorded := fun c hx => (hv _ _ hx).2.2 c }
  · intro h
    refine ⟨h.point_size, fun k cone hk => ⟨?_, fun v hv => h.owned hk hv⟩,
      fun c row hrow v hv => h.term_var hrow hv,
      fun v x hx => ⟨h.listed hx, h.recorded_nodup hx, fun c => h.recorded c hx⟩⟩
    rintro members rfl
    exact h.dim hk

namespace WellFormed

variable {p : Program α}

/-- The members of nonnegative cones are distinct, since each says which cone owns it. -/
theorem nonnegVars_nodup (h : p.WellFormed) : p.nonnegVars.Nodup := by
  unfold nonnegVars
  rw [List.nodup_iff_pairwise_ne, List.pairwise_filterMap, List.pairwise_iff_getElem]
  intro i j hi hj hij v hv u hu hvu
  subst hvu
  have cone_eq : ∀ k (hk : k < p.cones.toList.length), p.cone? ⟨k⟩ = some p.cones.toList[k] := by
    intro k hk
    rw [cone?, ← Array.getElem?_toList, List.getElem?_eq_getElem hk]
  have hi' := cone_eq i hi
  have hj' := cone_eq j hj
  rcases hki : p.cones.toList[i] with w | _ <;> rw [hki] at hv hi' <;> cases hv
  rcases hkj : p.cones.toList[j] with w | _ <;> rw [hkj] at hu hj' <;> cases hu
  obtain ⟨x, hx, hxi⟩ := h.owned hi' (List.mem_singleton_self v)
  obtain ⟨y, hy, hyj⟩ := h.owned hj' (List.mem_singleton_self v)
  rw [hx] at hy
  cases hy
  rw [hxi] at hyj
  cases hyj
  exact Nat.lt_irrefl _ hij

theorem var_of_mem_nonnegVars (h : p.WellFormed) {v : VarId} (hv : v ∈ p.nonnegVars) :
    ∃ x, p.var? v = some x ∧ p.cone? x.cone = some (.nonneg v) := by
  obtain ⟨k, hk⟩ := mem_nonnegVars_iff.mp hv
  obtain ⟨x, hx, hxk⟩ := h.owned hk (List.mem_singleton_self v)
  exact ⟨x, hx, hxk ▸ hk⟩

theorem mem_varIds_of_mem_nonnegVars (h : p.WellFormed) {v : VarId} (hv : v ∈ p.nonnegVars) :
    v ∈ p.varIds := by
  obtain ⟨x, hx, _⟩ := h.var_of_mem_nonnegVars hv
  exact mem_varIds_iff.mpr ⟨x, hx⟩

/-- Without other cones, every variable is nonnegative by itself. -/
theorem mem_nonnegVars_of_mem_varIds (h : p.WellFormed) (hcones : p.Orthant) {v : VarId}
    (hv : v ∈ p.varIds) : v ∈ p.nonnegVars := by
  obtain ⟨x, hx⟩ := mem_varIds_iff.mp hv
  obtain ⟨cone, hcone, hmem⟩ := h.listed hx
  have hkind := hcones hcone
  cases cone with
  | nonneg u =>
    cases List.mem_singleton.mp hmem
    exact mem_nonnegVars_iff.mpr ⟨x.cone, hcone⟩
  | secondOrder members => cases hkind

end WellFormed

end Conic.Program
