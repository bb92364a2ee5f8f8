import Conic.Program.StandardForm
import Conic.Proofs.Program.WellFormed
import Conic.Proofs.Sparse.Assembly

/-!
# The standard form of a program

* `Program.Partitioned` — the cones have every variable as a member, each once.
* `Program.Exportable` — what an export needs of the records.
* `Program.exported` — the standard form, written down at once; `Exportable.standardForm_eq`.
* `Program.entriesAt_constraint`, `Program.entriesAt_coneRow` — **what is given for a position of
  the matrix**: a term of a constraint, or −1 for a member of a cone.
* `Program.exported_entry?` — what is read at an equality row.
-/

set_option autoImplicit false

namespace Conic.Program

open SparseMatrix

variable {α : Type}

/-- Every variable is a member of a cone, and of one cone only. -/
def Partitioned (p : Program α) : Prop :=
  p.coneMembers.Perm p.varIds

/-- The cones partition the variables, and terms name variables. Of the agreement among the records
an export needs no more than this. -/
structure Exportable (p : Program α) : Prop where
  partitioned : p.Partitioned
  term_var : ∀ {c : ConstraintId} {row : Constraint α} {v : VarId},
    p.constraint? c = some row → v ∈ row.terms.vars → ∃ x, p.var? v = some x

theorem WellFormed.exportable {p : Program α} (h : p.WellFormed) (hpart : p.Partitioned) :
    p.Exportable :=
  ⟨hpart, h.term_var⟩

theorem Partitioned.nodup {p : Program α} (hpart : p.Partitioned) : p.coneMembers.Nodup :=
  hpart.nodup_iff.mpr p.varIds_nodup

theorem Partitioned.length_coneMembers {p : Program α} (hpart : p.Partitioned) :
    p.coneMembers.length = p.vars.size := by
  rw [hpart.length_eq, length_varIds]

/-- The position of a variable among the members of the cones. -/
theorem Partitioned.getElem?_eq_some_iff {p : Program α} (hpart : p.Partitioned) {v : VarId}
    (hv : v ∈ p.varIds) {r : Nat} : p.coneMembers[r]? = some v ↔ r = p.coneMembers.idxOf v := by
  constructor
  · intro hr
    obtain ⟨hlt, hget⟩ := List.getElem?_eq_some_iff.mp hr
    rw [← hget, hpart.nodup.idxOf_getElem r hlt]
  · rintro rfl
    exact List.getElem?_idxOf (hpart.mem_iff.mpr hv)

theorem Partitioned.idxOf_lt {p : Program α} (hpart : p.Partitioned) {v : VarId}
    (hv : v ∈ p.varIds) : p.coneMembers.idxOf v < p.vars.size := by
  rw [← hpart.length_coneMembers]
  exact List.idxOf_lt_length_of_mem (hpart.mem_iff.mpr hv)

/-- Nonnegative variables are members of their own cones. -/
theorem coneMembers_eq_nonnegVars {p : Program α} (hcones : p.Orthant) :
    p.coneMembers = p.nonnegVars := by
  have hlist := forall_cone?_iff.mp fun _ _ => hcones
  unfold coneMembers nonnegVars
  generalize p.cones.toList = cones at hlist
  induction cones with
  | nil => rfl
  | cons cone cones ih =>
    have hrest := ih fun k hk => hlist k (List.mem_cons_of_mem _ hk)
    cases cone with
    | nonneg v => simp [Cone.members, hrest]
    | secondOrder members => cases hlist _ List.mem_cons_self

theorem WellFormed.partitioned {p : Program α} (h : p.WellFormed) (hcones : p.Orthant) :
    p.Partitioned := by
  unfold Partitioned
  rw [coneMembers_eq_nonnegVars hcones]
  exact (List.perm_ext_iff_of_nodup h.nonnegVars_nodup p.varIds_nodup).mpr fun v =>
    ⟨h.mem_varIds_of_mem_nonnegVars, h.mem_nonnegVars_of_mem_varIds hcones⟩

/-! ## The entries of the matrix -/

/-- The entries of the equality rows. -/
def constraintEntries (p : Program α) : List (Entry α) :=
  p.constraintIds.flatMap fun c => (p.termsOf c).map fun t => ⟨c.index, t.1.index, t.2⟩

/-- The entries of the rows of the cones. -/
def coneEntries [Scalar α] (p : Program α) : List (Entry α) :=
  p.coneMembers.zipIdx.map fun u => ⟨p.constraints.size + u.2, u.1.index, -1⟩

variable [Scalar α] {p : Program α} {c : ConstraintId} {v : VarId}

theorem matrixEntries_eq (p : Program α) : p.matrixEntries = p.constraintEntries ++ p.coneEntries := by
  have hrows : p.constraints.toList.zipIdx.map (fun u => rowEntries u.1 u.2) =
      p.constraintIds.map fun c =>
        (p.termsOf c).map fun t => (⟨c.index, t.1.index, t.2⟩ : Entry α) := by
    apply List.ext_getElem
    · simp
    · intro i hi _
      have hi' : i < p.constraints.size := by simpa using hi
      simp [constraintIds, termsOf, constraint?, rowEntries, hi']
  have hconstraints : p.constraintEntries =
      p.constraints.toList.zipIdx.flatMap fun u => rowEntries u.1 u.2 := by
    rw [constraintEntries, List.flatMap_def, ← hrows, ← List.flatMap_def]
  rw [hconstraints]
  rfl

/-- Where one element contributes alone. -/
theorem flatMap_of_single {β γ : Type} {l : List β} {b : β} {f : β → List γ} (hl : l.Nodup)
    (hb : b ∈ l) (hf : ∀ a ∈ l, a ≠ b → f a = []) : l.flatMap f = f b := by
  obtain ⟨pre, post, rfl⟩ := List.append_of_mem hb
  have hpre : pre.flatMap f = [] := List.flatMap_eq_nil_iff.mpr fun a ha =>
    hf a (List.mem_append_left _ ha) fun he =>
      (List.nodup_append.mp hl).2.2 a ha b List.mem_cons_self he
  have hpost : post.flatMap f = [] := List.flatMap_eq_nil_iff.mpr fun a ha =>
    hf a (List.mem_append_right _ (List.mem_cons_of_mem b ha)) fun he =>
      (List.nodup_cons.mp (List.nodup_append.mp hl).2.1).1 (he ▸ ha)
  rw [List.flatMap_append, List.flatMap_cons, hpre, hpost, List.nil_append, List.append_nil]

/-- The elements at one position of a list. -/
theorem filter_zipIdx {β : Type} (l : List β) (k r : Nat) :
    (l.zipIdx k).filter (fun u => u.2 == k + r) = (l[r]?.map fun b => (b, k + r)).toList := by
  induction l generalizing k r with
  | nil => simp
  | cons b l ih =>
    cases r with
    | zero =>
      have hrest : (l.zipIdx (k + 1)).filter (fun u => u.2 == k) = [] := by
        rw [List.filter_eq_nil_iff]
        intro u hu
        have := List.le_snd_of_mem_zipIdx hu
        simp only [beq_iff_eq]
        omega
      simp [List.zipIdx_cons, hrest]
    | succ r =>
      have hrest := ih (k + 1) r
      have hshift : k + 1 + r = k + (r + 1) := by omega
      rw [hshift] at hrest
      simp [List.zipIdx_cons, hrest]

omit [Scalar α] in
/-- The terms on one variable. -/
theorem filter_termsOf (p : Program α) (c : ConstraintId) (v : VarId) :
    (p.termsOf c).filter (fun t => t.1 == v) = ((p.coefficient? c v).map fun a => (v, a)).toList := by
  have hlist : ∀ l : List (VarId × α), (l.map Prod.fst).Nodup →
      l.filter (fun t => t.1 == v) = ((l.lookup v).map fun a => (v, a)).toList := by
    intro l hl
    induction l with
    | nil => rfl
    | cons t l ih =>
      obtain ⟨u, a⟩ := t
      rw [List.map_cons, List.nodup_cons] at hl
      by_cases hu : u = v
      · subst hu
        have hrest : l.filter (fun t => t.1 == u) = [] := List.filter_eq_nil_iff.mpr fun t ht he =>
          hl.1 (List.mem_map.mpr ⟨t, ht, beq_iff_eq.mp he⟩)
        simp [hrest]
      · have hne : (v == u) = false := beq_eq_false_iff_ne.mpr (Ne.symm hu)
        simp [List.lookup_cons, hu, hne, ih hl.2]
  have hcoefficient : p.coefficient? c v = (p.termsOf c).lookup v := by
    unfold coefficient? termsOf
    cases p.constraint? c <;> rfl
  rw [hlist _ (keys_termsOf_nodup p c), hcoefficient]

omit [Scalar α] in
theorem row_of_mem_constraintEntries {e : Entry α} (he : e ∈ p.constraintEntries) :
    e.row < p.constraints.size := by
  obtain ⟨c, hc, he⟩ := List.mem_flatMap.mp he
  obtain ⟨t, _, rfl⟩ := List.mem_map.mp he
  obtain ⟨row, hrow⟩ := mem_constraintIds_iff.mp hc
  exact (Array.getElem?_eq_some_iff.mp hrow).1

/-- **The entries given for an equality row.** -/
theorem entriesAt_constraint (hc : c ∈ p.constraintIds) (v : VarId) :
    entriesAt p.matrixEntries c.index v.index =
      ((p.coefficient? c v).map fun a => ⟨c.index, v.index, a⟩).toList := by
  obtain ⟨row, hrow⟩ := mem_constraintIds_iff.mp hc
  have hlt : c.index < p.constraints.size := (Array.getElem?_eq_some_iff.mp hrow).1
  have hcones : p.coneEntries.filter (Entry.standsAt c.index v.index) = [] := by
    rw [List.filter_eq_nil_iff]
    intro e he hstands
    obtain ⟨u, _, rfl⟩ := List.mem_map.mp he
    have := (Entry.standsAt_iff.mp hstands).1
    dsimp only at this
    omega
  have hother : ∀ d ∈ p.constraintIds, d ≠ c → ((p.termsOf d).map fun t =>
      (⟨d.index, t.1.index, t.2⟩ : Entry α)).filter (Entry.standsAt c.index v.index) = [] := by
    intro d _ hdc
    rw [List.filter_eq_nil_iff]
    intro e he hstands
    obtain ⟨t, _, rfl⟩ := List.mem_map.mp he
    have hrow := (Entry.standsAt_iff.mp hstands).1
    exact hdc (congrArg ConstraintId.mk hrow)
  have hown : ((p.termsOf c).map fun t => (⟨c.index, t.1.index, t.2⟩ : Entry α)).filter
      (Entry.standsAt c.index v.index) =
        ((p.termsOf c).filter fun t => t.1 == v).map fun t => ⟨c.index, t.1.index, t.2⟩ := by
    rw [List.filter_map]
    congr 1
    refine List.filter_congr fun t _ => ?_
    obtain ⟨⟨i⟩, a⟩ := t
    obtain ⟨j⟩ := v
    simp [Entry.standsAt]
  rw [entriesAt, matrixEntries_eq, List.filter_append, hcones, List.append_nil, constraintEntries,
    List.filter_flatMap, flatMap_of_single p.constraintIds_nodup hc hother, hown, filter_termsOf]
  cases p.coefficient? c v <;> rfl

/-- **The entries given for the row of a cone member.** -/
theorem entriesAt_coneRow (r : Nat) (v : VarId) :
    entriesAt p.matrixEntries (p.constraints.size + r) v.index =
      if p.coneMembers[r]? = some v then [⟨p.constraints.size + r, v.index, -1⟩] else [] := by
  have hconstraints : p.constraintEntries.filter
      (Entry.standsAt (p.constraints.size + r) v.index) = [] := by
    rw [List.filter_eq_nil_iff]
    intro e he hstands
    have hlt := row_of_mem_constraintEntries he
    have := (Entry.standsAt_iff.mp hstands).1
    omega
  have hcones : p.coneEntries.filter (Entry.standsAt (p.constraints.size + r) v.index) =
      ((p.coneMembers.zipIdx.filter fun u => u.2 == 0 + r).filter fun u => u.1 == v).map
        fun u => ⟨p.constraints.size + u.2, u.1.index, -1⟩ := by
    rw [coneEntries, List.filter_map, List.filter_filter]
    congr 1
    refine List.filter_congr fun u _ => ?_
    obtain ⟨⟨i⟩, k⟩ := u
    obtain ⟨j⟩ := v
    rw [Bool.eq_iff_iff]
    simp [Entry.standsAt, and_comm]
  rw [entriesAt, matrixEntries_eq, List.filter_append, hconstraints, List.nil_append, hcones,
    filter_zipIdx]
  cases p.coneMembers[r]? with
  | none => rfl
  | some u => by_cases hu : u = v <;> simp [hu]

/-! ## The export -/

/-- The standard form of a program. -/
def exported (p : Program α) : StandardForm α where
  cost := p.vars.toList.map (·.cost)
  matrix := assembled (p.constraints.size + p.vars.size) p.vars.size p.matrixEntries
  rhs := p.constraints.toList.map (·.rhs) ++ List.replicate p.vars.size 0
  blocks := p.blocks
  coneRows := p.coneMembers
  equalities := p.constraints.size

@[simp] theorem length_exported_rhs (p : Program α) :
    p.exported.rhs.length = p.constraints.size + p.vars.size := by
  simp [exported]

@[simp] theorem length_exported_cost (p : Program α) : p.exported.cost.length = p.vars.size := by
  simp [exported]

/-- The matrix at an equality row. -/
theorem exported_entry? (hc : c ∈ p.constraintIds) (hv : v ∈ p.varIds) :
    p.exported.matrix.entry? c.index v.index =
      some (some (match p.coefficient? c v with
        | some a => 0 + a
        | none => 0)) := by
  have hlt := index_of_mem_constraintIds hc
  have hentry : p.exported.matrix.entry? c.index v.index = _ :=
    assembled_entry? (by omega) (index_of_mem_varIds hv)
  rw [hentry, valueAt, entriesAt_constraint hc v]
  cases p.coefficient? c v <;> rfl

/-- Every entry lies inside the matrix. -/
theorem Exportable.matrixEntries_inside (h : p.Exportable) :
    p.matrixEntries.all (Entry.inside (p.constraints.size + p.vars.size) p.vars.size) = true := by
  rw [matrixEntries_eq, List.all_eq_true]
  intro e he
  simp only [Entry.inside, Bool.and_eq_true, decide_eq_true_eq]
  rcases List.mem_append.mp he with he | he
  · have hrow := row_of_mem_constraintEntries he
    obtain ⟨c, hc, he⟩ := List.mem_flatMap.mp he
    obtain ⟨t, ht, rfl⟩ := List.mem_map.mp he
    obtain ⟨row, hrow'⟩ := mem_constraintIds_iff.mp hc
    have hmem : t.1 ∈ row.terms.vars := by
      rw [termsOf, hrow'] at ht
      exact List.mem_map_of_mem ht
    exact ⟨by omega, index_of_mem_varIds (mem_varIds_iff.mpr (h.term_var hrow' hmem))⟩
  · obtain ⟨u, hu, rfl⟩ := List.mem_map.mp he
    obtain ⟨_, hlt, hget⟩ := List.mem_zipIdx hu
    have hlength := h.partitioned.length_coneMembers
    have hmem : u.1 ∈ p.coneMembers := hget ▸ List.getElem_mem _
    exact ⟨by dsimp only; omega, index_of_mem_varIds (h.partitioned.mem_iff.mp hmem)⟩

/-- **The export succeeds.** -/
theorem Exportable.standardForm_eq (h : p.Exportable) : p.standardForm = .ok p.exported := by
  rw [standardForm, ofEntries_eq h.matrixEntries_inside]
  rfl

theorem WellFormed.standardForm_eq (h : p.WellFormed) (hpart : p.Partitioned) :
    p.standardForm = .ok p.exported :=
  (h.exportable hpart).standardForm_eq

end Conic.Program
