import Mathlib.Data.List.Nodup
import Conic.Program.File
import Conic.Proofs.Program.Scan
import Conic.Proofs.Program.StandardForm

/-!
# What the check decides

The check compares cones and variables by membership. A second-order cone that lists one of its
members twice passes it, and then no standard form fits.

* `Program.Unrepeated` — no cone lists a member twice.
* `WellFormed.partitioned_iff`, `WellFormed.standardForm_of_repeated` — what depends on it.
* `Program.scan_decides` — **which programs the check accepts, and which of them can be exported.**
-/

set_option autoImplicit false

namespace Conic.Program

variable {α : Type} {p : Program α}

/-- No cone lists a member twice. -/
def Unrepeated (p : Program α) : Prop :=
  ∀ {k : ConeId} {cone : Cone}, p.cone? k = some cone → cone.members.Nodup

/-! ## Members -/

theorem mem_coneMembers_iff {v : VarId} :
    v ∈ p.coneMembers ↔ ∃ k cone, p.cone? k = some cone ∧ v ∈ cone.members := by
  unfold coneMembers
  rw [List.mem_flatMap]
  constructor
  · rintro ⟨cone, hcone, hv⟩
    obtain ⟨i, hi⟩ := List.mem_iff_getElem?.mp hcone
    exact ⟨⟨i⟩, cone, by simpa [cone?] using hi, hv⟩
  · rintro ⟨k, cone, hk, hv⟩
    exact ⟨cone, by simpa using Array.mem_of_getElem? hk, hv⟩

theorem WellFormed.mem_coneMembers_iff (h : p.WellFormed) {v : VarId} :
    v ∈ p.coneMembers ↔ v ∈ p.varIds := by
  rw [Program.mem_coneMembers_iff, mem_varIds_iff]
  constructor
  · rintro ⟨k, cone, hk, hv⟩
    obtain ⟨x, hx, _⟩ := h.owned hk hv
    exact ⟨x, hx⟩
  · rintro ⟨x, hx⟩
    obtain ⟨cone, hcone, hv⟩ := h.listed hx
    exact ⟨x.cone, cone, hcone, hv⟩

/-- Different cones of a well-formed program have no member in common, since each member says which
cone owns it. -/
theorem WellFormed.coneMembers_nodup_iff (h : p.WellFormed) :
    p.coneMembers.Nodup ↔ p.Unrepeated := by
  have hcone : ∀ {i : Nat} (hi : i < p.cones.toList.length),
      p.cone? ⟨i⟩ = some p.cones.toList[i] := fun hi => by
    rw [cone?, ← Array.getElem?_toList, List.getElem?_eq_getElem hi]
  unfold coneMembers
  rw [List.nodup_flatMap]
  constructor
  · rintro ⟨hnd, _⟩ k cone hk
    exact forall_cone?_iff.mpr hnd k cone hk
  · refine fun hnd => ⟨forall_cone?_iff.mp fun _ _ hk => hnd hk, ?_⟩
    rw [List.pairwise_iff_getElem]
    intro i j hi hj hij v hv hv'
    obtain ⟨x, hx, hxi⟩ := h.owned (hcone hi) hv
    obtain ⟨y, hy, hyj⟩ := h.owned (hcone hj) hv'
    rw [hx] at hy
    cases hy
    exact Nat.ne_of_lt hij (congrArg ConeId.index (hxi.symm.trans hyj))

/-- The cones of a well-formed program partition its variables when none lists a member twice. -/
theorem WellFormed.partitioned_iff (h : p.WellFormed) : p.Partitioned ↔ p.Unrepeated := by
  rw [← h.coneMembers_nodup_iff]
  refine ⟨Partitioned.nodup, fun hnd => ?_⟩
  exact (List.perm_ext_iff_of_nodup hnd p.varIds_nodup).mpr fun _ => h.mem_coneMembers_iff

/-- Every variable has a row already, and a member that is listed twice has two. -/
theorem WellFormed.size_lt_length_coneMembers (h : p.WellFormed) (hrepeated : ¬p.Unrepeated) :
    p.vars.size < p.coneMembers.length := by
  by_contra hle
  have hsub : p.varIds ⊆ p.coneMembers := fun _ hv => h.mem_coneMembers_iff.mpr hv
  have hperm : p.varIds.Perm p.coneMembers :=
    (p.varIds_nodup.subperm hsub).perm_of_length_le (by rw [length_varIds]; omega)
  exact hrepeated (h.partitioned_iff.mp hperm.symm)

/-! ## Programs that pass the check -/

theorem scan_eq_ok_iff : p.scan = .ok () ↔ p.WellFormed := by
  rw [scan_eq, ← consistent_iff_wellFormed, consistent]
  cases p.inconsistency? <;> simp [declined]

/-- A program that a text holds passes the check. -/
theorem scan_of_load {number : Json.Codec α} {text : String} (hp : load number text = .ok p) :
    p.scan = .ok () := by
  unfold load at hp
  split at hp
  · cases hp
  · split at hp
    · cases hp
    · rename_i hnone
      cases hp
      rw [scan_eq, hnone]
      rfl

/-! ## The export -/

variable [Scalar α]

/-- More rows than there are variables do not fit. -/
theorem standardForm_of_size_lt (hlt : p.vars.size < p.coneMembers.length) :
    p.standardForm = .error (.refused (.matrixFormat .incompatibleLengths)) := by
  have hentry : (⟨p.constraints.size + p.vars.size, p.coneMembers[p.vars.size].index, -1⟩ :
      SparseMatrix.Entry α) ∈ p.matrixEntries := by
    refine List.mem_append_right _ (List.mem_map.mpr ⟨(p.coneMembers[p.vars.size], _), ?_, rfl⟩)
    exact List.mem_zipIdx_iff_getElem?.mpr (List.getElem?_eq_getElem hlt)
  have houtside : p.matrixEntries.all
      (SparseMatrix.Entry.inside (p.constraints.size + p.vars.size) p.vars.size) = false := by
    rw [List.all_eq_false]
    exact ⟨_, hentry, by simp [SparseMatrix.Entry.inside]⟩
  simp [standardForm, SparseMatrix.ofEntries, houtside, Except.mapError]

theorem WellFormed.standardForm_of_repeated (h : p.WellFormed) (hrepeated : ¬p.Unrepeated) :
    p.standardForm = .error (.refused (.matrixFormat .incompatibleLengths)) :=
  standardForm_of_size_lt (h.size_lt_length_coneMembers hrepeated)

/-- What the check decides about a program, and what an export makes of one that passes. -/
structure Decided (p : Program α) : Prop where
  inRange : p.scan ≠ .error .outOfRange
  accepted : p.scan = .ok () ↔ p.WellFormed
  loaded : ∀ {number text}, load number text = .ok p → p.scan = .ok ()
  partitioned : p.scan = .ok () ∧ p.Unrepeated ↔ p.WellFormed ∧ p.Partitioned
  exported : p.scan = .ok () → p.Unrepeated → p.standardForm = .ok p.exported
  refused : p.scan = .ok () → ¬p.Unrepeated →
    p.standardForm = .error (.refused (.matrixFormat .incompatibleLengths))

/-- **The check reads no position that does not exist and accepts the well-formed programs. Those
whose cones list no member twice are the ones whose cones partition the variables, and the only
ones that can be exported.** -/
theorem scan_decides (p : Program α) : p.Decided where
  inRange := by
    rw [scan_eq]
    cases p.inconsistency? <;> simp [declined]
  accepted := scan_eq_ok_iff
  loaded := scan_of_load
  partitioned := by
    rw [scan_eq_ok_iff]
    exact and_congr_right fun h => h.partitioned_iff.symm
  exported hp hnd :=
    have h := scan_eq_ok_iff.mp hp
    h.standardForm_eq (h.partitioned_iff.mpr hnd)
  refused hp := (scan_eq_ok_iff.mp hp).standardForm_of_repeated

/-- One variable, and a second-order cone with that variable as its apex and as its other member. -/
def doubledApex : String :=
  "\x7b\"variables\":[\x7b\"cone\":0,\"objective_coefficient\":0.0,\"dual_value\":0.0," ++
  "\"constraints\":[]\x7d],\"cones\":[\x7b\"SecondOrder\":\x7b\"variables\":[0,0]\x7d\x7d]," ++
  "\"constraints\":[],\"x\":[0.0]\x7d"

/-- **A program can be read from a file although its cones do not partition its variables**, and
then it cannot be exported. -/
theorem doubledApex_load : ∃ p : Program Float, load Json.Codec.float doubledApex = .ok p ∧
    p.scan = .ok () ∧ ¬p.Partitioned ∧
      p.standardForm = .error (.refused (.matrixFormat .incompatibleLengths)) := by
  have hcone : (load Json.Codec.float doubledApex).toOption.bind (·.cone? ⟨0⟩) =
      some (.secondOrder [⟨0⟩, ⟨0⟩]) := by decide +kernel
  obtain ⟨p, hp, hk⟩ := Option.bind_eq_some_iff.mp hcone
  have hload : load Json.Codec.float doubledApex = .ok p := by
    cases h : load Json.Codec.float doubledApex with
    | error fault => simp [h, Except.toOption] at hp
    | ok q =>
      rw [h] at hp
      cases hp
      rfl
  have hscan := scan_of_load hload
  have h := scan_eq_ok_iff.mp hscan
  have hrepeated : ¬p.Unrepeated := fun hnd => by simpa [Cone.members] using hnd hk
  exact ⟨p, hload, hscan, h.partitioned_iff.not.mpr hrepeated, h.standardForm_of_repeated hrepeated⟩

end Conic.Program
