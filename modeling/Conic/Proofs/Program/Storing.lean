import Conic.Program.Storing
import Conic.Proofs.Program.Construction
import Conic.Proofs.Program.ReducedCost
import Conic.Proofs.Sparse.Dense

/-!
# What storing a solution does

A solution of the standard form of one program may be stored in another one. Both checks come before
the first write, and every write finds what it writes to, so that a solution is stored as a whole or
not at all.

* `StandardForm.outcome_store` — **nothing is written before a solution is declined.**
* `StandardForm.StandsFor`, `StandardForm.Pairs` — the rows below the equalities and the variables,
  matched by the entries −1 of the matrix.
* `Program.Exportable.pairs` — **an export matches them one to one.**
* `StandardForm.Stores` — what is written, and that nothing else is.
* `Program.store_stores` — **a solution that fits is stored, and any other leaves the program as it
  is.**
-/

set_option autoImplicit false

namespace Conic

/-! ## Writes one after the other -/

namespace Program.InPlace

variable {α β γ : Type} {p q : Program α}

/-- A computation that changes nothing but the program goes on with the next one. -/
theorem outcome_bind_of_run {m : InPlace α β} {b : β} (hm : m.run p = .ok b q)
    (k : β → InPlace α γ) : (m >>= k).outcome p = (k b).outcome q := by
  unfold outcome
  rw [EStateM.run_bind, hm]

/-- A write that is never declined, and what comes after it. -/
theorem outcome_bind {m : InPlace α Unit} {r : Option (Program α)}
    (hm : m.outcome p = r.map fun q => (q, none)) (k : InPlace α Unit) :
    (m >>= fun _ => k).outcome p = r.bind k.outcome := by
  unfold outcome at hm ⊢
  rw [EStateM.run_bind]
  cases hrun : m.run p with
  | ok _ q =>
    rw [hrun] at hm
    cases r <;> cases hm
    rfl
  | error fault q =>
    rw [hrun] at hm
    cases fault <;> cases r <;> cases hm
    rfl

/-- A loop of writes that are never declined. -/
theorem outcome_forM {g : β → InPlace α Unit} {h : Program α → β → Option (Program α)}
    (hg : ∀ b p, (g b).outcome p = (h p b).map fun q => (q, none)) (l : List β) (p : Program α) :
    (l.forM g).outcome p = (l.foldlM h p).map fun q => (q, none) := by
  induction l generalizing p with
  | nil => rfl
  | cons b l ih =>
    rw [List.forM_eq_forM] at ih ⊢
    rw [List.forM_cons, outcome_bind (hg b p), List.foldlM_cons, Option.bind_eq_bind,
      Option.map_bind]
    exact congrArg (Option.bind (h p b)) (funext fun q => ih q)

end Program.InPlace

namespace StandardForm

open Program.InPlace

variable {α : Type} {f : StandardForm α} {p q r : Program α} {x z : List α}

theorem run_verify (f : StandardForm α) (p : Program α) (x z : List α) :
    (f.verify x z).run p = match f.mismatch? p x z with
      | some cause => .error (.refused cause) p
      | none => .ok () p := by
  unfold verify mismatch?
  by_cases hx : x.length ≠ f.cost.length ∨ p.vars.size ≠ f.cost.length
  · simp [hx]
  · by_cases hz : z.length ≠ f.rhs.length ∨ p.constraints.size ≠ f.equalities <;> simp [hx, hz]

/-- The lengths of the solution and the sizes of the program are those of the form. -/
def Fits (f : StandardForm α) (p : Program α) (x z : List α) : Prop :=
  (x.length = f.cost.length ∧ p.vars.size = f.cost.length) ∧
    z.length = f.rhs.length ∧ p.constraints.size = f.equalities

theorem mismatch?_eq_none_iff : f.mismatch? p x z = none ↔ f.Fits p x z := by
  unfold mismatch? Fits
  simp only [ne_eq, ← not_and_or]
  split <;> rename_i hx
  · simp [hx]
  · split <;> rename_i hz
    · simp [hz]
    · simp [not_not.mp hx, not_not.mp hz]

theorem run_overwritePoint (p : Program α) (x : List α) : (overwritePoint x).run p =
    if p.point.size ≠ x.length then .error .outOfRange p
    else .ok () { p with point := x.toArray } := by
  by_cases hsize : p.point.size = x.length <;> simp [overwritePoint, hsize]

theorem run_splitRows (hle : f.equalities ≤ z.length) (p : Program α) :
    (f.splitRows z).run p = .ok (z.take f.equalities, z.drop f.equalities) p := by
  rw [splitRows, if_neg (Nat.not_lt_of_le hle), List.splitAt_eq]
  rfl

variable [Scalar α]

theorem outcome_setMultipliers (z : List α) (p : Program α) :
    (z.zipIdx.forM fun (zi, i) => writeConstraint ⟨i⟩ fun row =>
      { row with multiplier := -zi }).outcome p = (setMultipliers? p z).map fun q => (q, none) := by
  refine outcome_forM (fun t p => ?_) z.zipIdx p
  rw [outcome_writeConstraint]
  show _ = (p.setMultiplier? ⟨t.2⟩ (-t.1)).map _
  rw [Program.setMultiplier?]
  cases p.constraint? ⟨t.2⟩ <;> rfl

omit [Scalar α] in
theorem outcome_setReducedCosts (values : List (VarId × α)) (p : Program α) :
    (values.forM fun (v, zi) => writeVariable v fun y =>
      { y with reducedCost := zi }).outcome p =
        (setReducedCosts? p values).map fun q => (q, none) := by
  refine outcome_forM (fun t p => ?_) values p
  rw [outcome_writeVariable, Program.setReducedCost?]
  cases p.var? t.1 <;> rfl

/-- **A solution is declined before anything is written.** -/
theorem outcome_store (hle : f.equalities ≤ f.rhs.length) :
    (f.store x z).outcome p = (f.apply p x z).outcome p := by
  have hverify := run_verify f p x z
  have hwrite := run_overwritePoint p x
  unfold store apply
  cases hmismatch : f.mismatch? p x z with
  | some cause =>
    rw [hmismatch] at hverify
    unfold outcome
    rw [EStateM.run_bind, hverify]
    rfl
  | none =>
    rw [hmismatch] at hverify
    have hz : f.equalities ≤ z.length := (mismatch?_eq_none_iff.mp hmismatch).2.1 ▸ hle
    rw [outcome_bind_of_run hverify]
    -- The last refusal comes with the point, before it is written over.
    by_cases hsize : p.point.size ≠ x.length
    · rw [if_pos hsize] at hwrite ⊢
      unfold outcome
      rw [EStateM.run_bind, hwrite]
      rfl
    · rw [if_neg hsize] at hwrite ⊢
      rw [outcome_bind_of_run hwrite, outcome_bind_of_run (run_splitRows hz _),
        outcome_bind (outcome_setMultipliers _ _), Option.bind_eq_bind]
      cases setMultipliers? { p with point := x.toArray } (z.take f.equalities) with
      | none => rfl
      | some q =>
        show outcome _ q = _
        rw [outcome_setReducedCosts, Option.bind_some]
        cases setReducedCosts? q (f.coneRows.zip (z.drop f.equalities)) <;> rfl

/-! ## Rows and variables -/

/-- Row `i`, which is no equality, stands for the variable: it stores −1 in its column. -/
def StandsFor (f : StandardForm α) (i : Nat) (v : VarId) : Prop :=
  f.equalities ≤ i ∧ ∃ j, f.matrix.StoresAt j i v.index (-1)

/-- Below the equalities every row stands for one variable and stores nothing else, and every variable
has one row that stands for it. -/
structure Pairs (f : StandardForm α) : Prop where
  inside : ∀ {i v}, f.StandsFor i v → i < f.rhs.length ∧ v.index < f.cost.length
  row : ∀ {v : VarId}, v.index < f.cost.length → ∃! i, f.StandsFor i v
  owner : ∀ {i}, f.equalities ≤ i → i < f.rhs.length → ∃! v, f.StandsFor i v
  entry : ∀ {i j col a}, f.equalities ≤ i → f.matrix.StoresAt j i col a → a = -1

end StandardForm

namespace Program

open SparseMatrix

variable {α : Type} [Scalar α] {p q r : Program α} {v : VarId} {i j col : Nat} {a : α}

/-- What is stored below the equalities belongs to a member of a cone. -/
theorem Exportable.exists_member [LawfulScalar α] (h : p.Exportable)
    (hi : p.constraints.size ≤ i) (hstored : p.exported.matrix.StoresAt j i col a) :
    ∃ r v, i = p.constraints.size + r ∧ p.coneMembers[r]? = some v ∧ col = v.index ∧ a = -1 := by
  have hformat : p.exported.matrix.Formatted :=
    formatFault?_eq_none_iff.mp h.exported_mirrors.format
  obtain ⟨hrow, _⟩ := hformat.storesAt_inside hstored
  rw [h.exported_mirrors.rows] at hrow
  obtain ⟨r, rfl⟩ := Nat.exists_eq_add_of_le hi
  have hlt : r < p.coneMembers.length := by
    rw [h.partitioned.length_coneMembers]
    omega
  obtain ⟨_, _, honly⟩ := h.exported_mirrors.member (List.getElem?_eq_getElem hlt)
  obtain ⟨_, hcol, ha⟩ := honly hstored
  exact ⟨r, _, rfl, List.getElem?_eq_getElem hlt, hcol, ha⟩

theorem Exportable.standsFor_iff [LawfulScalar α] (h : p.Exportable) :
    p.exported.StandsFor i v ↔ ∃ r, i = p.constraints.size + r ∧ p.coneMembers[r]? = some v := by
  constructor
  · rintro ⟨hi, j, hstored⟩
    obtain ⟨r, u, hr, hu, hindex, _⟩ := h.exists_member hi hstored
    obtain rfl : v = u := congrArg VarId.mk hindex
    exact ⟨r, hr, hu⟩
  · rintro ⟨r, rfl, hr⟩
    obtain ⟨j, hstored, _⟩ := h.exported_mirrors.member hr
    exact ⟨Nat.le_add_right _ _, j, hstored⟩

/-- **An export matches the rows below its equalities with the variables, one to one.** -/
theorem Exportable.pairs [LawfulScalar α] (h : p.Exportable) : p.exported.Pairs where
  inside {i v} hstands := by
    obtain ⟨r, rfl, hr⟩ := h.standsFor_iff.mp hstands
    have hlt := (List.getElem?_eq_some_iff.mp hr).1
    have hv := index_of_mem_varIds (h.partitioned.mem_iff.mp (List.mem_of_getElem? hr))
    rw [h.partitioned.length_coneMembers] at hlt
    rw [h.exported_mirrors.rhs_length, h.exported_mirrors.cost_length]
    exact ⟨Nat.add_lt_add_left hlt _, hv⟩
  row {v} hv := by
    rw [h.exported_mirrors.cost_length] at hv
    have hmem : v ∈ p.varIds := List.mem_map_of_mem (List.mem_range.mpr hv)
    refine ⟨p.constraints.size + p.coneMembers.idxOf v, h.standsFor_iff.mpr
      ⟨_, rfl, (h.partitioned.getElem?_eq_some_iff hmem).mpr rfl⟩, fun i hi => ?_⟩
    obtain ⟨r, rfl, hr⟩ := h.standsFor_iff.mp hi
    rw [(h.partitioned.getElem?_eq_some_iff hmem).mp hr]
  owner {i} hi hlt := by
    rw [h.exported_mirrors.rhs_length] at hlt
    obtain ⟨r, rfl⟩ := Nat.exists_eq_add_of_le (show p.constraints.size ≤ i from hi)
    have hr : r < p.coneMembers.length := by
      rw [h.partitioned.length_coneMembers]
      omega
    refine ⟨p.coneMembers[r], h.standsFor_iff.mpr ⟨r, rfl, List.getElem?_eq_getElem hr⟩,
      fun u hu => ?_⟩
    obtain ⟨r', heq, hr'⟩ := h.standsFor_iff.mp hu
    obtain rfl : r' = r := by omega
    rw [List.getElem?_eq_getElem hr, Option.some_inj] at hr'
    exact hr'.symm
  entry hi hstored := by
    obtain ⟨_, _, _, _, _, ha⟩ := h.exists_member hi hstored
    exact ha

end Program

/-! ## Stored solutions -/

/-- The program `r` is `q` with the solution stored in it: `x` is the point, the multiplier of a
constraint is the entry of `z` for its row, negated, and the dual value of a variable the entry of `z`
for the row that stands for it. Nothing else is different. -/
structure StandardForm.Stores {α : Type} [Scalar α] (f : StandardForm α) (x z : List α)
    (q r : Program α) : Prop where
  point : r.point = x.toArray
  cones : r.cones = q.cones
  constraints_size : r.constraints.size = q.constraints.size
  vars_size : r.vars.size = q.vars.size
  multiplier : ∀ {c row}, q.constraint? c = some row →
    ∃ b, z[c.index]? = some b ∧ r.constraint? c = some { row with multiplier := -b }
  reducedCost : ∀ {v y}, q.var? v = some y →
    ∃ i b, f.StandsFor i v ∧ z[i]? = some b ∧ r.var? v = some { y with reducedCost := b }

/-- The program `q` with all numbers of the solution, written down at once. -/
def StandardForm.stored {α : Type} [Scalar α] (f : StandardForm α) (q : Program α) (x z : List α) :
    Program α :=
  (({ q with point := x.toArray } : Program α).withMultipliers fun c =>
    (z.take f.equalities)[c.index]?.map fun a => -a).withReducedCosts fun v =>
      (f.coneRows.zip (z.drop f.equalities)).lookup v

namespace Program

variable {α : Type} [Scalar α] {p q : Program α} {x z : List α}

theorem stored_constraint? (f : StandardForm α) (q : Program α) (x z : List α) (c : ConstraintId) :
    (f.stored q x z).constraint? c = (q.constraint? c).map fun row => { row with
      multiplier := ((z.take f.equalities)[c.index]?.map fun a => -a).getD row.multiplier } :=
  constraint?_withMultipliers (p := { q with point := x.toArray })
    fun c => (z.take f.equalities)[c.index]?.map fun a => -a

theorem stored_var? (f : StandardForm α) (q : Program α) (x z : List α) (v : VarId) :
    (f.stored q x z).var? v = (q.var? v).map fun y => { y with
      reducedCost := ((f.coneRows.zip (z.drop f.equalities)).lookup v).getD y.reducedCost } :=
  var?_withReducedCosts _

theorem varIds_eq_of_fits (hfits : p.exported.Fits q x z) : q.varIds = p.varIds := by
  obtain ⟨⟨_, hvars⟩, _⟩ := hfits
  rw [length_exported_cost] at hvars
  rw [varIds, hvars, varIds]

section

variable (h : p.Exportable) (hfits : p.exported.Fits q x z)
include h hfits

/-- There are as many rows below the equalities as members of cones. -/
theorem Exportable.length_drop : p.coneMembers.length = (z.drop p.constraints.size).length := by
  obtain ⟨_, hz, _⟩ := hfits
  rw [length_exported_rhs] at hz
  rw [h.partitioned.length_coneMembers, List.length_drop]
  omega

/-- **A solution that fits is stored in a program that has a coordinate for every variable.** -/
theorem Exportable.apply_eq (hpoint : q.point.size = q.vars.size) :
    p.exported.apply q x z = .ok (p.exported.stored q x z) := by
  have hmismatch := StandardForm.mismatch?_eq_none_iff.mpr hfits
  obtain ⟨⟨hx, hvars⟩, _, hconstraints⟩ := id hfits
  have hsize : ¬q.point.size ≠ x.length := by
    rw [hpoint, hx, hvars]
    exact fun hne => hne rfl
  have hrows := StandardForm.setMultipliers?_eq (p := { q with point := x.toArray })
    ((List.length_take_le p.exported.equalities z).trans (Nat.le_of_eq hconstraints.symm))
  have hkeys : (p.coneMembers.zip (z.drop p.constraints.size)).map Prod.fst = p.coneMembers :=
    List.map_fst_zip (Nat.le_of_eq (h.length_drop hfits))
  unfold StandardForm.apply
  rw [hmismatch]
  show (if q.point.size ≠ x.length then _ else _) = _
  rw [if_neg hsize]
  show Checked.found ((StandardForm.setMultipliers? { q with point := x.toArray } _).bind _) = _
  rw [hrows]
  -- Every member of a cone is listed once and exists in `q`, which has as many variables.
  refine congrArg Checked.found (StandardForm.setReducedCosts?_eq ?_ fun t ht => ?_)
  · exact Eq.mpr (congrArg List.Nodup hkeys) h.partitioned.nodup
  · have hmem : t.1 ∈ (p.coneMembers.zip (z.drop p.constraints.size)).map Prod.fst :=
      List.mem_map_of_mem ht
    rw [hkeys, h.partitioned.mem_iff, ← varIds_eq_of_fits hfits] at hmem
    exact hmem

theorem Exportable.stored_stores [LawfulScalar α] :
    p.exported.Stores x z q (p.exported.stored q x z) where
  point := rfl
  cones := rfl
  constraints_size := size_overwritten
  vars_size := size_overwritten
  multiplier {c row} hrow := by
    obtain ⟨_, hz, hconstraints⟩ := hfits
    have hlt : c.index < p.exported.equalities := by
      rw [← hconstraints]
      exact (Array.getElem?_eq_some_iff.mp hrow).1
    have hlt' : c.index < z.length := by
      rw [hz, length_exported_rhs]
      exact Nat.lt_of_lt_of_le hlt (Nat.le_add_right _ _)
    refine ⟨z[c.index], List.getElem?_eq_getElem hlt', ?_⟩
    rw [stored_constraint?, hrow, List.getElem?_take_of_lt hlt, List.getElem?_eq_getElem hlt']
    rfl
  reducedCost {v y} hy := by
    have hv : v ∈ p.varIds := varIds_eq_of_fits hfits ▸ mem_varIds_iff.mpr ⟨y, hy⟩
    have hlength := h.length_drop hfits
    have hlt : p.coneMembers.idxOf v < (z.drop p.constraints.size).length := by
      rw [← hlength, h.partitioned.length_coneMembers]
      exact h.partitioned.idxOf_lt hv
    refine ⟨_, (z.drop p.constraints.size)[p.coneMembers.idxOf v], h.standsFor_iff.mpr
      ⟨_, rfl, (h.partitioned.getElem?_eq_some_iff hv).mpr rfl⟩, ?_, ?_⟩
    · rw [← List.getElem?_drop, List.getElem?_eq_getElem hlt]
    · have hlookup : (p.exported.coneRows.zip (z.drop p.exported.equalities)).lookup v = _ :=
        StandardForm.lookup_zip hlength v
      rw [stored_var?, hy, hlookup, List.getElem?_eq_getElem hlt]
      rfl

end

/-- **A solution of an exported program is stored as a whole or not at all**, in whatever program
operations have made. Nothing is ever out of range. It is declined exactly if its lengths or the sizes
of the program are not those of the form, which leaves the program as it is. -/
theorem store_stores [LawfulScalar α] (hpart : p.Partitioned) (hterms : p.RecordsTerms) :
    ∃ f, p.standardForm = .ok f ∧ f.Pairs ∧
      ∀ {edits : List (Edit α)} {q : Program α}, construct edits = some q → ∀ x z : List α,
        (f.store x z).outcome q = (f.apply q x z).outcome q ∧
        ((f.Fits q x z ∧ ∃ r, (f.store x z).outcome q = some (r, none) ∧ f.Stores x z q r) ∨
          ¬f.Fits q x z ∧ ∃ cause, f.mismatch? q x z = some cause ∧
            (f.store x z).outcome q = some (q, some cause)) := by
  have h := hterms.exportable hpart
  have hle : p.exported.equalities ≤ p.exported.rhs.length := by
    rw [h.exported_mirrors.rhs_length]
    exact Nat.le_add_right _ _
  refine ⟨p.exported, h.standardForm_eq, h.pairs, fun {edits q} hq x z => ?_⟩
  have hpoint := (Built.empty.steps hq).wellFormed.point_size
  have houtcome := StandardForm.outcome_store (p := q) (x := x) (z := z) hle
  refine ⟨houtcome, ?_⟩
  rw [houtcome]
  cases hmismatch : p.exported.mismatch? q x z with
  | none =>
    have hfits := StandardForm.mismatch?_eq_none_iff.mp hmismatch
    exact Or.inl ⟨hfits, _, by rw [h.apply_eq hfits hpoint]; rfl, h.stored_stores hfits⟩
  | some cause =>
    refine Or.inr ⟨fun hfits => ?_, cause, rfl, ?_⟩
    · rw [StandardForm.mismatch?_eq_none_iff.mpr hfits] at hmismatch
      cases hmismatch
    · rw [StandardForm.apply, hmismatch]
      rfl

/-- Three nonnegative variables and a constraint without terms. -/
def threeNonneg : Program ℚ where
  vars := #[⟨⟨0⟩, 0, 0, []⟩, ⟨⟨1⟩, 0, 0, []⟩, ⟨⟨2⟩, 0, 0, []⟩]
  cones := #[.nonneg ⟨0⟩, .nonneg ⟨1⟩, .nonneg ⟨2⟩]
  constraints := #[⟨.empty, 0, 0⟩]
  point := #[0, 0, 0]

/-- The rows below the equality stand for `v₂`, `v₀` and `v₁`, in a program that is not the one that
was exported as well. -/
theorem store_stores_threeNonneg : ∃ f r, apexLast.standardForm = .ok f ∧
    (f.store [1, 1, 1] [1, 6, 3, 7]).outcome threeNonneg = some (r, none) ∧
    f.Stores [1, 1, 1] [1, 6, 3, 7] threeNonneg r ∧ r.vars.map (·.reducedCost) = #[3, 7, 6] ∧
    (f.store [1, 1, 1] [1]).outcome threeNonneg = some (threeNonneg, some (.pointDimension 4 1)) := by
  have hp : apexLast.WellFormed := consistent_iff_wellFormed.mp (by decide +kernel)
  have hpart : apexLast.Partitioned := by
    unfold Partitioned
    decide +kernel
  obtain ⟨f, hf, _, hstore⟩ := store_stores hpart hp.recordsTerms
  obtain rfl := Except.ok.inj (hf.symm.trans (hp.standardForm_eq hpart))
  have hvalues : ((apexLast.exported.apply threeNonneg [1, 1, 1] [1, 6, 3, 7]).outcome
      threeNonneg).map (fun result => result.1.vars.map (·.reducedCost)) = some #[3, 7, 6] := by
    decide +kernel
  have hmade := @hstore [.addNonnegCone, .addNonnegCone, .addNonnegCone, .addConstraint]
    threeNonneg rfl
  obtain ⟨hsame, ⟨_, r, hr, hstores⟩ | ⟨hunfit, _⟩⟩ := hmade [1, 1, 1] [1, 6, 3, 7]
  · rw [← hsame, hr] at hvalues
    obtain ⟨_, ⟨⟨_, hz, _⟩, _⟩ | ⟨_, cause, hcause, hdeclined⟩⟩ := hmade [1, 1, 1] [1]
    · cases hz
    · cases hcause
      exact ⟨_, r, hf, hr, hstores, Option.some_inj.mp hvalues, hdeclined⟩
  · exact absurd ⟨⟨rfl, rfl⟩, rfl, rfl⟩ hunfit

end Program

end Conic
