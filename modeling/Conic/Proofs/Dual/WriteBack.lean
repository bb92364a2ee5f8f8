import Conic.Proofs.Program.Applying
import Conic.Proofs.Dual.Lookup

/-!
# Writing a solution back

* `Dual.Resolves` — the tables of a dual fit a primal and lead to rows and variables that exist.
* `Dual.writeBack?_eq` — **the coordinates after a solution was written back.**
* `Program.reworkedDual`, `Program.settledWith` — the tables of a derived dual over another program,
  and the primal after these were written back, with one lemma for each sort of variable.
* `Exchange.checkIn_result` — how checking in ends.
-/

set_option autoImplicit false

namespace Conic

namespace Dual

variable {α : Type} {d : Dual α} {p : Program α}

/-- Setting the coordinates that a table names. -/
theorem writeColumn?_eq {ι : Type} {quantity : ι → Option α} {table : Array (Option ι)}
    (hquantity : ∀ e, some e ∈ table.toList → ∃ b, quantity e = some b)
    (hsize : table.size ≤ p.point.size) : writeColumn? quantity table p =
      some (p.withCoordinates fun v => table[v.index]?.join.bind quantity) := by
  let stage (pre : List (Option ι)) : Program α :=
    p.withCoordinates fun v => pre[v.index]?.join.bind quantity
  have hfold : writeColumn? quantity table (stage []) = some (stage table.toList) := by
    refine foldlM_zipIdx_stages stage fun pre entry post hsplit => ?_
    have hlt : pre.length < p.point.size := by
      have hlength := congrArg List.length hsplit
      rw [Array.length_toList, List.length_append, List.length_cons] at hlength
      omega
    cases entry with
    | none =>
      refine congrArg (fun f => some (p.withCoordinates f)) (funext fun v => ?_)
      by_cases hv : v.index = pre.length
      · simp [hv]
      · rw [getElem?_concat_of_ne hv]
    | some e =>
      have hmem : some e ∈ table.toList := hsplit ▸ List.mem_append_right pre List.mem_cons_self
      obtain ⟨b, hb⟩ := hquantity e hmem
      show (quantity e).bind _ = _
      rw [hb]
      refine Program.setCoordinate?_withCoordinates hlt ?_ ?_ fun u hu => ?_
      · simp
      · simp [hb]
      · rw [getElem?_concat_of_ne fun he => hu (by rw [← he])]
  have hnil : stage [] = p := p.withCoordinates_none
  rw [hnil] at hfold
  rw [hfold]
  simp only [stage, Array.getElem?_toList]

/-- The tables fit a primal and lead to rows and variables that exist. -/
structure Resolves (d : Dual α) (primal : Program α) : Prop where
  rows_size : d.reducedCostRows.size ≤ primal.point.size
  slacks_size : d.slackMultipliers.size ≤ primal.point.size
  row : ∀ {v : VarId} {r : ConstraintId}, d.constraintOf? v = some r →
    ∃ row, d.program.constraint? r = some row
  var : ∀ {v y : VarId}, d.slackVarOf? v = some y → ∃ x, d.program.var? y = some x

/-- The multiplier of the dual constraint of a variable. -/
def multiplierOf? (d : Dual α) (v : VarId) : Option α :=
  (d.constraintOf? v).bind fun r => (d.program.constraint? r).map (·.multiplier)

/-- The dual value of the multiplier of a chosen slack. -/
def reducedCostOf? (d : Dual α) (v : VarId) : Option α :=
  (d.slackVarOf? v).bind fun y => (d.program.var? y).map (·.reducedCost)

theorem exists_entry {ι : Type} {table : Array (Option ι)} {e : ι} (he : some e ∈ table) :
    ∃ i : Nat, table[i]?.join = some e := by
  obtain ⟨i, hi⟩ := Array.mem_iff_getElem?.mp he
  exact ⟨i, Option.join_eq_some_iff.mpr hi⟩

/-- **Writing a solution back sets the coordinates that the tables name**, and nothing else. -/
theorem writeBack?_eq (h : d.Resolves p) : d.writeBack? p =
    some ((p.withCoordinates d.multiplierOf?).withCoordinates d.reducedCostOf?) := by
  have hrows : writeColumn? (fun r => (d.program.constraint? r).map (·.multiplier))
      d.reducedCostRows p = some (p.withCoordinates d.multiplierOf?) := by
    refine writeColumn?_eq (fun r hr => ?_) h.rows_size
    obtain ⟨i, hi⟩ := exists_entry (Array.mem_toList_iff.mp hr)
    obtain ⟨row, hrow⟩ := h.row (v := ⟨i⟩) hi
    exact ⟨row.multiplier, by rw [hrow]; rfl⟩
  have hslacks : writeColumn? (fun y => (d.program.var? y).map (·.reducedCost))
      d.slackMultipliers (p.withCoordinates d.multiplierOf?) =
        some ((p.withCoordinates d.multiplierOf?).withCoordinates d.reducedCostOf?) := by
    refine writeColumn?_eq (fun y hy => ?_) ?_
    · obtain ⟨i, hi⟩ := exists_entry (Array.mem_toList_iff.mp hy)
      obtain ⟨x, hx⟩ := h.var (v := ⟨i⟩) hi
      exact ⟨x.reducedCost, by rw [hx]; rfl⟩
    · rw [Program.withCoordinates, size_overwritten]
      exact h.slacks_size
  show (writeColumn? _ d.reducedCostRows p).bind _ = _
  rw [hrows]
  exact hslacks

end Dual

/-! ## The tables of a derived dual -/

namespace Program

variable {α : Type} [Scalar α] {p q : Program α} {settings : Settings α} {c : ConstraintId}
  {v : VarId}

/-- The derived dual after its program has become `q`. The tables are as they were. -/
def reworkedDual (p : Program α) (settings : Settings α) (q : Program α) : Dual α :=
  { p.derivedDual settings with program := q }

section

variable (h : p.WellFormed)
include h

theorem multiplierOf?_reworkedDual (hv : v ∈ p.ordinaryVars settings.slackChoice) :
    (p.reworkedDual settings q).multiplierOf? v =
      (q.constraint? (p.dualRow settings.slackChoice v)).map (·.multiplier) := by
  have hrow : (p.reworkedDual settings q).constraintOf? v = some _ :=
    (constraintOf?_derivedDual_eq_some_iff h).mpr ⟨hv, rfl⟩
  rw [Dual.multiplierOf?, hrow, Option.bind_some]
  rfl

theorem multiplierOf?_reworkedDual_eq_none (hv : v ∉ p.ordinaryVars settings.slackChoice) :
    (p.reworkedDual settings q).multiplierOf? v = none := by
  have hrow : (p.reworkedDual settings q).constraintOf? v = none := by
    rw [Option.eq_none_iff_forall_ne_some]
    exact fun r hr => hv ((constraintOf?_derivedDual_eq_some_iff h).mp hr).1
  rw [Dual.multiplierOf?, hrow]
  rfl

theorem reducedCostOf?_reworkedDual (hv : p.slackOf settings.slackChoice c = some v) :
    (p.reworkedDual settings q).reducedCostOf? v =
      (q.var? (p.partVar settings.slackChoice (.multiplier c))).map (·.reducedCost) := by
  have hvar : (p.reworkedDual settings q).slackVarOf? v = some _ :=
    (slackVarOf?_derivedDual_eq_some_iff h).mpr ⟨c, hv, rfl⟩
  rw [Dual.reducedCostOf?, hvar, Option.bind_some]
  rfl

theorem reducedCostOf?_reworkedDual_eq_none (hv : ∀ c, p.slackOf settings.slackChoice c ≠ some v) :
    (p.reworkedDual settings q).reducedCostOf? v = none := by
  have hvar : (p.reworkedDual settings q).slackVarOf? v = none := by
    rw [Option.eq_none_iff_forall_ne_some]
    intro y hy
    obtain ⟨c, hc, _⟩ := (slackVarOf?_derivedDual_eq_some_iff h).mp hy
    exact hv c hc
  rw [Dual.reducedCostOf?, hvar]
  rfl

end

/-- The primal after the derived dual, its program having become `q`, was written back. -/
def settledWith (p : Program α) (settings : Settings α) (q : Program α) : Program α :=
  (p.withCoordinates (p.reworkedDual settings q).multiplierOf?).withCoordinates
    (p.reworkedDual settings q).reducedCostOf?

theorem settledWith_coordinate? : (p.settledWith settings q).coordinate? v =
    (p.coordinate? v).map fun a => ((p.reworkedDual settings q).reducedCostOf? v).getD
      (((p.reworkedDual settings q).multiplierOf? v).getD a) := by
  rw [settledWith, coordinate?_withCoordinates, coordinate?_withCoordinates, Option.map_map]
  rfl

section

variable (h : p.WellFormed)
include h

theorem settledWith_ordinary (hv : v ∈ p.ordinaryVars settings.slackChoice) {row : Constraint α}
    (hrow : q.constraint? (p.dualRow settings.slackChoice v) = some row) :
    (p.settledWith settings q).coordinate? v = some row.multiplier := by
  obtain ⟨hnonneg, hslack⟩ := h.mem_ordinaryVars_iff.mp hv
  obtain ⟨a, ha⟩ := exists_coordinate? h.point_size (h.mem_varIds_of_mem_nonnegVars hnonneg)
  rw [settledWith_coordinate?, ha, reducedCostOf?_reworkedDual_eq_none h hslack,
    multiplierOf?_reworkedDual h hv, hrow]
  rfl

theorem settledWith_slack (hv : p.slackOf settings.slackChoice c = some v) {x : Variable α}
    (hx : q.var? (p.partVar settings.slackChoice (.multiplier c)) = some x) :
    (p.settledWith settings q).coordinate? v = some x.reducedCost := by
  obtain ⟨a, ha⟩ := exists_coordinate? h.point_size (h.mem_varIds_of_slackOf hv)
  rw [settledWith_coordinate?, ha, reducedCostOf?_reworkedDual h hv, hx]
  rfl

theorem settledWith_other (hv : v ∉ p.nonnegVars) :
    (p.settledWith settings q).coordinate? v = p.coordinate? v := by
  have hslack : ∀ c, p.slackOf settings.slackChoice c ≠ some v := fun c hc =>
    hv (h.mem_nonnegVars_of_slackOf hc)
  have hordinary : v ∉ p.ordinaryVars settings.slackChoice := fun hmem =>
    hv (h.mem_ordinaryVars_iff.mp hmem).1
  rw [settledWith_coordinate?, reducedCostOf?_reworkedDual_eq_none h hslack,
    multiplierOf?_reworkedDual_eq_none h hordinary]
  simp

end

end Program

/-- **Checking in succeeds when the tables of the dual resolve.** -/
theorem Exchange.checkIn_result {α : Type} {x : Exchange α} {d : Dual α}
    (hstate : x.state = .checkedOut d) (h : d.Resolves x.primal) : ∃ x',
      x.checkIn.result = .ok x' ∧ x'.state = .checkedIn ∧ x'.settings = x.settings ∧
      x'.primal = (x.primal.withCoordinates d.multiplierOf?).withCoordinates d.reducedCostOf? := by
  have hdual : x.dual = .ok d := by rw [dual, hstate]
  simp [checkIn, settle, hdual, Dual.writeBack?_eq h]

end Conic
