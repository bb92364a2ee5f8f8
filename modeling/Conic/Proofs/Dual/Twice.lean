import Conic.Proofs.Dual.WeakDuality
import Conic.Proofs.Dual.Transpose

/-!
# Dualizing twice

When every constraint has a slack, the dual of a dual is the primal again, each constraint divided
by minus the coefficient of its slack. The reduced-cost variable of a dual constraint is its first
term and qualifies as a slack, so it is the one that is chosen when the dual is dualized.

* `Program.Restores` — a program is another one with its constraints divided and its variables
  renamed.
* `Program.derivedDual_slackOf`, `Program.derivedDual_ordinaryVars` — slacks of the dual.
* `Exchange.checkOut_twice` — **checking out the dual of a checked-out dual restores the primal.**
-/

set_option autoImplicit false

namespace Conic

namespace Program

/-- Program `q` is program `p` with its variables renamed by `φ` and every constraint divided by
minus the coefficient of its chosen slack. -/
structure Restores (q p : Program ℚ) (choice : SlackChoice) (φ : VarId → VarId) : Prop where
  cones : q.Orthant
  vars : (p.varIds.map φ).Perm q.varIds
  cost : ∀ {v : VarId}, v ∈ p.varIds → q.costOf (φ v) = p.costOf v
  constraints : q.constraintIds = p.constraintIds
  row : ∀ {c : ConstraintId} {row : Constraint ℚ} {s : VarId} {k : ℚ},
    p.constraint? c = some row → p.slackOf choice c = some s → row.terms.coefficient? s = some k →
      ∃ row', q.constraint? c = some row' ∧ row'.rhs = -row.rhs / k ∧
        (∀ v ∈ p.varIds, row'.terms.coefficient? (φ v) =
          if v = s then some (-1) else (row.terms.coefficient? v).map fun a => -a / k) ∧
        ∀ u ∈ row'.terms.vars, u ∈ p.varIds.map φ

variable {p : Program ℚ} {settings : Settings ℚ} {c : ConstraintId} {v : VarId}

/-! ## Slacks of the dual -/

section

variable (h : p.WellFormed)
include h

theorem derivedDual_orthant (hslack : p.SlackEverywhere) :
    (p.derivedDual settings).program.Orthant := by
  intro k cone hk
  rcases exists_of_cone? h hk with ⟨c, hc, _, rfl⟩ | ⟨v, _, _, rfl⟩
  · obtain ⟨s, hs⟩ := hslack.exists_slackOf settings.slackChoice hc
    unfold multiplierCone
    rw [hs]
    rfl
  · rfl

omit h in
/-- The reduced-cost variable of a dual constraint qualifies as its slack. -/
theorem derivedDual_isSlack_reducedCost (hv : v ∈ p.ordinaryVars settings.slackChoice) :
    (p.derivedDual settings).program.isSlack
      (p.partVar settings.slackChoice (.reducedCost v)) = true :=
  isSlack_iff.mpr (isSlack?_eq_some_true_iff.mpr
    ⟨_, _, derivedDual_var?_reducedCost hv, rfl, derivedDual_cone?_reducedCost hv, rfl, rfl⟩)

/-- **The first slack of a dual constraint is its reduced-cost variable.** -/
theorem derivedDual_slackOf (hv : v ∈ p.ordinaryVars settings.slackChoice) :
    (p.derivedDual settings).program.slackOf .first (p.dualRow settings.slackChoice v) =
      some (p.partVar settings.slackChoice (.reducedCost v)) := by
  unfold slackOf
  rw [derivedDual_constraint? hv, Option.bind_some]
  show (((p.finalDraft settings).terms v).toList.map Prod.fst).find? _ = _
  rw [h.toList_finalDraft_terms, dualTerms, List.map_cons, List.find?_cons_of_pos]
  exact derivedDual_isSlack_reducedCost hv

theorem derivedDual_slackOf_eq_some {r : ConstraintId} {y : VarId}
    (hy : (p.derivedDual settings).program.slackOf .first r = some y) :
    ∃ v ∈ p.ordinaryVars settings.slackChoice, r = p.dualRow settings.slackChoice v ∧
      y = p.partVar settings.slackChoice (.reducedCost v) := by
  obtain ⟨row, hr, _⟩ := slackOf_eq_some hy
  obtain ⟨v, hv, rfl⟩ := exists_var_of_constraint? h hr
  rw [derivedDual_slackOf h hv] at hy
  exact ⟨v, hv, rfl, (Option.some.inj hy).symm⟩

theorem derivedDual_slackEverywhere : (p.derivedDual settings).program.SlackEverywhere := by
  intro r row hr
  obtain ⟨v, hv, rfl⟩ := exists_var_of_constraint? h hr
  rw [← slackOf_isSome_iff hr, derivedDual_slackOf h hv]
  rfl

omit h in
theorem derivedDual_nonnegVars (hslack : p.SlackEverywhere) :
    (p.derivedDual settings).program.nonnegVars =
      p.constraintIds.map (fun c => p.partVar settings.slackChoice (.multiplier c)) ++
      (p.ordinaryVars settings.slackChoice).map fun v =>
        p.partVar settings.slackChoice (.reducedCost v) := by
  have hcones : p.constraintIds.map (p.multiplierCone settings.slackChoice) =
      p.constraintIds.map fun c => .nonneg (p.partVar settings.slackChoice (.multiplier c)) := by
    refine List.map_congr_left fun c hc => ?_
    obtain ⟨s, hs⟩ := hslack.exists_slackOf settings.slackChoice hc
    unfold multiplierCone
    rw [hs]
    rfl
  rw [derivedDual_program, nonnegVars]
  simp [Dual.Draft.program, Dual.Draft.programOn, hcones, List.filterMap_map]

/-- **The ordinary variables of the dual are the multipliers**, in the order of the constraints. -/
theorem derivedDual_ordinaryVars (hslack : p.SlackEverywhere) :
    (p.derivedDual settings).program.ordinaryVars .first =
      p.constraintIds.map fun c => p.partVar settings.slackChoice (.multiplier c) := by
  have hd : (p.derivedDual settings).program.WellFormed := h.derivedDual settings
  unfold ordinaryVars
  rw [derivedDual_nonnegVars hslack, List.filter_append]
  have hmultipliers : ∀ y ∈ p.constraintIds.map
      (fun c => p.partVar settings.slackChoice (.multiplier c)),
      ((p.derivedDual settings).program.slackRow? .first y).isNone = true := by
    intro y hy
    obtain ⟨c, hc, rfl⟩ := List.mem_map.mp hy
    rw [Option.isNone_iff_eq_none, hd.slackRow?_eq_none_iff]
    intro r hr
    obtain ⟨v, _, _, he⟩ := derivedDual_slackOf_eq_some h hr
    exact multiplier_ne_reducedCost hc he
  have hreducedCosts : ∀ y ∈ (p.ordinaryVars settings.slackChoice).map
      (fun v => p.partVar settings.slackChoice (.reducedCost v)),
      ¬((p.derivedDual settings).program.slackRow? .first y).isNone = true := by
    intro y hy
    obtain ⟨v, hv, rfl⟩ := List.mem_map.mp hy
    rw [hd.slackRow?_eq_some_iff.mpr (derivedDual_slackOf h hv)]
    simp
  rw [List.filter_eq_self.mpr hmultipliers, List.filter_eq_nil_iff.mpr hreducedCosts,
    List.append_nil]

/-! ## Constraints of the dual -/

theorem derivedDual_constraintIds (settings : Settings ℚ) :
    (p.derivedDual settings).program.constraintIds =
      (p.ordinaryVars settings.slackChoice).map (p.dualRow settings.slackChoice) := by
  rw [constraintIds_derivedDual]
  apply List.ext_getElem
  · simp
  · intro j hj _
    have hj' : j < (p.ordinaryVars settings.slackChoice).length := by simpa using hj
    simp [dualRow_of_getElem? h (List.getElem?_eq_getElem hj')]

/-- The parts of the dual of the dual. -/
theorem derivedDual_parts (hslack : p.SlackEverywhere) :
    (p.derivedDual settings).program.parts .first =
      (p.ordinaryVars settings.slackChoice).map
        (fun v => .multiplier (p.dualRow settings.slackChoice v)) ++
      p.constraintIds.map
        fun c => .reducedCost (p.partVar settings.slackChoice (.multiplier c)) := by
  have hparts : ∀ v ∈ p.ordinaryVars settings.slackChoice,
      (p.derivedDual settings).program.partsOf .first (p.dualRow settings.slackChoice v) =
        [.multiplier (p.dualRow settings.slackChoice v)] := by
    intro v hv
    rw [partsOf, derivedDual_slackOf h hv]
    rfl
  rw [parts, partsOn, derivedDual_ordinaryVars h hslack, derivedDual_constraintIds h,
    List.flatMap_map, List.map_map, List.flatMap_congr hparts]
  simp [List.map_eq_flatMap, Function.comp_def]

/-- The dual constraint of a multiplier has the handle of its constraint. -/
theorem derivedDual_dualRow (hslack : p.SlackEverywhere) (hc : c ∈ p.constraintIds) :
    (p.derivedDual settings).program.dualRow .first
      (p.partVar settings.slackChoice (.multiplier c)) = c := by
  have hlt : c.index < p.constraints.size := by
    obtain ⟨row, hrow⟩ := mem_constraintIds_iff.mp hc
    exact (Array.getElem?_eq_some_iff.mp hrow).1
  have hposition : ((p.derivedDual settings).program.ordinaryVars .first)[c.index]? =
      some (p.partVar settings.slackChoice (.multiplier c)) := by
    rw [derivedDual_ordinaryVars h hslack]
    simp [constraintIds, hlt]
  exact dualRow_of_getElem? (h.derivedDual settings) hposition

end

/-! ## Numbers -/

/-- With tolerance zero, every multiplier counts as divided. -/
theorem dividedBy_divisorOf? (htol : settings.unitTolerance = 0)
    (hv : p.slackOf settings.slackChoice c = some v) {k : ℚ} (hk : p.coefficient? c v = some k)
    (a : ℚ) : dividedBy (p.divisorOf? settings c) a = a / k := by
  rw [divisorOf?_of_slackOf hv hk]
  split
  · rename_i hunit
    have hclose : |k - 1| ≤ 0 := by
      rw [← Scalar.abs_eq, ← htol]
      exact of_decide_eq_true hunit
    have hone : k = 1 := sub_eq_zero.mp (abs_eq_zero.mp (le_antisymm hclose (abs_nonneg _)))
    rw [hone, div_one]
    rfl
  · rfl

/-- The settings under which a dual is dualized again. -/
abbrev exactFirst (verbose checkCones : Bool) : Settings ℚ :=
  ⟨verbose, .first, checkCones, 0⟩

section

variable (h : p.WellFormed) (hslack : p.SlackEverywhere) {verbose checkCones : Bool}
include h

/-- Every constraint of the dual has the slack coefficient minus one. -/
theorem derivedDual_divisor (hv : v ∈ p.ordinaryVars settings.slackChoice) (a : ℚ) :
    dividedBy ((p.derivedDual settings).program.divisorOf? (exactFirst verbose checkCones)
      (p.dualRow settings.slackChoice v)) a = -a := by
  have hcoefficient := h.derivedDual_coefficient?_reducedCost hv hv
  rw [if_pos rfl] at hcoefficient
  have hdivided : dividedBy ((p.derivedDual settings).program.divisorOf?
      (exactFirst verbose checkCones) (p.dualRow settings.slackChoice v)) a = a / -1 :=
    dividedBy_divisorOf? rfl (derivedDual_slackOf h hv) hcoefficient a
  rw [hdivided, div_neg, div_one]

/-! ## The dual of the dual -/

/-- The dual of the dual. -/
def twiceDual (p : Program ℚ) (settings : Settings ℚ) (verbose checkCones : Bool) : Dual ℚ :=
  (p.derivedDual settings).program.derivedDual (exactFirst verbose checkCones)

/-- The variable that a variable of the primal becomes in the dual of the dual. -/
def twiceVar (p : Program ℚ) (settings : Settings ℚ) (v : VarId) : VarId :=
  match p.slackRow? settings.slackChoice v with
  | some c => (p.derivedDual settings).program.partVar .first
    (.reducedCost (p.partVar settings.slackChoice (.multiplier c)))
  | none => (p.derivedDual settings).program.partVar .first
    (.multiplier (p.dualRow settings.slackChoice v))

theorem twiceVar_of_slackOf (hv : p.slackOf settings.slackChoice c = some v) :
    p.twiceVar settings v = (p.derivedDual settings).program.partVar .first
      (.reducedCost (p.partVar settings.slackChoice (.multiplier c))) := by
  unfold twiceVar
  rw [h.slackRow?_eq_some_iff.mpr hv]

theorem twiceVar_of_mem_ordinaryVars (hv : v ∈ p.ordinaryVars settings.slackChoice) :
    p.twiceVar settings v = (p.derivedDual settings).program.partVar .first
      (.multiplier (p.dualRow settings.slackChoice v)) := by
  unfold twiceVar
  rw [h.slackRow?_eq_none_iff.mpr (h.mem_ordinaryVars_iff.mp hv).2]

include hslack

theorem mem_twice_ordinaryVars (hc : c ∈ p.constraintIds) :
    p.partVar settings.slackChoice (.multiplier c) ∈
      (p.derivedDual settings).program.ordinaryVars .first := by
  rw [derivedDual_ordinaryVars h hslack]
  exact List.mem_map_of_mem hc

/-- **The variables of the primal correspond to those of the dual of the dual.** -/
theorem twice_varIds (hcones : p.Orthant) : (p.varIds.map (p.twiceVar settings)).Perm
    (p.twiceDual settings verbose checkCones).program.varIds := by
  have hordinary : (p.ordinaryVars settings.slackChoice).map (p.twiceVar settings) =
      (p.ordinaryVars settings.slackChoice).map fun v =>
        (p.derivedDual settings).program.partVar .first
          (.multiplier (p.dualRow settings.slackChoice v)) :=
    List.map_congr_left fun v hv => twiceVar_of_mem_ordinaryVars h hv
  have hslacks : (p.constraintIds.filterMap (p.slackOf settings.slackChoice)).map
      (p.twiceVar settings) = p.constraintIds.map fun c =>
        (p.derivedDual settings).program.partVar .first
          (.reducedCost (p.partVar settings.slackChoice (.multiplier c))) := by
    rw [List.map_filterMap, ← List.filterMap_eq_map]
    refine List.filterMap_congr fun c hc => ?_
    obtain ⟨s, hs⟩ := hslack.exists_slackOf settings.slackChoice hc
    rw [hs, Option.map_some, twiceVar_of_slackOf h hs]
    rfl
  have hperm := (varIds_perm h hcones settings.slackChoice).map (p.twiceVar settings)
  rw [List.map_append, hordinary, hslacks] at hperm
  unfold twiceDual
  rw [varIds_derivedDual (h.derivedDual settings), derivedDual_parts h hslack,
    List.map_append, List.map_map, List.map_map]
  exact hperm

theorem twice_constraintIds :
    (p.twiceDual settings verbose checkCones).program.constraintIds = p.constraintIds := by
  unfold twiceDual
  rw [derivedDual_constraintIds (h.derivedDual settings),
    derivedDual_ordinaryVars h hslack, List.map_map, List.map_congr_left fun c hc => ?_, List.map_id]
  exact derivedDual_dualRow h hslack hc

/-- The objective coefficients. -/
theorem twice_costOf (hcones : p.Orthant) (hv : v ∈ p.varIds) :
    (p.twiceDual settings verbose checkCones).program.costOf (p.twiceVar settings v) =
      p.costOf v := by
  have hd : (p.derivedDual settings).program.WellFormed := h.derivedDual settings
  have hmem := (varIds_perm h hcones settings.slackChoice).mem_iff.mp hv
  rcases List.mem_append.mp hmem with hv | hv
  · rw [twiceVar_of_mem_ordinaryVars h hv, twiceDual,
      hd.derivedDual_costOf_multiplier (dualRow_mem_constraintIds hv), derivedDual_divisor h hv,
      derivedDual_rhsOf hv, neg_neg]
  · obtain ⟨c, hc, hs⟩ := List.mem_filterMap.mp hv
    rw [twiceVar_of_slackOf h hs, costOf_of_slackOf h hs, twiceDual,
      derivedDual_costOf_reducedCost (mem_twice_ordinaryVars h hslack hc)]

/-- The constraint that corresponds to `c` is `c` again. -/
theorem twice_constraint? (hc : c ∈ p.constraintIds) :
    (p.twiceDual settings verbose checkCones).program.constraint? c =
      some ⟨((p.derivedDual settings).program.finalDraft (exactFirst verbose checkCones)).terms
        (p.partVar settings.slackChoice (.multiplier c)),
        -dividedBy (p.divisorOf? settings c) (p.rhsOf c), 0⟩ := by
  have hrow : (p.twiceDual settings verbose checkCones).program.constraint?
      ((p.derivedDual settings).program.dualRow .first
        (p.partVar settings.slackChoice (.multiplier c))) = _ :=
    derivedDual_constraint? (mem_twice_ordinaryVars h hslack hc)
  rw [derivedDual_dualRow h hslack hc, h.derivedDual_costOf_multiplier hc] at hrow
  exact hrow

/-- A term on an ordinary variable. -/
theorem twice_coefficient?_ordinary (hc : c ∈ p.constraintIds)
    (hv : v ∈ p.ordinaryVars settings.slackChoice) :
    (p.twiceDual settings verbose checkCones).program.coefficient? c (p.twiceVar settings v) =
      (p.coefficient? c v).map fun a => -dividedBy (p.divisorOf? settings c) a := by
  have hd : (p.derivedDual settings).program.WellFormed := h.derivedDual settings
  have hcoefficient : (p.twiceDual settings verbose checkCones).program.coefficient?
      ((p.derivedDual settings).program.dualRow .first
        (p.partVar settings.slackChoice (.multiplier c)))
      ((p.derivedDual settings).program.partVar .first
        (.multiplier (p.dualRow settings.slackChoice v))) = _ :=
    hd.derivedDual_coefficient?_multiplier (mem_twice_ordinaryVars h hslack hc)
      (dualRow_mem_constraintIds hv)
  rw [derivedDual_dualRow h hslack hc, h.derivedDual_coefficient?_multiplier hv hc,
    Option.map_map] at hcoefficient
  rw [twiceVar_of_mem_ordinaryVars h hv, hcoefficient]
  congr 1
  funext a
  exact derivedDual_divisor h hv _

/-- A term on a slack. -/
theorem twice_coefficient?_slack {d : ConstraintId} (hc : c ∈ p.constraintIds)
    (hd : d ∈ p.constraintIds) (hv : p.slackOf settings.slackChoice d = some v) :
    (p.twiceDual settings verbose checkCones).program.coefficient? c (p.twiceVar settings v) =
      if d = c then some (-1) else none := by
  have hcoefficient : (p.twiceDual settings verbose checkCones).program.coefficient?
      ((p.derivedDual settings).program.dualRow .first
        (p.partVar settings.slackChoice (.multiplier c)))
      ((p.derivedDual settings).program.partVar .first
        (.reducedCost (p.partVar settings.slackChoice (.multiplier d)))) = _ :=
    (h.derivedDual settings).derivedDual_coefficient?_reducedCost
      (mem_twice_ordinaryVars h hslack hc) (mem_twice_ordinaryVars h hslack hd)
  rw [derivedDual_dualRow h hslack hc] at hcoefficient
  rw [twiceVar_of_slackOf h hv, hcoefficient]
  have hiff : p.partVar settings.slackChoice (.multiplier d) =
      p.partVar settings.slackChoice (.multiplier c) ↔ d = c :=
    ⟨partVar_multiplier_inj hd, fun he => he ▸ rfl⟩
  simp only [hiff]

/-- **The dual of the dual restores the program.** -/
theorem twice_restores (hcones : p.Orthant) (htol : settings.unitTolerance = 0) :
    (p.twiceDual settings verbose checkCones).program.Restores p settings.slackChoice
      (p.twiceVar settings) where
  cones := derivedDual_orthant (h.derivedDual settings) (derivedDual_slackEverywhere h)
  vars := twice_varIds h hslack hcones
  cost := twice_costOf h hslack hcones
  constraints := twice_constraintIds h hslack
  row {c row s k} hrow hs hk := by
    have hc := mem_constraintIds_of_slackOf hs
    have hdivided : ∀ a, dividedBy (p.divisorOf? settings c) a = a / k :=
      dividedBy_divisorOf? htol hs ((coefficient?_eq hrow s).trans hk)
    have hrow' : (p.twiceDual settings verbose checkCones).program.constraint? c = _ :=
      twice_constraint? h hslack hc
    refine ⟨_, hrow', ?_, fun v hv => ?_, fun u hu => ?_⟩
    · rw [hdivided, rhsOf, hrow]
      exact (neg_div k row.rhs).symm
    · rw [← coefficient?_eq hrow', ← coefficient?_eq hrow]
      rcases List.mem_append.mp ((varIds_perm h hcones settings.slackChoice).mem_iff.mp hv) with
        hv | hv
      · have hvs : v ≠ s := fun he => (h.mem_ordinaryVars_iff.mp hv).2 c (he ▸ hs)
        rw [twice_coefficient?_ordinary h hslack hc hv, if_neg hvs]
        congr 1
        funext a
        rw [hdivided, neg_div]
      · obtain ⟨d, hd, hds⟩ := List.mem_filterMap.mp hv
        rw [twice_coefficient?_slack h hslack hc hd hds]
        by_cases hdc : d = c
        · subst hdc
          rw [if_pos rfl, if_pos (Option.some.inj (hds.symm.trans hs))]
        · have hvs : v ≠ s := fun he => hdc (h.slackOf_unique hds (he ▸ hs))
          rw [if_neg hdc, if_neg hvs, h.coefficient?_of_slackOf hds (Ne.symm hdc),
            Option.map_none]
    · rw [(twice_varIds h hslack hcones).mem_iff, mem_varIds_iff]
      exact ((h.derivedDual settings).derivedDual _).term_var hrow' hu

end

end Program

/-! ## Checking out twice -/

/-- A new exchange for a well-formed program without other cones. -/
theorem Exchange.tryNew_ready {p : Program ℚ} (h : p.WellFormed) (hcones : p.Orthant)
    {settings : Settings ℚ} (hsettings : checkSettings settings = .ok ()) :
    Exchange.tryNew p settings = .ok (Exchange.new p settings) ∧
      (Exchange.new p settings).Ready := by
  have hrecords := checkRecords_of_wellFormed h
  have hsupported := checkCones_of_orthant hcones
  refine ⟨?_, rfl, hsettings, hrecords, fun _ => hsupported⟩
  unfold tryNew
  rw [hsettings, hrecords, hsupported]
  rfl

/-- **Dualizing twice**: when every constraint has a slack, the dual of the dual has no free
multiplier and is the primal with each constraint divided by minus the coefficient of its slack. An
ordinary variable becomes the multiplier of its dual constraint, and a slack the reduced-cost
variable of the multiplier of its constraint. -/
theorem Exchange.checkOut_twice {x : Exchange ℚ} (h : x.Ready) (hcones : x.primal.Orthant)
    (hslack : x.primal.SlackEverywhere) (htol : x.settings.unitTolerance = 0) {settings : Settings ℚ}
    (hfirst : settings.slackChoice = .first) (htol' : settings.unitTolerance = 0)
    (elapsed elapsed' : Nat) :
    ∃ x' d y y' dd φ, (x.checkOut elapsed).result = .ok x' ∧ x'.state = .checkedOut d ∧
      Exchange.tryNew d.program settings = .ok y ∧
      (y.checkOut elapsed').result = .ok y' ∧ y'.state = .checkedOut dd ∧
      (∀ r, dd.freeMultiplier? r = none) ∧
      dd.program.Restores x.primal x.settings.slackChoice φ ∧
      (∀ {v r}, d.constraintOf? v = some r → dd.signedMultiplier? r = some (φ v)) ∧
      ∀ {c s y}, x.primal.slackOf x.settings.slackChoice c = some s → d.multiplier? c = some y →
        dd.constraintOf? y = some c ∧ dd.OwnsReducedCost c (φ s) := by
  obtain ⟨verbose, choice, checkCones, tolerance⟩ := settings
  subst hfirst htol'
  have hp : x.primal.WellFormed := wellFormed_of_checkRecords h.records
  have hd : (x.primal.derivedDual x.settings).program.WellFormed := hp.derivedDual x.settings
  obtain ⟨x', hresult, hstate, _⟩ := checkOut_result h elapsed
  have hsettings : checkSettings (Program.exactFirst verbose checkCones) = .ok () := rfl
  obtain ⟨hnew, hready⟩ := tryNew_ready hd (Program.derivedDual_orthant hp hslack) hsettings
  obtain ⟨y', hresult', hstate', _⟩ := checkOut_result hready elapsed'
  refine ⟨x', _, _, y', x.primal.twiceDual x.settings verbose checkCones,
    x.primal.twiceVar x.settings, hresult, hstate, hnew, hresult', hstate',
    Program.freeMultiplier?_derivedDual (Program.derivedDual_slackEverywhere hp),
    Program.twice_restores hp hslack hcones htol, ?_, ?_⟩
  · intro v r hr
    obtain ⟨hv, rfl⟩ := (Program.constraintOf?_derivedDual_eq_some_iff hp).mp hr
    rw [Program.twiceVar_of_mem_ordinaryVars hp hv]
    exact Program.signedMultiplier?_derivedDual (Program.derivedDual_slackOf hp hv)
  · intro c s y hs hy
    obtain ⟨hc, rfl⟩ := Program.multiplier?_derivedDual_eq_some_iff.mp hy
    have hmem : x.primal.partVar x.settings.slackChoice (.multiplier c) ∈
        (x.primal.derivedDual x.settings).program.ordinaryVars .first :=
      Program.mem_twice_ordinaryVars hp hslack hc
    have hrow : (x.primal.derivedDual x.settings).program.dualRow .first
        (x.primal.partVar x.settings.slackChoice (.multiplier c)) = c :=
      Program.derivedDual_dualRow hp hslack hc
    have howns : (x.primal.twiceDual x.settings verbose checkCones).OwnsReducedCost _ _ :=
      Program.derivedDual_ownsReducedCost hd hmem
    rw [hrow] at howns
    rw [Program.twiceVar_of_slackOf hp hs]
    exact ⟨(Program.constraintOf?_derivedDual_eq_some_iff hd).mpr ⟨hmem, hrow.symm⟩, howns⟩

theorem Exchange.checkOut_twice_slackRows : ∃ x' d y y' dd φ,
    ((Exchange.new Program.slackRows .standard).checkOut 0).result = .ok x' ∧
      x'.state = .checkedOut d ∧
      Exchange.tryNew d.program .standard = .ok y ∧
      (y.checkOut 0).result = .ok y' ∧ y'.state = .checkedOut dd ∧
      (∀ r, dd.freeMultiplier? r = none) ∧
      dd.program.Restores Program.slackRows .first φ ∧
      (∀ {v r}, d.constraintOf? v = some r → dd.signedMultiplier? r = some (φ v)) ∧
      ∀ {c s y}, Program.slackRows.slackOf .first c = some s → d.multiplier? c = some y →
        dd.constraintOf? y = some c ∧ dd.OwnsReducedCost c (φ s) :=
  checkOut_twice slackRows_ready (by decide) (by decide +kernel) rfl rfl rfl 0 0

end Conic
