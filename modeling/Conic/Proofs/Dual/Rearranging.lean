import Conic.Proofs.Dual.Lookup
import Conic.Proofs.Program.Rearranging

/-!
# What the order of terms and the choice of slacks decide

Of several candidates the first or the last becomes the slack of a constraint, so that the dual depends
on the order of terms. It does so in one way only.

* `WellFormed.length_ordinaryVars` — chosen slacks and dual constraints, counted.
* `Dual.SameShape`, `Rearranges.sameShape` — **cones, sizes and multipliers depend neither on the order
  of the terms nor on the choice.**
* `Dual.Rearranges`, `Rearranges.derivedDual` — **where the same slacks are chosen, the duals are the
  same up to order.**
* `Exchange.checkOut_rearranged` — **both, of the duals that are checked out.**
-/

set_option autoImplicit false

namespace Conic

variable {α : Type} [Scalar α]

/-! ## The specification -/

/-- Two duals have the same cones, sizes and multipliers. -/
structure Dual.SameShape (e d : Dual α) : Prop where
  cones : e.program.cones = d.program.cones
  vars_size : e.program.vars.size = d.program.vars.size
  constraints_size : e.program.constraints.size = d.program.constraints.size
  signedCount : e.signedCount = d.signedCount
  freeCount : e.freeCount = d.freeCount
  signedMultiplier? : ∀ c, e.signedMultiplier? c = d.signedMultiplier? c
  freeMultiplier? : ∀ c, e.freeMultiplier? c = d.freeMultiplier? c
  multiplier? : ∀ c, e.multiplier? c = d.multiplier? c

/-- Two duals have the same tables, and the same program up to the order of terms and of membership
lists. -/
structure Dual.Rearranges (e d : Dual α) : Prop where
  program : e.program.Rearranges d.program
  reducedCostRows : e.reducedCostRows = d.reducedCostRows
  slackMultipliers : e.slackMultipliers = d.slackMultipliers
  signedMultipliers : e.signedMultipliers = d.signedMultipliers
  freeMultipliers : e.freeMultipliers = d.freeMultipliers
  rescaled : e.rescaled = d.rescaled

namespace Program

variable {p q : Program α} {choice choice' : SlackChoice} {c : ConstraintId} {v : VarId}

/-! ## Counting -/

/-- A nonnegative variable is the slack of a constraint or has a dual constraint. -/
theorem WellFormed.length_ordinaryVars (h : p.WellFormed) (choice : SlackChoice) :
    (p.constraintIds.countP fun c => (p.slackOf choice c).isSome) +
      (p.ordinaryVars choice).length = p.nonnegVars.length := by
  -- No variable is the slack of two constraints, so that slacks are counted by their constraints.
  have hslacks : (p.nonnegVars.filter fun v => !(p.slackRow? choice v).isNone).Perm
      (p.constraintIds.filterMap (p.slackOf choice)) := by
    refine (List.perm_ext_iff_of_nodup (h.nonnegVars_nodup.filter _)
      (p.constraintIds_nodup.filterMap fun c c' v hv hv' => h.slackOf_unique hv hv')).mpr fun v => ?_
    rw [List.mem_filter, List.mem_filterMap, Option.not_isNone, Option.isSome_iff_exists]
    simp only [h.slackRow?_eq_some_iff]
    constructor
    · rintro ⟨_, c, hc⟩
      exact ⟨c, mem_constraintIds_of_slackOf hc, hc⟩
    · rintro ⟨c, _, hc⟩
      exact ⟨h.mem_nonnegVars_of_slackOf hc, c, hc⟩
  have hall := (List.filter_append_perm (fun v => (p.slackRow? choice v).isNone)
    p.nonnegVars).length_eq
  rw [List.length_append, hslacks.length_eq, List.length_filterMap_eq_countP] at hall
  rw [ordinaryVars]
  omega

/-! ## Parts -/

theorem parts_eq_append (p : Program α) (choice : SlackChoice) : p.parts choice =
    p.partsOn choice p.constraintIds [] ++ (p.ordinaryVars choice).map .reducedCost := by
  simp [parts, partsOn]

theorem derivedDual_vars_size (p : Program α) (settings : Settings α) :
    (p.derivedDual settings).program.vars.size =
      (p.partsOn settings.slackChoice p.constraintIds []).length +
        (p.ordinaryVars settings.slackChoice).length := by
  rw [← List.length_map (f := Dual.Part.reducedCost), ← List.length_append, ← parts_eq_append]
  simp [derivedDual_program, Dual.Draft.program, Dual.Draft.programOn, parts]

theorem derivedDual_constraints_size (p : Program α) (settings : Settings α) :
    (p.derivedDual settings).program.constraints.size =
      (p.ordinaryVars settings.slackChoice).length := by
  simp [derivedDual_program, Dual.Draft.program, Dual.Draft.programOn]

/-- The variables that come with the constraints are the first ones. -/
theorem partVar_of_mem {part : Dual.Part} (hpart : part ∈ p.partsOn choice p.constraintIds []) :
    p.partVar choice part = ⟨(p.partsOn choice p.constraintIds []).idxOf part⟩ := by
  rw [partVar, parts_eq_append, List.idxOf_append_of_mem hpart]

/-- The others follow in order. -/
theorem WellFormed.map_partVar_reducedCost (h : p.WellFormed) (choice : SlackChoice) :
    (p.ordinaryVars choice).map (fun v => p.partVar choice (.reducedCost v)) =
      (List.range (p.ordinaryVars choice).length).map fun i =>
        ⟨(p.partsOn choice p.constraintIds []).length + i⟩ := by
  apply List.ext_getElem
  · simp
  · intro i hi _
    rw [List.length_map] at hi
    have hsplit : p.parts choice = (p.partsOn choice p.constraintIds [] ++
        ((p.ordinaryVars choice).take i).map .reducedCost) ++
          .reducedCost (p.ordinaryVars choice)[i] ::
            ((p.ordinaryVars choice).drop (i + 1)).map .reducedCost := by
      rw [parts_eq_append, List.append_assoc, ← List.map_cons, ← List.drop_eq_getElem_cons hi,
        ← List.map_append, List.take_append_drop]
    rw [List.getElem_map, List.getElem_map, List.getElem_range, h.partVar_of_split hsplit,
      List.length_append, List.length_map, List.length_take_of_le (Nat.le_of_lt hi)]

namespace Rearranges

/-! ## The shape -/

section

variable (h : q.Rearranges p)
include h

theorem partsOf (choice choice' : SlackChoice) (c : ConstraintId) :
    q.partsOf choice' c = p.partsOf choice c := by
  rw [Program.partsOf, h.slackOf_isSome choice choice', Program.partsOf]

theorem partsOn_nil (choice choice' : SlackChoice) :
    q.partsOn choice' q.constraintIds [] = p.partsOn choice p.constraintIds [] := by
  rw [partsOn, h.constraintIds, funext (h.partsOf choice choice'), partsOn]

theorem partVar_of_mem {part : Dual.Part} (hpart : part ∈ p.partsOn choice p.constraintIds []) :
    q.partVar choice' part = p.partVar choice part := by
  have hpart' : part ∈ q.partsOn choice' q.constraintIds [] := h.partsOn_nil choice choice' ▸ hpart
  rw [Program.partVar_of_mem hpart', Program.partVar_of_mem hpart, h.partsOn_nil choice choice']

theorem partVar_multiplier (choice choice' : SlackChoice) (hc : c ∈ p.constraintIds) :
    q.partVar choice' (.multiplier c) = p.partVar choice (.multiplier c) :=
  h.partVar_of_mem ((p.multiplier_mem_partsOn choice).mpr hc)

theorem multiplierCone (choice choice' : SlackChoice) (hc : c ∈ p.constraintIds) :
    q.multiplierCone choice' c = p.multiplierCone choice c := by
  unfold Program.multiplierCone
  rw [h.slackOf_isSome choice choice', h.partVar_multiplier choice choice' hc]
  split
  · rfl
  · rename_i hnone
    have hauxiliary : q.partVar choice' (.auxiliary c) = p.partVar choice (.auxiliary c) :=
      h.partVar_of_mem ((p.auxiliary_mem_partsOn choice).mpr
        ⟨hc, Option.not_isSome_iff_eq_none.mp hnone⟩)
    rw [hauxiliary]

theorem signedTable (choice choice' : SlackChoice) :
    q.signedTable choice' q.constraintIds = p.signedTable choice p.constraintIds := by
  unfold Program.signedTable
  rw [h.constraintIds]
  refine congrArg List.toArray (List.map_congr_left fun c hc => ?_)
  rw [h.slackOf_isSome choice choice', h.partVar_multiplier choice choice' hc]

theorem freeTable (choice choice' : SlackChoice) :
    q.freeTable choice' q.constraintIds = p.freeTable choice p.constraintIds := by
  unfold Program.freeTable
  rw [h.constraintIds]
  refine congrArg List.toArray (List.map_congr_left fun c hc => ?_)
  rw [← Option.not_isSome, ← Option.not_isSome, h.slackOf_isSome choice choice',
    h.partVar_multiplier choice choice' hc]

variable (hp : p.WellFormed) (hq : q.WellFormed)
include hp hq

theorem length_ordinaryVars (choice choice' : SlackChoice) :
    (q.ordinaryVars choice').length = (p.ordinaryVars choice).length := by
  have hcount := hp.length_ordinaryVars choice
  have hcount' := hq.length_ordinaryVars choice'
  simp only [h.constraintIds, h.nonnegVars, h.slackOf_isSome choice choice'] at hcount'
  omega

theorem map_partVar_reducedCost (choice choice' : SlackChoice) :
    (q.ordinaryVars choice').map (fun v => q.partVar choice' (.reducedCost v)) =
      (p.ordinaryVars choice).map fun v => p.partVar choice (.reducedCost v) := by
  rw [hp.map_partVar_reducedCost, hq.map_partVar_reducedCost, h.partsOn_nil choice choice',
    h.length_ordinaryVars hp hq choice choice']

/-- **The shape of a dual depends neither on the order of the terms nor on the choice of slacks.** -/
theorem sameShape (settings settings' : Settings α) :
    (q.derivedDual settings').SameShape (p.derivedDual settings) := by
  have hlength := h.length_ordinaryVars hp hq settings.slackChoice settings'.slackChoice
  have hsigned : (q.derivedDual settings').signedMultipliers =
      (p.derivedDual settings).signedMultipliers :=
    h.signedTable settings.slackChoice settings'.slackChoice
  have hfree : (q.derivedDual settings').freeMultipliers =
      (p.derivedDual settings).freeMultipliers :=
    h.freeTable settings.slackChoice settings'.slackChoice
  have hcones := congrArg (List.map Cone.nonneg)
    (h.map_partVar_reducedCost hp hq settings.slackChoice settings'.slackChoice)
  have hmultipliers : q.constraintIds.map (q.multiplierCone settings'.slackChoice) =
      p.constraintIds.map (p.multiplierCone settings.slackChoice) := by
    rw [h.constraintIds]
    exact List.map_congr_left fun c hc => h.multiplierCone _ _ hc
  have hmultiplier? (c : ConstraintId) : (q.derivedDual settings').multiplier? c =
      (p.derivedDual settings).multiplier? c := by
    simp only [Dual.multiplier?, Dual.signedMultiplier?, Dual.freeMultiplier?, hsigned, hfree]
  refine ⟨?_, ?_, ?_, ?_, ?_, fun c => ?_, fun c => ?_, hmultiplier?⟩
  · rw [List.map_map, List.map_map] at hcones
    exact congrArg List.toArray (congrArg₂ (· ++ ·) hmultipliers hcones)
  · rw [derivedDual_vars_size, derivedDual_vars_size, hlength,
      h.partsOn_nil settings.slackChoice settings'.slackChoice]
  · rw [derivedDual_constraints_size, derivedDual_constraints_size, hlength]
  · rw [Dual.signedCount, hsigned, Dual.signedCount]
  · rw [Dual.freeCount, hfree, Dual.freeCount]
  · rw [Dual.signedMultiplier?, hsigned, Dual.signedMultiplier?]
  · rw [Dual.freeMultiplier?, hfree, Dual.freeMultiplier?]

end

/-! ## The same slacks -/

section

variable (h : q.Rearranges p) (hslack : ∀ c, q.slackOf choice' c = p.slackOf choice c)
include h hslack

theorem slackRow? (v : VarId) : q.slackRow? choice' v = p.slackRow? choice v := by
  unfold Program.slackRow?
  rw [h.constraintIds]
  simp only [hslack]

theorem ordinaryVars : q.ordinaryVars choice' = p.ordinaryVars choice := by
  unfold Program.ordinaryVars
  rw [h.nonnegVars]
  simp only [h.slackRow? hslack]

theorem parts : q.parts choice' = p.parts choice := by
  rw [parts_eq_append, parts_eq_append, h.partsOn_nil choice choice', h.ordinaryVars hslack]

theorem partVar (part : Dual.Part) : q.partVar choice' part = p.partVar choice part := by
  rw [Program.partVar, h.parts hslack, Program.partVar]

theorem dualRow (v : VarId) : q.dualRow choice' v = p.dualRow choice v := by
  rw [Program.dualRow, h.ordinaryVars hslack, Program.dualRow]

theorem dualTerms (divisor : ConstraintId → Option α) (cs : List ConstraintId) (v : VarId) :
    q.dualTerms choice' divisor cs v = p.dualTerms choice divisor cs v := by
  have hterm : q.dualTerm? choice' divisor v = p.dualTerm? choice divisor v := by
    funext c
    rw [dualTerm?, h.coefficient?, h.partVar hslack, dualTerm?]
  rw [Program.dualTerms, hterm, h.partVar hslack, Program.dualTerms]

/-- The membership list of a multiplier follows the order of the terms. -/
theorem dualMembership_perm (c : ConstraintId) :
    (q.dualMembership choice' c).Perm (p.dualMembership choice c) := by
  unfold Program.dualMembership
  rw [h.ordinaryVars hslack, funext fun t : VarId × α => h.dualRow hslack t.1]
  exact ((h.termsOf_perm c).filter _).map _

theorem slackTable :
    q.slackTable choice' q.constraintIds = p.slackTable choice p.constraintIds := by
  unfold Program.slackTable
  rw [h.varIds, h.constraintIds]
  simp only [hslack, h.partVar hslack]

theorem rowTable (vs : List VarId) : q.rowTable choice' vs = p.rowTable choice vs := by
  unfold Program.rowTable
  rw [h.varIds]
  simp only [h.dualRow hslack]

end

section

variable (h : q.Rearranges p) {settings settings' : Settings α}
  (hslack : ∀ c, q.slackOf settings'.slackChoice c = p.slackOf settings.slackChoice c)
  (htolerance : settings'.unitTolerance = settings.unitTolerance)
include h hslack htolerance

theorem divisorOf? : q.divisorOf? settings' = p.divisorOf? settings := by
  funext c
  rw [Program.divisorOf?, hslack, funext (h.coefficient? c), htolerance, Program.divisorOf?]

theorem rescaledRows : q.rescaledRows settings' = p.rescaledRows settings := by
  unfold Program.rescaledRows rescaledAmong
  rw [h.varIds]
  simp only [h.slackRow? hslack, h.divisorOf? hslack htolerance]

theorem divisorsAfter (done : List ConstraintId) :
    q.divisorsAfter settings' done = p.divisorsAfter settings done := by
  funext c
  rw [Program.divisorsAfter, h.divisorOf? hslack htolerance, Program.divisorsAfter]

theorem finalDraft_terms (v : VarId) :
    (q.finalDraft settings').terms v = (p.finalDraft settings).terms v := by
  simp only [finalDraft, rescaledDraft, contributionOrder, h.constraintIds, h.dualTerms hslack,
    h.rescaledRows hslack htolerance, h.divisorsAfter hslack htolerance]

theorem finalDraft_cost (c : ConstraintId) :
    (q.finalDraft settings').cost c = (p.finalDraft settings).cost c := by
  simp only [finalDraft, rescaledDraft, h.rhsOf, h.rescaledRows hslack htolerance,
    h.divisorsAfter hslack htolerance]

/-- What stands for the same part is the same up to order. -/
theorem draftVar (part : Dual.Part) :
    ((q.finalDraft settings').var q settings'.slackChoice part).Rearranges
      ((p.finalDraft settings).var p settings.slackChoice part) := by
  cases part with
  | multiplier c =>
    exact ⟨rfl, h.finalDraft_cost hslack htolerance c, rfl, h.dualMembership_perm hslack c⟩
  | auxiliary c => exact ⟨rfl, rfl, rfl, .refl _⟩
  | reducedCost v =>
    refine ⟨?_, rfl, rfl, ?_⟩
    · simp only [Dual.Draft.var, h.constraints_size, h.ordinaryVars hslack]
    · simp only [Dual.Draft.var, h.dualRow hslack]
      exact .refl _

theorem draftRow (v : VarId) :
    (q.finalDraft settings').row q v = (p.finalDraft settings).row p v := by
  rw [Dual.Draft.row, h.finalDraft_terms hslack htolerance, h.costOf, Dual.Draft.row]

variable (hp : p.WellFormed) (hq : q.WellFormed)
include hp hq

/-- **Where the same slacks are chosen, the duals are the same up to order.** -/
theorem derivedDual : (q.derivedDual settings').Rearranges (p.derivedDual settings) := by
  have hshape := h.sameShape hp hq settings settings'
  have hrescaled := h.rescaledRows hslack htolerance
  have hparts : q.parts settings'.slackChoice = p.parts settings.slackChoice := h.parts hslack
  have hordinary := h.ordinaryVars hslack
  refine ⟨⟨hshape.cones, ?_, hshape.vars_size, hshape.constraints_size, ?_, ?_⟩, ?_,
    h.slackTable hslack, h.signedTable _ _, h.freeTable _ _, congrArg List.length hrescaled⟩
  · exact congrArg (fun parts => Array.replicate parts.length (0 : α)) hparts
  · intro y b a hb ha
    obtain ⟨part, hpart, rfl⟩ := exists_getElem?_of_map ha
    obtain ⟨part', hpart', rfl⟩ := exists_getElem?_of_map hb
    have hsame := hpart'.symm.trans ((congrArg (·[y.index]?) hparts).trans hpart)
    cases hsame
    exact h.draftVar hslack htolerance part
  · intro r row' row hrow' hrow
    obtain ⟨v, hv, rfl⟩ := exists_getElem?_of_map hrow
    obtain ⟨u, hu, rfl⟩ := exists_getElem?_of_map hrow'
    have hsame := hu.symm.trans ((congrArg (·[r.index]?) hordinary).trans hv)
    cases hsame
    have hrow := h.draftRow hslack htolerance v
    exact ⟨.of_eq (congrArg (·.terms.toList) hrow), congrArg (·.rhs) hrow,
      congrArg (·.multiplier) hrow⟩
  · exact (congrArg (q.rowTable settings'.slackChoice) hordinary).trans (h.rowTable hslack _)

end

/-- The chosen slacks can be read off their table. -/
theorem slackOf_of_table (h : q.Rearranges p) (hp : p.WellFormed) (hq : q.WellFormed)
    {settings settings' : Settings α}
    (htable : (q.derivedDual settings').slackMultipliers =
      (p.derivedDual settings).slackMultipliers) (c : ConstraintId) :
    q.slackOf settings'.slackChoice c = p.slackOf settings.slackChoice c := by
  have hentry (v y : VarId) : (∃ d, q.slackOf settings'.slackChoice d = some v ∧
      y = q.partVar settings'.slackChoice (.multiplier d)) ↔
        ∃ d, p.slackOf settings.slackChoice d = some v ∧
          y = p.partVar settings.slackChoice (.multiplier d) := by
    rw [← slackVarOf?_derivedDual_eq_some_iff hq, ← slackVarOf?_derivedDual_eq_some_iff hp,
      Dual.slackVarOf?, htable, Dual.slackVarOf?]
  -- The multipliers stand at the same places for both choices, so that an entry names its constraint.
  have hvar {d : ConstraintId} (hd : d ∈ p.constraintIds) :=
    h.partVar_multiplier settings.slackChoice settings'.slackChoice hd
  have hinjective {d d' : ConstraintId} (hd : d ∈ p.constraintIds)
      (he : p.partVar settings.slackChoice (.multiplier d) =
        p.partVar settings.slackChoice (.multiplier d')) : d = d' := by
    cases partVar_injective ((p.multiplier_mem_partsOn settings.slackChoice).mpr hd) he
    rfl
  apply Option.ext
  intro v
  constructor
  · intro hv
    have hc : c ∈ p.constraintIds := h.constraintIds ▸ mem_constraintIds_of_slackOf hv
    obtain ⟨d, hd, he⟩ := (hentry v _).mp ⟨c, hv, rfl⟩
    rw [hvar hc] at he
    rwa [hinjective hc he]
  · intro hv
    have hc := mem_constraintIds_of_slackOf hv
    obtain ⟨d, hd, he⟩ := (hentry v _).mpr ⟨c, hv, rfl⟩
    rw [hvar (h.constraintIds ▸ mem_constraintIds_of_slackOf hd)] at he
    rwa [hinjective hc he]

end Rearranges

end Program

/-! ## Checked-out duals -/

/-- **The order of the terms matters through the chosen slacks only, and never to the shape.** Two
primals with the same records in another order have duals of one shape, whichever slacks are chosen.
Where every constraint has one candidate at most, or where the same slacks turn out to be chosen, the
duals are the same up to order. -/
theorem Exchange.checkOut_rearranged {x y : Exchange α} (hx : x.Ready) (hy : y.Ready)
    (hsame : y.primal.Rearranges x.primal) (elapsed elapsed' : Nat) :
    ∃ x' d y' e, (x.checkOut elapsed).result = .ok x' ∧ x'.state = .checkedOut d ∧
      (y.checkOut elapsed').result = .ok y' ∧ y'.state = .checkedOut e ∧ e.SameShape d ∧
      (y.settings.unitTolerance = x.settings.unitTolerance →
        x.primal.SingleCandidates ∨ e.slackMultipliers = d.slackMultipliers → e.Rearranges d) := by
  have hp := wellFormed_of_checkRecords hx.records
  have hq := wellFormed_of_checkRecords hy.records
  obtain ⟨x', hx', hd, _⟩ := checkOut_result hx elapsed
  obtain ⟨y', hy', he, _⟩ := checkOut_result hy elapsed'
  refine ⟨x', _, y', _, hx', hd, hy', he, hsame.sameShape hp hq _ _, fun htolerance hslack => ?_⟩
  exact hsame.derivedDual (hslack.elim (fun hsingle c => hsame.slackOf hsingle _ _ c)
    (hsame.slackOf_of_table hp hq)) htolerance hp hq

theorem Exchange.checkOut_rearranged_twoRows : ∃ x d y e,
    ((Exchange.new Program.twoRows .standard).checkOut 0).result = .ok x ∧
    x.state = .checkedOut d ∧
    ((Exchange.new Program.twoRows.reversed { Settings.standard with
      slackChoice := .last }).checkOut 0).result = .ok y ∧
    y.state = .checkedOut e ∧ e.SameShape d ∧ e.Rearranges d := by
  have hready : (Exchange.new Program.twoRows.reversed { Settings.standard with
      slackChoice := .last }).Ready :=
    ⟨rfl, by rfl, checkRecords_of_wellFormed
      (Program.consistent_iff_wellFormed.mp (by decide +kernel)), fun _ => by rfl⟩
  have hsingle : Program.twoRows.SingleCandidates := by decide +kernel
  obtain ⟨x, d, y, e, hx, hd, hy, he, hshape, hrest⟩ :=
    checkOut_rearranged twoRows_ready hready (Program.reversed_rearranges _) 0 0
  exact ⟨x, d, y, e, hx, hd, hy, he, hshape, hrest rfl (Or.inl hsingle)⟩

end Conic
