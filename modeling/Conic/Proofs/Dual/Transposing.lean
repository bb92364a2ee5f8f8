import Conic.Proofs.Dual.Stages

/-!
# Transposing

The third step of the construction enters the coefficients of the primal, constraint after
constraint and term after term, into the dual constraints of the ordinary variables.

* `Program.dualTerms_keys_nodup` — the terms of a dual constraint are on distinct variables.
* `Program.transposeTerm_stage`, `Program.transposeRow_stage` — one term, one constraint.
-/

set_option autoImplicit false

namespace Conic

namespace Dual

variable {α : Type} {d : Dual α} {v y : VarId} {a : α}

theorem result_transposeTerm_of_some {row : ConstraintId} {program : Program α}
    (hslot : d.reducedCostRows[v.index]? = some (some row))
    (hadd : d.program.addTerm row y a = .ok program) :
    (transposeTerm y d (v, a)).result = .ok { d with program } := by
  simp [transposeTerm, found, hslot, hadd]

theorem result_transposeTerm_of_none (hslot : d.reducedCostRows[v.index]? = some none) :
    (transposeTerm y d (v, a)).result = .ok d := by
  simp [transposeTerm, found, hslot]

end Dual

namespace Dual.Draft

variable {α : Type} [Scalar α]

/-- The draft with the given terms of constraint `c` entered. -/
def entered (D : Draft α) (p : Program α) (choice : SlackChoice) (c : ConstraintId)
    (terms : List (VarId × α)) : Draft α where
  cost := D.cost
  membership := Function.update D.membership c (D.membership c ++
    (terms.filter fun t => t.1 ∈ p.ordinaryVars choice).map fun t => p.dualRow choice t.1)
  terms v :=
    if v ∈ p.ordinaryVars choice then
      match terms.lookup v with
      | some a => (D.terms v).put (p.partVar choice (.multiplier c)) a
      | none => D.terms v
    else D.terms v

/-- The terms do not enter the variables. -/
theorem var_congr {D E : Draft α} (p : Program α) (choice : SlackChoice) (hcost : D.cost = E.cost)
    (hmembership : D.membership = E.membership) : D.var p choice = E.var p choice := by
  funext part
  cases part with
  | multiplier c => simp only [var, hcost, hmembership]
  | auxiliary c => rfl
  | reducedCost v => rfl

/-- Only the terms of ordinary variables enter the program. -/
theorem program_congr {D E : Draft α} {p : Program α} {choice : SlackChoice}
    (hcost : D.cost = E.cost) (hmembership : D.membership = E.membership)
    (hterms : ∀ v ∈ p.ordinaryVars choice, D.terms v = E.terms v) :
    D.program p choice = E.program p choice := by
  have hrow : (p.ordinaryVars choice).map (D.row p) = (p.ordinaryVars choice).map (E.row p) :=
    List.map_congr_left fun v hv => by simp only [row, hterms v hv]
  simp only [program, programOn, var_congr p choice hcost hmembership, hrow]

end Dual.Draft

namespace Program

variable {α : Type} [Scalar α] {p : Program α} {choice : SlackChoice} {c : ConstraintId} {v : VarId}
  {cs : List ConstraintId} {divisor : ConstraintId → Option α}

/-! ## The terms of a dual constraint -/

theorem mem_keys_dualTerms {y : VarId} (hy : y ∈ (p.dualTerms choice divisor cs v).map Prod.fst) :
    y = p.partVar choice (.reducedCost v) ∨
      ∃ c ∈ cs, (∃ a, p.coefficient? c v = some a) ∧ y = p.partVar choice (.multiplier c) := by
  simp only [dualTerms, List.map_cons, List.mem_cons, List.mem_map, List.mem_filterMap] at hy
  rcases hy with rfl | ⟨t, ⟨c, hc, ht⟩, rfl⟩
  · exact Or.inl rfl
  · obtain ⟨a, ha, rfl⟩ := Option.map_eq_some_iff.mp ht
    exact Or.inr ⟨c, hc, ⟨a, ha⟩, rfl⟩

theorem partVar_multiplier_inj {d : ConstraintId} (hc : c ∈ p.constraintIds)
    (he : p.partVar choice (.multiplier c) = p.partVar choice (.multiplier d)) : c = d := by
  have := partVar_injective ((p.multiplier_mem_partsOn choice).mpr hc) he
  cases this
  rfl

theorem multiplier_ne_reducedCost (hc : c ∈ p.constraintIds) :
    p.partVar choice (.multiplier c) ≠ p.partVar choice (.reducedCost v) := by
  intro he
  have := partVar_injective ((p.multiplier_mem_partsOn choice).mpr hc) he
  cases this

/-- The terms of a dual constraint are on distinct variables. -/
theorem dualTerms_keys_nodup (hcs : cs.Nodup) (hsub : ∀ c ∈ cs, c ∈ p.constraintIds) :
    ((p.dualTerms choice divisor cs v).map Prod.fst).Nodup := by
  unfold dualTerms
  rw [List.map_cons, List.nodup_cons]
  constructor
  · intro hmem
    obtain ⟨t, ht, hkey⟩ := List.mem_map.mp hmem
    obtain ⟨c, hc, ht⟩ := List.mem_filterMap.mp ht
    obtain ⟨a, _, rfl⟩ := Option.map_eq_some_iff.mp ht
    exact multiplier_ne_reducedCost (hsub c hc) hkey
  · rw [List.nodup_iff_pairwise_ne, List.pairwise_map, List.pairwise_filterMap]
    refine List.Pairwise.imp_of_mem ?_ hcs
    intro c d hc _ hcd t ht u hu he
    obtain ⟨a, _, rfl⟩ := Option.map_eq_some_iff.mp ht
    obtain ⟨b, _, rfl⟩ := Option.map_eq_some_iff.mp hu
    exact hcd (partVar_multiplier_inj (hsub c hc) he)

theorem toList_ofList_dualTerms (hcs : cs.Nodup) (hsub : ∀ c ∈ cs, c ∈ p.constraintIds) :
    (Terms.ofList (p.dualTerms choice divisor cs v)).toList = p.dualTerms choice divisor cs v :=
  Terms.toList_ofList (dualTerms_keys_nodup hcs hsub)

/-- A constraint that has not contributed yet has no term. -/
theorem multiplier_not_mem_dualTerms (hcs : cs.Nodup) (hsub : ∀ c ∈ cs, c ∈ p.constraintIds)
    (hc : c ∈ p.constraintIds) (hnot : c ∉ cs) : p.partVar choice (.multiplier c) ∉
      (Terms.ofList (p.dualTerms choice divisor cs v)).vars := by
  intro hmem
  rw [Terms.vars, toList_ofList_dualTerms hcs hsub] at hmem
  rcases mem_keys_dualTerms hmem with he | ⟨d, hd, _, he⟩
  · exact multiplier_ne_reducedCost hc he
  · exact hnot (partVar_multiplier_inj hc he ▸ hd)

theorem coefficient?_dualTerms_iff (hcs : cs.Nodup) (hsub : ∀ c ∈ cs, c ∈ p.constraintIds)
    {y : VarId} {b : α} :
    (Terms.ofList (p.dualTerms choice divisor cs v)).coefficient? y = some b ↔
      (y = p.partVar choice (.reducedCost v) ∧ b = -1) ∨
      ∃ c ∈ cs, ∃ a, p.coefficient? c v = some a ∧ y = p.partVar choice (.multiplier c) ∧
        b = dividedBy (divisor c) a := by
  rw [Terms.coefficient?_eq_some_iff, toList_ofList_dualTerms hcs hsub, dualTerms, List.mem_cons,
    List.mem_filterMap, Prod.mk.injEq]
  simp only [dualTerm?, Option.map_eq_some_iff, Prod.mk.injEq]
  grind

/-- What a constraint contributes to the dual constraint of `v`. -/
theorem coefficient?_dualTerms (hcs : cs.Nodup) (hsub : ∀ c ∈ cs, c ∈ p.constraintIds)
    (hc : c ∈ cs) : (Terms.ofList (p.dualTerms choice divisor cs v)).coefficient?
      (p.partVar choice (.multiplier c)) = (p.coefficient? c v).map (dividedBy (divisor c)) := by
  apply Option.ext
  intro b
  rw [coefficient?_dualTerms_iff hcs hsub, Option.map_eq_some_iff]
  constructor
  · rintro (⟨he, _⟩ | ⟨d, _, a, ha, he, rfl⟩)
    · exact absurd he (multiplier_ne_reducedCost (hsub c hc))
    · cases partVar_multiplier_inj (hsub c hc) he
      exact ⟨a, ha, rfl⟩
  · rintro ⟨a, ha, rfl⟩
    exact Or.inr ⟨c, hc, a, ha, rfl, rfl⟩

theorem dualTerms_concat (cs : List ConstraintId) (c : ConstraintId) :
    p.dualTerms choice divisor (cs ++ [c]) v = p.dualTerms choice divisor cs v ++
      ((p.coefficient? c v).map fun a =>
        (p.partVar choice (.multiplier c), dividedBy (divisor c) a)).toList := by
  rw [dualTerms, dualTerms, List.filterMap_append, List.cons_append]
  cases hc : p.coefficient? c v <;> simp [dualTerm?, hc]

/-- The terms without the one of `c`. -/
theorem filter_dualTerms (hsub : ∀ c ∈ cs, c ∈ p.constraintIds) (hc : c ∈ p.constraintIds) :
    (p.dualTerms choice divisor cs v).filter
        (fun u => u.1 ≠ p.partVar choice (.multiplier c)) =
      p.dualTerms choice divisor (cs.filter (· ≠ c)) v := by
  rw [dualTerms, dualTerms, List.filter_cons_of_pos
    (by simpa using (multiplier_ne_reducedCost hc).symm), List.filter_filterMap,
    List.filterMap_filter]
  congr 1
  refine List.filterMap_congr fun d hd => ?_
  have hkey : p.partVar choice (.multiplier d) = p.partVar choice (.multiplier c) ↔ d = c :=
    ⟨partVar_multiplier_inj (hsub d hd), fun he => he ▸ rfl⟩
  unfold dualTerm?
  cases p.coefficient? d v <;> by_cases hd : d = c <;> simp [hkey, hd]

/-! ## One constraint -/

theorem getElem?_rowTable {x : Variable α} (choice : SlackChoice) (vs : List VarId)
    (hx : p.var? v = some x) : (p.rowTable choice vs)[v.index]? =
      some (if v ∈ vs then some (p.dualRow choice v) else none) :=
  getElem?_varTable _ hx

/-- A term of an ordinary variable goes to the end of its dual constraint. -/
theorem entered_concat {D : Dual.Draft α} {terms : List (VarId × α)} {a : α}
    (hv : v ∈ p.ordinaryVars choice) (hnot : terms.lookup v = none) :
    (D.entered p choice c terms).withTerm p choice c v a =
      D.entered p choice c (terms ++ [(v, a)]) := by
  apply Dual.Draft.ext
  · rfl
  · simp [Dual.Draft.withTerm, Dual.Draft.withRecords, Dual.Draft.entered, hv]
  · funext u
    simp only [Dual.Draft.withTerm, Dual.Draft.withRecords, Dual.Draft.entered, List.lookup_append]
    by_cases hu : u = v
    · subst hu
      simp [hv, hnot]
    · have hne : [(v, a)].lookup u = none := by
        rw [List.lookup_cons, beq_eq_false_iff_ne.mpr hu]
        rfl
      rw [Function.update_of_ne hu, hne, Option.or_none]

/-- A term of another variable is passed over. -/
theorem entered_concat_of_not_mem {D : Dual.Draft α} {terms : List (VarId × α)} {a : α}
    (hv : v ∉ p.ordinaryVars choice) :
    D.entered p choice c (terms ++ [(v, a)]) = D.entered p choice c terms := by
  apply Dual.Draft.ext
  · rfl
  · simp [Dual.Draft.entered, hv]
  · funext u
    simp only [Dual.Draft.entered, List.lookup_append]
    by_cases hu : u ∈ p.ordinaryVars choice
    · have hne : [(v, a)].lookup u = none := by
        rw [List.lookup_cons, beq_eq_false_iff_ne.mpr fun he : u = v => hv (he ▸ hu)]
        rfl
      rw [hne, Option.or_none]
    · rw [if_neg hu, if_neg hu]

/-- A constraint enters all its terms. -/
theorem entered_termsOf (hnot : c ∉ cs) :
    ((p.transposedDraft choice cs).entered p choice c (p.termsOf c)).program p choice =
      (p.transposedDraft choice (cs ++ [c])).program p choice := by
  apply Dual.Draft.program_congr
  · rfl
  · funext d
    by_cases hd : d = c
    · subst hd
      simp [Dual.Draft.entered, transposedDraft, hnot, dualMembership]
    · simp [Dual.Draft.entered, transposedDraft, hd]
  · intro v hv
    have hlookup : (p.termsOf c).lookup v = p.coefficient? c v := by
      unfold termsOf coefficient?
      cases p.constraint? c <;> rfl
    simp only [Dual.Draft.entered, if_pos hv, hlookup, transposedDraft, dualTerms,
      List.filterMap_append, List.filterMap_cons, List.filterMap_nil, dualTerm?]
    cases p.coefficient? c v with
    | some a => rw [← List.cons_append]; exact (Terms.ofList_concat _ _ _).symm
    | none => simp

theorem dualOn_congr {D E : Dual.Draft α} (rescaled : Nat)
    (hprogram : D.program p choice = E.program p choice) :
    p.dualOn choice D p.constraintIds (p.ordinaryVars choice) rescaled =
      p.dualOn choice E p.constraintIds (p.ordinaryVars choice) rescaled := by
  simp only [Dual.Draft.program] at hprogram
  simp only [dualOn, hprogram]

variable (h : p.WellFormed)
include h

/-- **One term is entered, unless its variable has no dual constraint.** -/
theorem transposeTerm_stage {D : Dual.Draft α} {pre post : List (VarId × α)} {a : α}
    (hc : c ∈ p.constraintIds) {x : Variable α} (hx : p.var? v = some x)
    (hnd : ((pre ++ (v, a) :: post).map Prod.fst).Nodup)
    (hnew : p.partVar choice (.multiplier c) ∉ (D.terms v).vars) :
    (Dual.transposeTerm (p.partVar choice (.multiplier c))
      (p.dualOn choice (D.entered p choice c pre) p.constraintIds (p.ordinaryVars choice) 0)
      (v, a)).result =
    .ok (p.dualOn choice (D.entered p choice c (pre ++ [(v, a)])) p.constraintIds
      (p.ordinaryVars choice) 0) := by
  have hslot := getElem?_rowTable choice (p.ordinaryVars choice) hx
  have hpre : pre.lookup v = none := by
    rw [List.lookup_eq_none_iff]
    intro u hu
    rw [List.map_append, List.nodup_append] at hnd
    have := hnd.2.2 u.1 (List.mem_map_of_mem hu) v (by simp)
    exact bne_iff_ne.mpr (Ne.symm this)
  by_cases hv : v ∈ p.ordinaryVars choice
  · rw [if_pos hv] at hslot
    have hterms : (D.entered p choice c pre).terms v = D.terms v := by
      simp [Dual.Draft.entered, hpre]
    have hadd := Dual.Draft.addTerm_program h hc hv a (hterms ▸ hnew)
    rw [entered_concat hv hpre] at hadd
    exact Dual.result_transposeTerm_of_some hslot hadd
  · rw [if_neg hv] at hslot
    rw [entered_concat_of_not_mem hv]
    exact Dual.result_transposeTerm_of_none hslot

omit h in
theorem multiplier?_dualOn {D : Dual.Draft α} {row : Constraint α} (rescaled : Nat)
    (hrow : p.constraint? c = some row) :
    (p.dualOn choice D p.constraintIds (p.ordinaryVars choice) rescaled).multiplier? c =
      some (p.partVar choice (.multiplier c)) := by
  have hc : c ∈ p.constraintIds := mem_constraintIds_iff.mpr ⟨row, hrow⟩
  unfold Dual.multiplier? Dual.signedMultiplier? Dual.freeMultiplier? dualOn signedTable freeTable
  rw [getElem?_constraintTable _ hrow, getElem?_constraintTable _ hrow]
  cases p.slackOf choice c <;> simp [hc]

/-- **One constraint is transposed.** -/
theorem transposeRow_stage {post : List ConstraintId} (hsplit : p.constraintIds = cs ++ c :: post) :
    (Dual.transposeRow p (p.dualOn choice (p.transposedDraft choice cs) p.constraintIds
      (p.ordinaryVars choice) 0) c).result =
    .ok (p.dualOn choice (p.transposedDraft choice (cs ++ [c])) p.constraintIds
      (p.ordinaryVars choice) 0) := by
  have hc : c ∈ p.constraintIds := by rw [hsplit]; simp
  have hsub : ∀ d ∈ cs, d ∈ p.constraintIds := fun d hd => by rw [hsplit]; simp [hd]
  have hnd : (cs ++ c :: post).Nodup := hsplit ▸ p.constraintIds_nodup
  have hcs : cs.Nodup := (List.nodup_append.mp hnd).1
  have hnot : c ∉ cs := fun hc => (List.nodup_append.mp hnd).2.2 c hc c List.mem_cons_self rfl
  obtain ⟨row, hrow⟩ := mem_constraintIds_iff.mp hc
  have hrows : row.terms.toList = p.termsOf c := by simp [termsOf, hrow]
  -- The fold over the terms of `c` starts from the draft in which nothing of `c` is entered.
  have hnil : (p.transposedDraft choice cs).entered p choice c [] = p.transposedDraft choice cs := by
    apply Dual.Draft.ext
    · rfl
    · simp [Dual.Draft.entered]
    · simp [Dual.Draft.entered]
  let stage (pre : List (VarId × α)) : Dual α :=
    p.dualOn choice ((p.transposedDraft choice cs).entered p choice c pre) p.constraintIds
      (p.ordinaryVars choice) 0
  have hstep : ∀ pre t rest, row.terms.toList = pre ++ t :: rest →
      (Dual.transposeTerm (p.partVar choice (.multiplier c)) (stage pre) t).result =
        .ok (stage (pre ++ [t])) := by
    rintro pre ⟨v, a⟩ rest hterms
    have hv : v ∈ row.terms.vars := by rw [Terms.vars, hterms]; simp
    obtain ⟨x, hx⟩ := h.term_var hrow hv
    have hkeys : ((pre ++ (v, a) :: rest).map Prod.fst).Nodup := hterms ▸ row.terms.nodup
    exact transposeTerm_stage h hc hx hkeys (multiplier_not_mem_dualTerms hcs hsub hc hnot)
  have hfold : row.terms.toList.foldlM (fun d t =>
      (Dual.transposeTerm (p.partVar choice (.multiplier c)) d t).result) (stage []) =
        .ok (stage row.terms.toList) := foldlM_stages stage hstep
  have hlast : stage row.terms.toList = p.dualOn choice (p.transposedDraft choice (cs ++ [c]))
      p.constraintIds (p.ordinaryVars choice) 0 := by
    rw [hrows]
    exact dualOn_congr 0 (entered_termsOf hnot)
  have hfirst : stage [] = p.dualOn choice (p.transposedDraft choice cs) p.constraintIds
      (p.ordinaryVars choice) 0 := by
    simp only [stage, hnil]
  rw [hfirst, hlast] at hfold
  simp only [Dual.transposeRow, Dual.found, hrow, multiplier?_dualOn 0 hrow, Checked.found_some,
    Traced.result_bind, Traced.result_quiet, Checked.ok_bind, Traced.result_foldlM, hfold]

end Program

end Conic
