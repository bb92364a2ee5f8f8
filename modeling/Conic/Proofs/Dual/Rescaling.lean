import Conic.Proofs.Dual.Transposing

/-!
# Rescaling

The fourth step divides the multiplier of a chosen slack by the coefficient of the slack. Every
term that is divided moves to the end of its constraint, and the constraint moves to the end of the
membership list, so that a full round leaves the list as it was.

* `Terms.redivided` — a term divided and moved to the end.
* `Draft.Lists` — what the membership list of a multiplier names.
* `Draft.rescaleTerm_stage`, `Draft.rescale_program` — one term, one multiplier.
* `Program.normalizeSlack_stage` — one slack.
-/

set_option autoImplicit false

namespace Conic

namespace Terms

variable {α : Type}

/-- The terms with the one on `v`, if there is one, divided by `k` and moved to the end. -/
def redivided [Div α] (t : Terms α) (v : VarId) (k : α) : Terms α :=
  match t.coefficient? v with
  | some a => (t.erase v).put v (a / k)
  | none => t

/-- Without a term there is nothing to divide. -/
theorem redivided_of_none [Div α] {t : Terms α} {v : VarId} (hv : t.coefficient? v = none) (k : α) :
    t.redivided v k = t := by
  rw [redivided, hv]

theorem toList_redivided [Div α] (t : Terms α) (v : VarId) (k : α) :
    (t.redivided v k).toList = t.toList.filter (fun u => u.1 ≠ v) ++
      ((t.coefficient? v).map fun a => (v, a / k)).toList := by
  unfold redivided
  cases ha : t.coefficient? v with
  | some a =>
    simp only [Option.map_some, Option.toList_some]
    rw [toList_put_of_not_mem (t.not_mem_vars_erase v), toList_erase]
  | none =>
    have hv : v ∉ t.vars := coefficient?_eq_none_iff.mp ha
    have hne : ∀ u ∈ t.toList, u.1 ≠ v := fun u hu he => hv (he ▸ List.mem_map_of_mem hu)
    rw [List.filter_eq_self.mpr fun u hu => by simpa using hne u hu]
    simp

end Terms

namespace Dual

variable {α : Type} [Scalar α] {primal : Program α} {tolerance k : α} {d : Dual α} {y v : VarId}

theorem result_normalizeSlack_of_unit (hk : slackCoefficient primal v = .ok k)
    (hunit : countsAsUnit tolerance k = true) :
    (normalizeSlack primal tolerance d (some y, v.index)).result = .ok d := by
  simp [normalizeSlack, hk, hunit]

theorem result_normalizeSlack_of_rescale {program : Program α}
    (hk : slackCoefficient primal v = .ok k) (hunit : countsAsUnit tolerance k = false)
    (hprogram : rescale d.program y k = .ok program) :
    (normalizeSlack primal tolerance d (some y, v.index)).result =
      .ok { d with program, rescaled := d.rescaled + 1 } := by
  simp only [normalizeSlack, hk, hunit, hprogram, Traced.result_bind, Traced.result_quiet,
    Checked.ok_bind, Bool.false_eq_true, if_false]
  -- A warning about a zero coefficient is a report, so both branches end alike.
  split <;> simp

end Dual

namespace Dual.Draft

variable {α : Type} [Scalar α] {p : Program α} {choice : SlackChoice} {c : ConstraintId}

/-- The membership list of the multiplier of `c` names the dual constraints of the variables in `vs`,
and these are the constraints with a term on the multiplier. -/
structure Lists (D : Draft α) (p : Program α) (choice : SlackChoice) (c : ConstraintId)
    (vs : List VarId) : Prop where
  nodup : vs.Nodup
  ordinary : ∀ v ∈ vs, v ∈ p.ordinaryVars choice
  membership : D.membership c = vs.map (p.dualRow choice)
  term : ∀ v ∈ vs, ∃ a, (D.terms v).coefficient? (p.partVar choice (.multiplier c)) = some a
  no_term : ∀ v ∈ p.ordinaryVars choice, v ∉ vs →
    (D.terms v).coefficient? (p.partVar choice (.multiplier c)) = none

theorem Lists.withCost {D : Draft α} {vs : List VarId} (h : D.Lists p choice c vs) (a : α) :
    (D.withCost c a).Lists p choice c vs :=
  ⟨h.nodup, h.ordinary, h.membership, h.term, h.no_term⟩

/-- The draft in which the multiplier of `c` is divided by `k` in the constraints of `done`, which
begins the list `vs` of all variables of `c` with a dual constraint. -/
def divided (D : Draft α) (p : Program α) (choice : SlackChoice) (c : ConstraintId) (k : α)
    (vs done : List VarId) : Draft α where
  cost := D.cost
  membership := Function.update D.membership c ((vs.drop done.length ++ done).map (p.dualRow choice))
  terms v :=
    if v ∈ done then (D.terms v).redivided (p.partVar choice (.multiplier c)) k else D.terms v

variable {D : Draft α} {k a : α} {vs done post : List VarId} {v : VarId}

theorem divided_nil (hmembership : D.membership c = vs.map (p.dualRow choice)) :
    D.divided p choice c k vs [] = D := by
  apply ext
  · rfl
  · simp [divided, ← hmembership]
  · simp [divided]

section

variable (hnd : (done ++ v :: post).Nodup)
  (hord : ∀ u ∈ done ++ v :: post, u ∈ p.ordinaryVars choice)
  (ha : (D.terms v).coefficient? (p.partVar choice (.multiplier c)) = some a)
include hnd hord ha

/-- One more constraint in which the multiplier of `c` is divided. -/
theorem divided_concat :
    ((D.divided p choice c k (done ++ v :: post) done).withoutTerm p choice c v).withTerm
        p choice c v (a / k) =
      D.divided p choice c k (done ++ v :: post) (done ++ [v]) := by
  have hv : v ∉ done := fun hv => (List.nodup_append.mp hnd).2.2 v hv v List.mem_cons_self rfl
  have hpost : v ∉ post := (List.nodup_cons.mp (List.nodup_append.mp hnd).2.1).1
  have hne : ∀ u ∈ post ++ done, p.dualRow choice u ≠ p.dualRow choice v := by
    intro u hu he
    have hu' : u ∈ done ++ v :: post := by
      rcases List.mem_append.mp hu with hu | hu <;> simp [hu]
    have := Program.dualRow_injective (hord u hu') he
    subst this
    exact (List.mem_append.mp hu).elim hpost hv
  have hdrop : (done ++ v :: post).drop done.length = v :: post := List.drop_left
  have hdrop' : (done ++ v :: post).drop (done ++ [v]).length = post := by
    have hsplit : done ++ v :: post = (done ++ [v]) ++ post := by simp
    rw [hsplit, List.drop_left]
  apply ext
  · rfl
  · funext d
    by_cases hd : d = c
    · subst hd
      simp only [divided, withTerm, withoutTerm, withRecords, Function.update_self, hdrop, hdrop',
        List.cons_append, List.map_cons]
      rw [List.filter_cons_of_neg (by simp), List.filter_eq_self.mpr]
      · simp
      · intro r hr
        obtain ⟨u, hu, rfl⟩ := List.mem_map.mp hr
        simpa using hne u hu
    · simp [divided, withTerm, withoutTerm, withRecords, hd]
  · funext u
    by_cases hu : u = v
    · subst hu
      simp [divided, withTerm, withoutTerm, withRecords, hv, Terms.redivided, ha]
    · simp [divided, withTerm, withoutTerm, withRecords, hu]

/-- **The multiplier of `c` is divided in one constraint.** -/
theorem rescaleTerm_stage (h : p.WellFormed) (hc : c ∈ p.constraintIds) :
    rescaleTerm (p.partVar choice (.multiplier c)) k
      ((D.divided p choice c k (done ++ v :: post) done).program p choice) (p.dualRow choice v) =
    .ok ((D.divided p choice c k (done ++ v :: post) (done ++ [v])).program p choice) := by
  have hv : v ∉ done := fun hv => (List.nodup_append.mp hnd).2.2 v hv v List.mem_cons_self rfl
  have hvord : v ∈ p.ordinaryVars choice := hord v (by simp)
  have hterm : ((D.divided p choice c k (done ++ v :: post) done).terms v).coefficient?
      (p.partVar choice (.multiplier c)) = some a := by
    simpa [divided, hv] using ha
  have hnew : p.partVar choice (.multiplier c) ∉
      (((D.divided p choice c k (done ++ v :: post) done).withoutTerm p choice c v).terms v).vars := by
    simp only [withoutTerm, withRecords, Function.update_self]
    exact Terms.not_mem_vars_erase _ _
  rw [rescaleTerm, removeTerm_program h hc hvord hterm, Checked.ok_bind]
  show Program.addTerm _ _ _ (a / k) = _
  rw [addTerm_program h hc hvord (a / k) hnew, divided_concat hnd hord ha]

end

section

variable (h : p.WellFormed) (hc : c ∈ p.constraintIds) (hlists : D.Lists p choice c vs)
include h hc hlists

/-- The multiplier of `c` is divided in the constraints with which its membership list begins. -/
theorem foldlM_rescaleTerm (hsplit : vs = done ++ post) :
    (done.map (p.dualRow choice)).foldlM (rescaleTerm (p.partVar choice (.multiplier c)) k)
        (D.program p choice) =
      .ok ((D.divided p choice c k vs done).program p choice) := by
  have hfold : done.foldlM (fun program v => rescaleTerm (p.partVar choice (.multiplier c)) k program
      (p.dualRow choice v)) ((D.divided p choice c k vs []).program p choice) =
      .ok ((D.divided p choice c k vs done).program p choice) := by
    refine foldlM_stages (fun done => (D.divided p choice c k vs done).program p choice) ?_
    rintro pre v rest rfl
    have hvs : vs = pre ++ v :: (rest ++ post) := by simp [hsplit]
    obtain ⟨a, ha⟩ := hlists.term v (by simp [hvs])
    subst hvs
    exact rescaleTerm_stage hlists.nodup hlists.ordinary ha h hc
  rwa [divided_nil hlists.membership, ← List.foldlM_map] at hfold

/-- **The multiplier of `c` is divided by `k`.** -/
theorem rescale_program :
    rescale (D.program p choice) (p.partVar choice (.multiplier c)) k =
      .ok (((D.withCost c (D.cost c / k)).divided p choice c k vs vs).program p choice) := by
  have hfold := foldlM_rescaleTerm (k := k) h hc (hlists.withCost (D.cost c / k))
    (List.append_nil vs).symm
  simp only [rescale, var?_multiplier hc, Checked.found_some, Checked.ok_bind,
    setCost?_program h hc, hlists.membership, hfold]

end

end Dual.Draft

namespace Program

variable {α : Type} {p : Program α} {c : ConstraintId} {done : List ConstraintId}

/-! ## The order of the contributions -/

theorem contributionOrder_nodup (hdone : done.Nodup) : (p.contributionOrder done).Nodup := by
  rw [contributionOrder, List.nodup_append]
  refine ⟨p.constraintIds_nodup.filter _, hdone, ?_⟩
  intro d hd e he hde
  subst hde
  simp only [List.mem_filter, decide_eq_true_eq] at hd
  exact hd.2 he

theorem mem_contributionOrder (hsub : ∀ d ∈ done, d ∈ p.constraintIds) :
    c ∈ p.contributionOrder done ↔ c ∈ p.constraintIds := by
  simp only [contributionOrder, List.mem_append, List.mem_filter, decide_eq_true_eq]
  constructor
  · rintro (hc | hc)
    · exact hc.1
    · exact hsub c hc
  · intro hc
    by_cases hd : c ∈ done
    · exact Or.inr hd
    · exact Or.inl ⟨hc, hd⟩

/-- The constraint that is rescaled next moves to the end. -/
theorem contributionOrder_concat (hnot : c ∉ done) : p.contributionOrder (done ++ [c]) =
    (p.contributionOrder done).filter (· ≠ c) ++ [c] := by
  have hdone : done.filter (· ≠ c) = done :=
    List.filter_eq_self.mpr fun d hd => by simpa using fun he : d = c => hnot (he ▸ hd)
  have hids : p.constraintIds.filter (fun d => d ∉ done ++ [c]) =
      (p.constraintIds.filter fun d => d ∉ done).filter (· ≠ c) := by
    rw [List.filter_filter]
    refine List.filter_congr fun d _ => ?_
    simp [and_comm]
  rw [contributionOrder, contributionOrder, List.filter_append, hdone, hids, List.append_assoc]

variable [Scalar α] {settings : Settings α} {v : VarId} {vs post : List VarId} {k : α}

theorem dualTerms_congr {choice : SlackChoice} {f g : ConstraintId → Option α}
    {cs : List ConstraintId} (hfg : ∀ d ∈ cs, f d = g d) :
    p.dualTerms choice f cs v = p.dualTerms choice g cs v := by
  rw [dualTerms, dualTerms]
  congr 1
  refine List.filterMap_congr fun d hd => ?_
  rw [dualTerm?, dualTerm?, hfg d hd]

/-- The terms of a dual constraint once one more multiplier was divided. -/
theorem redivided_dualTerms (hdone : done.Nodup) (hsub : ∀ d ∈ done, d ∈ p.constraintIds)
    (hc : c ∈ p.constraintIds) (hnot : c ∉ done) (hk : p.divisorOf? settings c = some k) :
    (Terms.ofList (p.dualTerms settings.slackChoice (p.divisorsAfter settings done)
        (p.contributionOrder done) v)).redivided (p.partVar settings.slackChoice (.multiplier c)) k =
      Terms.ofList (p.dualTerms settings.slackChoice (p.divisorsAfter settings (done ++ [c]))
        (p.contributionOrder (done ++ [c])) v) := by
  have hnd : (p.contributionOrder done).Nodup := contributionOrder_nodup hdone
  have hmem : ∀ d ∈ p.contributionOrder done, d ∈ p.constraintIds :=
    fun d => (mem_contributionOrder hsub).mp
  have hdone' : (done ++ [c]).Nodup := List.nodup_append.mpr
    ⟨hdone, List.nodup_singleton c, fun d hd e he hde =>
      hnot (List.mem_singleton.mp he ▸ hde ▸ hd)⟩
  have hsub' : ∀ d ∈ done ++ [c], d ∈ p.constraintIds := by
    intro d hd
    rcases List.mem_append.mp hd with hd | hd
    · exact hsub d hd
    · exact List.mem_singleton.mp hd ▸ hc
  have hnone : p.divisorsAfter settings done c = none := by simp [divisorsAfter, hnot]
  have hsome : p.divisorsAfter settings (done ++ [c]) c = some k := by simp [divisorsAfter, hk]
  have hrest : ∀ d ∈ (p.contributionOrder done).filter (· ≠ c),
      p.divisorsAfter settings done d = p.divisorsAfter settings (done ++ [c]) d := by
    intro d hd
    have hdc : d ≠ c := by simpa using (List.mem_filter.mp hd).2
    simp [divisorsAfter, hdc]
  apply Terms.ext
  rw [Terms.toList_redivided, toList_ofList_dualTerms hnd hmem,
    coefficient?_dualTerms hnd hmem ((mem_contributionOrder hsub).mpr hc), hnone,
    filter_dualTerms hmem hc, dualTerms_congr hrest,
    toList_ofList_dualTerms (contributionOrder_nodup hdone')
      fun d => (mem_contributionOrder hsub').mp,
    contributionOrder_concat hnot, dualTerms_concat, hsome, Option.map_map]
  rfl

/-! ## One slack -/

/-- The ordinary variables of a constraint. -/
def ordinaryOn (p : Program α) (choice : SlackChoice) (c : ConstraintId) : List VarId :=
  ((p.termsOf c).map Prod.fst).filter fun v => v ∈ p.ordinaryVars choice

theorem rescaledAmong_concat (settings : Settings α) (vs : List VarId) (v : VarId) :
    p.rescaledAmong settings (vs ++ [v]) = p.rescaledAmong settings vs ++
      ((p.slackRow? settings.slackChoice v).filter fun c =>
        (p.divisorOf? settings c).isSome).toList := by
  rw [rescaledAmong, rescaledAmong, List.filterMap_append]
  congr 1

variable (h : p.WellFormed)
include h

theorem mem_rescaledAmong_iff : c ∈ p.rescaledAmong settings vs ↔
    (∃ v ∈ vs, p.slackOf settings.slackChoice c = some v) ∧
      (p.divisorOf? settings c).isSome = true := by
  simp only [rescaledAmong, List.mem_filterMap, Option.filter_eq_some_iff, h.slackRow?_eq_some_iff]
  exact ⟨fun ⟨v, hv, hc, hk⟩ => ⟨⟨v, hv, hc⟩, hk⟩, fun ⟨⟨v, hv, hc⟩, hk⟩ => ⟨v, hv, hc, hk⟩⟩

/-- A constraint is not rescaled before its slack. -/
theorem not_mem_rescaledAmong (hc : p.slackOf settings.slackChoice c = some v) (hv : v ∉ vs) :
    c ∉ p.rescaledAmong settings vs := by
  intro hmem
  obtain ⟨⟨u, hu, hcu⟩, _⟩ := (mem_rescaledAmong_iff h).mp hmem
  exact hv (Option.some.inj (hc.symm.trans hcu) ▸ hu)

theorem rescaledAmong_nodup (hvs : vs.Nodup) : (p.rescaledAmong settings vs).Nodup := by
  refine hvs.filterMap fun v u c hv hu => ?_
  have hv' := h.slackRow?_eq_some_iff.mp (Option.filter_eq_some_iff.mp hv).1
  have hu' := h.slackRow?_eq_some_iff.mp (Option.filter_eq_some_iff.mp hu).1
  exact Option.some.inj (hv'.symm.trans hu')

theorem rescaledAmong_sub : ∀ c ∈ p.rescaledAmong settings vs, c ∈ p.constraintIds := by
  intro c hc
  obtain ⟨⟨v, _, hv⟩, _⟩ := (mem_rescaledAmong_iff h).mp hc
  exact mem_constraintIds_of_slackOf hv

omit h in
theorem dualMembership_eq (choice : SlackChoice) (c : ConstraintId) :
    p.dualMembership choice c = (p.ordinaryOn choice c).map (p.dualRow choice) := by
  rw [dualMembership, ordinaryOn, List.filter_map, List.map_map]
  rfl

omit h in
theorem mem_ordinaryOn_iff {choice : SlackChoice} : v ∈ p.ordinaryOn choice c ↔
    v ∈ p.ordinaryVars choice ∧ ∃ a, p.coefficient? c v = some a := by
  rw [ordinaryOn, List.mem_filter, mem_keys_termsOf_iff, decide_eq_true_iff, and_comm]

omit h in
theorem ordinaryOn_nodup (p : Program α) (choice : SlackChoice) (c : ConstraintId) :
    (p.ordinaryOn choice c).Nodup :=
  (keys_termsOf_nodup p c).filter _

omit h in
theorem coefficient?_rescaledDraft (hdone : done.Nodup) (hsub : ∀ d ∈ done, d ∈ p.constraintIds)
    (hc : c ∈ p.constraintIds) (v : VarId) : ((p.rescaledDraft settings done).terms v).coefficient?
      (p.partVar settings.slackChoice (.multiplier c)) =
        (p.coefficient? c v).map (dividedBy (p.divisorsAfter settings done c)) :=
  coefficient?_dualTerms (contributionOrder_nodup hdone) (fun _ => (mem_contributionOrder hsub).mp)
    ((mem_contributionOrder hsub).mpr hc)

omit h in
theorem rescaledDraft_lists (settings : Settings α) (hdone : done.Nodup)
    (hsub : ∀ d ∈ done, d ∈ p.constraintIds) (hc : c ∈ p.constraintIds) :
    (p.rescaledDraft settings done).Lists p settings.slackChoice c
      (p.ordinaryOn settings.slackChoice c) where
  nodup := ordinaryOn_nodup p _ c
  ordinary _ hv := (mem_ordinaryOn_iff.mp hv).1
  membership := dualMembership_eq _ c
  term v hv := by
    obtain ⟨_, a, ha⟩ := mem_ordinaryOn_iff.mp hv
    exact ⟨_, by rw [coefficient?_rescaledDraft hdone hsub hc, ha, Option.map_some]⟩
  no_term v hv hnot := by
    have hnone : p.coefficient? c v = none := by
      rw [Option.eq_none_iff_forall_ne_some]
      exact fun a ha => hnot (mem_ordinaryOn_iff.mpr ⟨hv, a, ha⟩)
    rw [coefficient?_rescaledDraft hdone hsub hc, hnone, Option.map_none]

omit h in
/-- One more multiplier divided gives the next draft. -/
theorem divided_rescaledDraft (hdone : done.Nodup) (hsub : ∀ d ∈ done, d ∈ p.constraintIds)
    (hc : c ∈ p.constraintIds) (hnot : c ∉ done) (hk : p.divisorOf? settings c = some k)
    (hvs : vs = p.ordinaryOn settings.slackChoice c) :
    ((((p.rescaledDraft settings done).withCost c
      ((p.rescaledDraft settings done).cost c / k)).divided p settings.slackChoice c k vs vs).program
        p settings.slackChoice) =
      (p.rescaledDraft settings (done ++ [c])).program p settings.slackChoice := by
  apply Dual.Draft.program_congr
  · funext d
    by_cases hd : d = c
    · subst hd
      simp [Dual.Draft.divided, Dual.Draft.withCost, rescaledDraft, divisorsAfter, dividedBy,
        hnot, hk]
    · simp [Dual.Draft.divided, Dual.Draft.withCost, rescaledDraft, divisorsAfter, hd]
  · funext d
    by_cases hd : d = c
    · subst hd
      simp [Dual.Draft.divided, rescaledDraft, dualMembership_eq, hvs]
    · simp [Dual.Draft.divided, Dual.Draft.withCost, rescaledDraft, hd]
  · intro u hu
    have hredivided : ((p.rescaledDraft settings done).terms u).redivided
        (p.partVar settings.slackChoice (.multiplier c)) k =
          (p.rescaledDraft settings (done ++ [c])).terms u :=
      redivided_dualTerms hdone hsub hc hnot hk
    simp only [Dual.Draft.divided, Dual.Draft.withCost]
    split
    · exact hredivided
    · rename_i hu'
      rw [← hredivided, Terms.redivided_of_none
        ((rescaledDraft_lists settings hdone hsub hc).no_term u hu (hvs ▸ hu'))]

/-- **The multiplier of a constraint is divided by the coefficient of its slack.** -/
theorem rescale_rescaledDual (hdone : done.Nodup) (hsub : ∀ d ∈ done, d ∈ p.constraintIds)
    (hc : c ∈ p.constraintIds) (hnot : c ∉ done) (hk : p.divisorOf? settings c = some k) :
    Dual.rescale (p.rescaledDual settings done).program
        (p.partVar settings.slackChoice (.multiplier c)) k =
      .ok (p.rescaledDual settings (done ++ [c])).program := by
  have hprogram : (p.rescaledDual settings done).program =
      (p.rescaledDraft settings done).program p settings.slackChoice := rfl
  rw [hprogram, Dual.Draft.rescale_program h hc (rescaledDraft_lists settings hdone hsub hc),
    divided_rescaledDraft hdone hsub hc hnot hk rfl]
  rfl

/-- **One chosen slack has its multiplier rescaled, unless its coefficient counts as one.** -/
theorem normalizeSlack_stage (hsplit : p.varIds = vs ++ v :: post) :
    (Dual.normalizeSlack p settings.unitTolerance
      (p.rescaledDual settings (p.rescaledAmong settings vs))
      ((p.slackRow? settings.slackChoice v).map fun c =>
        p.partVar settings.slackChoice (.multiplier c), v.index)).result =
    .ok (p.rescaledDual settings (p.rescaledAmong settings (vs ++ [v]))) := by
  have hnd : (vs ++ v :: post).Nodup := hsplit ▸ p.varIds_nodup
  have hv : v ∉ vs := fun hv => (List.nodup_append.mp hnd).2.2 v hv v List.mem_cons_self rfl
  rw [rescaledAmong_concat]
  cases hslack : p.slackRow? settings.slackChoice v with
  | none => simp [Dual.normalizeSlack]
  | some c =>
    have hc : p.slackOf settings.slackChoice c = some v := h.slackRow?_eq_some_iff.mp hslack
    obtain ⟨row, hrow, _⟩ := slackOf_eq_some hc
    obtain ⟨k, hk, hcoefficient⟩ := h.slackCoefficient_eq hc
    have hnot := not_mem_rescaledAmong h hc hv
    have hdivisor : p.divisorOf? settings c = _ := divisorOf?_of_slackOf hc hk
    cases hunit : Dual.countsAsUnit settings.unitTolerance k with
    | true =>
      rw [hunit] at hdivisor
      have hfilter : ((some c).filter fun c => (p.divisorOf? settings c).isSome) = none := by
        simp [hdivisor]
      rw [hfilter, Option.map_some, Dual.result_normalizeSlack_of_unit hcoefficient hunit]
      simp
    | false =>
      rw [hunit] at hdivisor
      have hfilter : ((some c).filter fun c => (p.divisorOf? settings c).isSome) = some c := by
        simp [hdivisor]
      have hprogram := rescale_rescaledDual h
        (rescaledAmong_nodup h (List.nodup_append.mp hnd).1) (rescaledAmong_sub h)
        (mem_constraintIds_iff.mpr ⟨row, hrow⟩) hnot hdivisor
      have hresult := Dual.result_normalizeSlack_of_rescale hcoefficient hunit hprogram
      rw [hfilter, Option.map_some, Option.toList_some, hresult, rescaledDual, rescaledDual,
        List.length_append]
      rfl

end Program

end Conic
