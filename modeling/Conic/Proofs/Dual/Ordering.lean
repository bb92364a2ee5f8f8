import Conic.Proofs.Dual.Consistent
import Conic.Proofs.Dual.Transpose
import Conic.Proofs.Dual.Turning
import Conic.Proofs.Exchange.Deriving

/-!
# The order of a dual

Terms and membership lists stand in the order in which they were entered, and the fourth step of the
construction removes and enters terms again. What it leaves behind can be read off the primal.

* `Program.Rescales` — the multipliers that the fourth step divides.
* `Dual.Queues` — the order of the terms in one dual constraint.
* `Dual.Normalizes` — the fourth step, slack after slack.
* `Dual.InOrder` — the terms of every dual constraint and the membership list of every multiplier.
* `Exchange.checkOut_inOrder` — **a dual that is checked out or borrowed is in order.**
-/

set_option autoImplicit false

namespace Conic

variable {α : Type} [Scalar α]

/-! ## The specification -/

/-- The multiplier of constraint `c` is divided: the coefficient `k` of its chosen slack `s` is not
as close to one as the tolerance allows. -/
structure Program.Rescales (p : Program α) (settings : Settings α) (c : ConstraintId) (s : VarId)
    (k : α) : Prop where
  chosen : p.slackOf settings.slackChoice c = some s
  coefficient : p.coefficient? c s = some k
  notUnit : ¬Scalar.abs (k - 1) ≤ settings.unitTolerance

/-- The terms of the dual constraint of `v`: the first one on its own variable `w`, then those on the
multipliers of the constraints in `kept`, then those on the multipliers of the constraints in
`divided`. -/
structure Dual.Queues (d : Dual α) (p : Program α) (settings : Settings α) (v w : VarId)
    (kept divided : List ConstraintId) (terms : Terms α) : Prop where
  order : terms.vars.map some = some w :: (kept.map d.multiplier? ++ divided.map d.multiplier?)
  /-- Multipliers that are not divided stand in the order of their constraints. -/
  kept_sorted : kept.Pairwise fun c c' => c.index < c'.index
  mem_kept : ∀ c, c ∈ kept ↔
    (∃ a, p.coefficient? c v = some a) ∧ ∀ s k, ¬p.Rescales settings c s k
  /-- Those that are stand in the order of the slacks. -/
  divided_sorted : divided.Pairwise fun c c' => ∃ s s', p.slackOf settings.slackChoice c = some s ∧
    p.slackOf settings.slackChoice c' = some s' ∧ s.index < s'.index
  mem_divided : ∀ c, c ∈ divided ↔
    (∃ a, p.coefficient? c v = some a) ∧ ∃ s k, p.Rescales settings c s k
  own : terms.coefficient? w = some (-1)
  kept_coefficient : ∀ {c y a}, c ∈ kept → d.multiplier? c = some y → p.coefficient? c v = some a →
    terms.coefficient? y = some a
  divided_coefficient : ∀ {c s k y a}, p.Rescales settings c s k → d.multiplier? c = some y →
    p.coefficient? c v = some a → terms.coefficient? y = some (a / k)

/-- The fourth step, which goes from the dual `before` to the dual `d`. -/
structure Dual.Normalizes (before : Dual α) (p : Program α) (settings : Settings α) (d : Dual α) :
    Prop where
  result : (before.slackMultipliers.toList.zipIdx.foldlM
    (normalizeSlack p settings.unitTolerance) before).result = .ok d
  /-- At a slack the dual stays as it is, or the multiplier of the slack is divided, which turns the
  membership list of the multiplier once and leaves the other coefficients alone. -/
  pass : ∀ {done rest s y},
    before.slackMultipliers.toList.zipIdx = done ++ (some y, s.index) :: rest → ∃ mid next,
      (done.foldlM (normalizeSlack p settings.unitTolerance) before).result = .ok mid ∧
      (normalizeSlack p settings.unitTolerance mid (some y, s.index)).result = .ok next ∧
      ((∀ c k, ¬p.Rescales settings c s k) → next = mid) ∧
      ∀ {c k}, p.Rescales settings c s k → Turns mid.program y k next.program
  /-- In the end every membership list is as it was before. -/
  members : ∀ u, (d.program.var? u).map (·.constraints) =
    (before.program.var? u).map (·.constraints)
  /-- So is every coefficient that does not stand on a multiplier that is divided. -/
  other : ∀ {u}, (∀ c s k, p.Rescales settings c s k → before.multiplier? c ≠ some u) →
    ∀ r, d.program.coefficient? r u = before.program.coefficient? r u

/-- The dual is in the order that the primal gives it. -/
structure Dual.InOrder (d : Dual α) (p : Program α) (settings : Settings α) : Prop where
  /-- Every dual constraint belongs to an ordinary variable, and its terms are in order. -/
  row : ∀ {r row}, d.program.constraint? r = some row → ∃ v w kept divided,
    d.constraintOf? v = some r ∧ d.OwnsReducedCost r w ∧
      d.Queues p settings v w kept divided row.terms
  /-- The membership list of a multiplier names the dual constraints of the ordinary variables of its
  constraint, in the order of the terms. -/
  members : ∀ {c row}, p.constraint? c = some row → ∃ y x,
    d.multiplier? c = some y ∧ d.program.var? y = some x ∧ x.constraints.map some =
      (row.terms.vars.filter fun v => v ∈ p.ordinaryVars settings.slackChoice).map d.constraintOf?
  /-- The first three steps end in a dual that the fourth one makes this one. -/
  normalized : ∃ before, (p.transposedDual settings).result = .ok before ∧
    before.Normalizes p settings d

namespace Program

variable {p : Program α} {settings : Settings α} {c : ConstraintId} {v s : VarId} {k : α}

/-! ## What is divided -/

theorem exists_rescales_iff :
    (∃ s, p.Rescales settings c s k) ↔ p.divisorOf? settings c = some k := by
  unfold divisorOf?
  rw [Option.filter_eq_some_iff, Option.bind_eq_some_iff]
  constructor
  · rintro ⟨s, hs⟩
    exact ⟨⟨s, hs.chosen, hs.coefficient⟩, by simpa [Dual.countsAsUnit] using hs.notUnit⟩
  · rintro ⟨⟨s, hs, hk⟩, hunit⟩
    exact ⟨s, hs, hk, by simpa [Dual.countsAsUnit] using hunit⟩

theorem Rescales.divisorOf? (hs : p.Rescales settings c s k) : p.divisorOf? settings c = some k :=
  exists_rescales_iff.mp ⟨s, hs⟩

theorem divisorOf?_eq_none_iff :
    p.divisorOf? settings c = none ↔ ∀ s k, ¬p.Rescales settings c s k := by
  rw [Option.eq_none_iff_forall_ne_some, forall_comm]
  refine forall_congr' fun k => ?_
  rw [← not_exists, exists_rescales_iff]

/-! ## The order of the terms -/

/-- The constraints with a term on `v`, among those in a list. -/
def rowsOn (p : Program α) (v : VarId) (cs : List ConstraintId) : List ConstraintId :=
  cs.filter fun c => (p.coefficient? c v).isSome

/-- The constraints with a term on `v` whose multipliers are not divided. -/
def keptOn (p : Program α) (settings : Settings α) (v : VarId) : List ConstraintId :=
  p.rowsOn v (p.constraintIds.filter fun c => c ∉ p.rescaledRows settings)

/-- The constraints with a term on `v` whose multipliers are divided. -/
def dividedOn (p : Program α) (settings : Settings α) (v : VarId) : List ConstraintId :=
  p.rowsOn v (p.rescaledRows settings)

omit [Scalar α] in
theorem mem_rowsOn_iff {cs : List ConstraintId} :
    c ∈ p.rowsOn v cs ↔ (∃ a, p.coefficient? c v = some a) ∧ c ∈ cs := by
  rw [rowsOn, List.mem_filter, Option.isSome_iff_exists, and_comm]

theorem keptOn_sorted : (p.keptOn settings v).Pairwise fun c c' => c.index < c'.index := by
  refine List.Pairwise.filter _ (List.Pairwise.filter _ ?_)
  rw [constraintIds, List.pairwise_map]
  exact List.pairwise_lt_range

/-- Constraints are divided in the order of their slacks. -/
theorem WellFormed.dividedOn_sorted (h : p.WellFormed) :
    (p.dividedOn settings v).Pairwise fun c c' => ∃ s s',
      p.slackOf settings.slackChoice c = some s ∧ p.slackOf settings.slackChoice c' = some s' ∧
        s.index < s'.index := by
  have hvars : p.varIds.Pairwise fun s s' => s.index < s'.index := by
    rw [varIds, List.pairwise_map]
    exact List.pairwise_lt_range
  refine List.Pairwise.filter _ (List.Pairwise.filterMap _ ?_ hvars)
  intro s s' hlt c hc c' hc'
  exact ⟨s, s', h.slackRow?_eq_some_iff.mp (Option.filter_eq_some_iff.mp hc).1,
    h.slackRow?_eq_some_iff.mp (Option.filter_eq_some_iff.mp hc').1, hlt⟩

theorem WellFormed.mem_keptOn_iff (h : p.WellFormed) : c ∈ p.keptOn settings v ↔
    (∃ a, p.coefficient? c v = some a) ∧ ∀ s k, ¬p.Rescales settings c s k := by
  rw [keptOn, mem_rowsOn_iff, List.mem_filter, ← divisorOf?_eq_none_iff]
  refine and_congr_right fun ⟨a, ha⟩ => ?_
  obtain ⟨row, hrow, _⟩ := Option.bind_eq_some_iff.mp ha
  simp [h.mem_rescaledRows_iff, mem_constraintIds_iff, hrow]

theorem WellFormed.mem_dividedOn_iff (h : p.WellFormed) : c ∈ p.dividedOn settings v ↔
    (∃ a, p.coefficient? c v = some a) ∧ ∃ s k, p.Rescales settings c s k := by
  rw [dividedOn, mem_rowsOn_iff, h.mem_rescaledRows_iff, Option.isSome_iff_exists, exists_comm]
  simp only [exists_rescales_iff]

/-- The terms that constraints contribute stand on the multipliers of those with a term on `v`. -/
theorem vars_dualTerms (choice : SlackChoice) (divisor : ConstraintId → Option α)
    (cs : List ConstraintId) (v : VarId) : (p.dualTerms choice divisor cs v).map Prod.fst =
      p.partVar choice (.reducedCost v) ::
        (p.rowsOn v cs).map fun c => p.partVar choice (.multiplier c) := by
  rw [dualTerms, List.map_cons]
  congr 1
  induction cs with
  | nil => rfl
  | cons c cs ih =>
    cases ha : p.coefficient? c v with
    | none => simpa [rowsOn, dualTerm?, ha] using ih
    | some a => simpa [rowsOn, dualTerm?, ha] using ih

/-- **The terms of a dual constraint are in order.** -/
theorem WellFormed.derivedDual_queues (h : p.WellFormed) : (p.derivedDual settings).Queues p settings
    v (p.partVar settings.slackChoice (.reducedCost v)) (p.keptOn settings v)
      (p.dividedOn settings v) ((p.finalDraft settings).terms v) where
  order := by
    -- The order of the contributions is that of the constraints with those divided at the end.
    have hqueue : p.rowsOn v (p.contributionOrder (p.rescaledRows settings)) =
        p.keptOn settings v ++ p.dividedOn settings v := List.filter_append _ _
    rw [Terms.vars, h.toList_finalDraft_terms, vars_dualTerms, hqueue, List.map_cons, List.map_map,
      ← List.map_append]
    refine congrArg _ (List.map_congr_left fun c hc => ?_)
    obtain ⟨⟨a, ha⟩, _⟩ := mem_rowsOn_iff.mp (hqueue ▸ hc)
    obtain ⟨row, hrow, _⟩ := Option.bind_eq_some_iff.mp ha
    exact (multiplier?_derivedDual hrow).symm
  kept_sorted := keptOn_sorted
  mem_kept _ := h.mem_keptOn_iff
  divided_sorted := h.dividedOn_sorted
  mem_divided _ := h.mem_dividedOn_iff
  own := h.coefficient?_finalDraft_iff.mpr (Or.inl ⟨rfl, rfl⟩)
  kept_coefficient hc hy ha := by
    obtain ⟨_, rfl⟩ := multiplier?_derivedDual_eq_some_iff.mp hy
    have hnone := divisorOf?_eq_none_iff.mpr (h.mem_keptOn_iff.mp hc).2
    exact h.coefficient?_finalDraft_iff.mpr (Or.inr ⟨_, _, ha, rfl, by rw [hnone]; rfl⟩)
  divided_coefficient hs hy ha := by
    obtain ⟨_, rfl⟩ := multiplier?_derivedDual_eq_some_iff.mp hy
    exact h.coefficient?_finalDraft_iff.mpr
      (Or.inr ⟨_, _, ha, rfl, by rw [hs.divisorOf?]; rfl⟩)

/-! ## The membership lists -/

theorem WellFormed.derivedDual_members (h : p.WellFormed) {row : Constraint α}
    (hrow : p.constraint? c = some row) : (p.dualMembership settings.slackChoice c).map some =
      (row.terms.vars.filter fun v => v ∈ p.ordinaryVars settings.slackChoice).map
        (p.derivedDual settings).constraintOf? := by
  have hvars : (row.terms.vars.filter fun v => v ∈ p.ordinaryVars settings.slackChoice) =
      p.ordinaryOn settings.slackChoice c := by
    simp [ordinaryOn, termsOf, hrow, Terms.vars]
  rw [hvars, dualMembership_eq, List.map_map]
  refine List.map_congr_left fun v hv => ?_
  exact ((constraintOf?_derivedDual_eq_some_iff h).mpr ⟨(mem_ordinaryOn_iff.mp hv).1, rfl⟩).symm

/-! ## One slack after another -/

section

variable {done : List ConstraintId} {vs post : List VarId} (h : p.WellFormed)
include h

/-- **A multiplier that has not been divided is divided.** -/
theorem WellFormed.rescaledDual_turns (hdone : done.Nodup) (hsub : ∀ d ∈ done, d ∈ p.constraintIds)
    (hc : c ∈ p.constraintIds) (hnot : c ∉ done) (hk : p.divisorOf? settings c = some k) :
    Dual.Turns (p.rescaledDual settings done).program
      (p.partVar settings.slackChoice (.multiplier c)) k
      (p.rescaledDual settings (done ++ [c])).program := by
  have hturns := Dual.Draft.turns (k := k) h hc (rescaledDraft_lists settings hdone hsub hc)
  rwa [divided_rescaledDraft hdone hsub hc hnot hk rfl] at hturns

/-- **At a slack nothing is divided, or its multiplier is.** -/
theorem WellFormed.rescaledDual_concat (settings : Settings α)
    (hsplit : p.varIds = vs ++ s :: post) :
    ((∀ c k, ¬p.Rescales settings c s k) ∧
      p.rescaledAmong settings (vs ++ [s]) = p.rescaledAmong settings vs) ∨
    ∃ c k, p.Rescales settings c s k ∧
      Dual.Turns (p.rescaledDual settings (p.rescaledAmong settings vs)).program
        (p.partVar settings.slackChoice (.multiplier c)) k
        (p.rescaledDual settings (p.rescaledAmong settings (vs ++ [s]))).program := by
  have hnd : (vs ++ s :: post).Nodup := hsplit ▸ p.varIds_nodup
  have hs : s ∉ vs := notMem_of_split hnd rfl
  rw [rescaledAmong_concat]
  by_cases hrescales : ∃ c k, p.Rescales settings c s k
  · obtain ⟨c, k, hck⟩ := hrescales
    have hnot := not_mem_rescaledAmong h hck.chosen hs
    have hlast : (p.slackRow? settings.slackChoice s).filter
        (fun c => (p.divisorOf? settings c).isSome) = some c := by
      rw [Option.filter_eq_some_iff]
      exact ⟨h.slackRow?_eq_some_iff.mpr hck.chosen, by rw [hck.divisorOf?]; rfl⟩
    rw [hlast]
    exact Or.inr ⟨c, k, hck, h.rescaledDual_turns
      (rescaledAmong_nodup h (List.nodup_append.mp hnd).1) (rescaledAmong_sub h)
      (mem_constraintIds_of_slackOf hck.chosen) hnot hck.divisorOf?⟩
  · have hnone : (p.slackRow? settings.slackChoice s).filter
        (fun c => (p.divisorOf? settings c).isSome) = none := by
      rw [Option.eq_none_iff_forall_ne_some]
      intro c hc
      obtain ⟨hrow, hsome⟩ := Option.filter_eq_some_iff.mp hc
      obtain ⟨k, hk⟩ := Option.isSome_iff_exists.mp hsome
      obtain ⟨s', hs'⟩ := exists_rescales_iff.mpr hk
      cases hs'.chosen.symm.trans (h.slackRow?_eq_some_iff.mp hrow)
      exact hrescales ⟨c, k, hs'⟩
    rw [hnone]
    exact Or.inl ⟨fun c k hck => hrescales ⟨c, k, hck⟩, List.append_nil _⟩

/-- What holds before the fourth step and survives every division holds after each slack. -/
theorem WellFormed.rescaledDual_preserves {P : Program α → Prop}
    (hstart : P (p.rescaledDual settings []).program)
    (hturn : ∀ {q q' c s k}, p.Rescales settings c s k →
      Dual.Turns q (p.partVar settings.slackChoice (.multiplier c)) k q' → P q → P q')
    (hsplit : p.varIds = vs ++ post) :
    P (p.rescaledDual settings (p.rescaledAmong settings vs)).program := by
  induction vs using List.reverseRecOn generalizing post with
  | nil => exact hstart
  | append_singleton vs s ih =>
    have hsplit' : p.varIds = vs ++ s :: post := by rw [hsplit, List.append_assoc]; rfl
    rcases h.rescaledDual_concat settings hsplit' with ⟨_, hsame⟩ | ⟨c, k, hck, hturns⟩
    · rw [hsame]
      exact ih hsplit'
    · exact hturn hck hturns (ih hsplit')

/-- **The fourth step.** -/
theorem WellFormed.derivedDual_normalizes :
    (p.rescaledDual settings []).Normalizes p settings (p.derivedDual settings) where
  result := h.normalizeSlacks_result settings
  pass {done rest s y} hsplit := by
    -- The split of the table is a split of the variables, since the table has an entry for each.
    rw [zipIdx_slackMultipliers, List.map_eq_append_iff] at hsplit
    obtain ⟨vs, tail, hvars, rfl, htail⟩ := hsplit
    obtain ⟨s', post, rfl, hentry, rfl⟩ := List.map_eq_cons_iff.mp htail
    obtain ⟨hy, hindex⟩ := Prod.mk.inj hentry
    obtain rfl : s' = s := congrArg VarId.mk hindex
    obtain ⟨c, hrow, rfl⟩ := Option.map_eq_some_iff.mp hy
    have hc : p.slackOf settings.slackChoice c = some s' := h.slackRow?_eq_some_iff.mp hrow
    have hstage : (Dual.normalizeSlack p settings.unitTolerance _ _).result = _ :=
      normalizeSlack_stage h hvars
    rw [hrow, Option.map_some] at hstage
    refine ⟨_, _, h.normalizeSlacks_prefix settings hvars, hstage, ?_⟩
    rcases h.rescaledDual_concat settings hvars with
      ⟨hnone, hsame⟩ | ⟨c', k', hck', hturns⟩
    · exact ⟨fun _ => by rw [hsame], fun hck => absurd hck (hnone _ _)⟩
    · -- A slack belongs to one constraint, so there is only one way to divide.
      refine ⟨fun hnone => absurd hck' (hnone _ _), fun {d k} hck => ?_⟩
      cases h.slackOf_unique hck'.chosen hc
      cases h.slackOf_unique hck.chosen hc
      cases hck.coefficient.symm.trans hck'.coefficient
      exact hturns
  members u :=
    h.rescaledDual_preserves (P := fun q => (q.var? u).map (·.constraints) = _) rfl
      (fun _ hturns hq => (hturns.members u).trans hq) (List.append_nil p.varIds).symm
  other {u} hu r := by
    refine h.rescaledDual_preserves (P := fun q => q.coefficient? r u = _) rfl ?_
      (List.append_nil p.varIds).symm
    intro q q' c s k hck hturns hq
    obtain ⟨row, hrow, _⟩ := slackOf_eq_some hck.chosen
    have hy : (p.rescaledDual settings []).multiplier? c = _ := multiplier?_dualOn 0 hrow
    have hne : u ≠ p.partVar settings.slackChoice (.multiplier c) := fun he =>
      hu c s k hck (he ▸ hy)
    exact (hturns.other hne r).trans hq

end

/-- **The dual written down at once is in order.** -/
theorem WellFormed.derivedDual_inOrder (h : p.WellFormed) (settings : Settings α) :
    (p.derivedDual settings).InOrder p settings where
  row hr := by
    obtain ⟨v, hv, rfl⟩ := exists_var_of_constraint? h hr
    cases hr.symm.trans (derivedDual_constraint? hv)
    exact ⟨v, _, _, _, (constraintOf?_derivedDual_eq_some_iff h).mpr ⟨hv, rfl⟩,
      derivedDual_ownsReducedCost h hv, h.derivedDual_queues⟩
  members hrow :=
    ⟨_, _, multiplier?_derivedDual hrow,
      derivedDual_var?_multiplier (mem_constraintIds_iff.mpr ⟨_, hrow⟩), h.derivedDual_members hrow⟩
  normalized := ⟨_, h.transposedDual_result settings, h.derivedDual_normalizes⟩

end Program

/-! ## Checking out -/

namespace Exchange

variable {x : Exchange α}

/-- **A dual that is checked out or borrowed is in order.** -/
theorem checkOut_inOrder (hprimal : x.primal.consistent = true) (elapsed : Nat) :
    (∀ b, (x.borrow elapsed).result = .ok b → b.dual.InOrder x.primal x.settings) ∧
    (∀ x', (x.checkOut elapsed).result = .ok x' →
      ∃ d, x'.state = .checkedOut d ∧ d.InOrder x.primal x.settings) ∧
    (x.Ready → (∃ b, (x.borrow elapsed).result = .ok b) ∧
      ∃ x', (x.checkOut elapsed).result = .ok x') := by
  have h : x.primal.WellFormed := Program.consistent_iff_wellFormed.mp hprimal
  have horder := h.derivedDual_inOrder x.settings
  refine ⟨fun b hb => ?_, fun x' hx' => ?_, fun hready => ?_⟩
  · rw [dual_of_borrow h hb]
    exact horder
  · exact ⟨_, state_of_checkOut h hx', horder⟩
  · obtain ⟨owner, howner, _⟩ := derive_result hready elapsed
    obtain ⟨x', hx', _⟩ := checkOut_result hready elapsed
    exact ⟨⟨_, (borrow_of_checkedIn hready.state elapsed).trans howner⟩, x', hx'⟩

end Exchange

/-- Three constraints on `x₀` and `x₄`. The first one has the slack `x₂`, the second one the slack
`x₃`, the third one the slack `x₁`. Only the coefficient of `x₃` is one. -/
def Program.crossedSlacks : Program Rat where
  vars := #[⟨⟨0⟩, 3, 0, [⟨0⟩, ⟨1⟩, ⟨2⟩]⟩, ⟨⟨1⟩, 0, 0, [⟨2⟩]⟩, ⟨⟨2⟩, 0, 0, [⟨0⟩]⟩,
    ⟨⟨3⟩, 0, 0, [⟨1⟩]⟩, ⟨⟨4⟩, 1, 0, [⟨0⟩, ⟨1⟩, ⟨2⟩]⟩]
  cones := #[.nonneg ⟨0⟩, .nonneg ⟨1⟩, .nonneg ⟨2⟩, .nonneg ⟨3⟩, .nonneg ⟨4⟩]
  constraints := #[⟨⟨[(⟨4⟩, 1), (⟨2⟩, 4), (⟨0⟩, 2)], by decide⟩, 6, 0⟩,
    ⟨⟨[(⟨0⟩, 1), (⟨3⟩, 1), (⟨4⟩, 5)], by decide⟩, 5, 0⟩,
    ⟨⟨[(⟨0⟩, 3), (⟨1⟩, 2), (⟨4⟩, 1)], by decide⟩, 1, 0⟩]
  point := #[0, 0, 0, 0, 0]

/-- The multiplier of the third constraint comes before that of the first one, and the membership
list of the latter begins with the dual constraint of `x₄`. -/
theorem Exchange.checkOut_inOrder_crossedSlacks : ∃ x' d,
    ((Exchange.new Program.crossedSlacks .standard).checkOut 0).result = .ok x' ∧
      x'.state = .checkedOut d ∧ d.InOrder Program.crossedSlacks .standard ∧
      (d.program.constraint? ⟨0⟩).map (·.terms.toList) =
        some [(⟨3⟩, -1), (⟨1⟩, 1), (⟨2⟩, 3 / 2), (⟨0⟩, 1 / 2)] ∧
      (d.program.var? ⟨0⟩).map (·.constraints) = some [⟨1⟩, ⟨0⟩] := by
  have hready : (Exchange.new Program.crossedSlacks .standard).Ready :=
    ⟨rfl, by rfl, by rfl, fun _ => by rfl⟩
  obtain ⟨_, hinOrder, _⟩ :=
    checkOut_inOrder (x := Exchange.new Program.crossedSlacks .standard) (by decide) 0
  obtain ⟨x', hx', hstate, _⟩ := checkOut_result hready 0
  obtain ⟨d, hd, horder⟩ := hinOrder x' hx'
  obtain rfl := State.checkedOut.inj (hstate.symm.trans hd)
  exact ⟨x', _, hx', hd, horder, by decide +kernel, by decide +kernel⟩

end Conic
