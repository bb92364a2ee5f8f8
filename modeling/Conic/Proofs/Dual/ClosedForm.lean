import Mathlib.Data.List.Nodup
import Mathlib.Logic.Function.Basic
import Conic.Proofs.Dual.SlackChoice

/-!
# The dual in closed form

The construction fills arrays step by step. Here its result is written down at once, as lists
indexed by what their elements stand for.

* `Dual.Part` — what a variable of the dual stands for; `Program.parts` lists them in order.
* `Program.partVar`, `Program.dualRow` — the handles, as positions in such lists.
* `Dual.Draft` — the data that the last two steps change; `Draft.program` is the program with them.
* `Program.derivedDual` — the dual with its tables.
-/

set_option autoImplicit false

namespace Conic

/-- What a variable of a dual stands for. -/
inductive Dual.Part where
  | multiplier (c : ConstraintId)
  | auxiliary (c : ConstraintId)
  | reducedCost (v : VarId)
  deriving DecidableEq

/-- The data of a dual that transposing and rescaling change: the objective coefficient and the
membership list of each multiplier, and the terms of the constraint of each ordinary variable. -/
structure Dual.Draft (α : Type) where
  cost : ConstraintId → α
  membership : ConstraintId → List ConstraintId
  terms : VarId → Terms α

@[ext] theorem Dual.Draft.ext {α : Type} {D E : Dual.Draft α} (cost : D.cost = E.cost)
    (membership : D.membership = E.membership) (terms : D.terms = E.terms) : D = E := by
  cases D; cases E; cases cost; cases membership; cases terms; rfl

namespace Program

variable {α : Type} [Scalar α] (p : Program α) (choice : SlackChoice)

/-! ## Parts and handles -/

/-- The dual variables of one constraint. -/
def partsOf (c : ConstraintId) : List Dual.Part :=
  if (p.slackOf choice c).isSome then [.multiplier c] else [.multiplier c, .auxiliary c]

/-- The parts that the given constraints and the given variables lead to. -/
def partsOn (cs : List ConstraintId) (vs : List VarId) : List Dual.Part :=
  cs.flatMap (p.partsOf choice) ++ vs.map .reducedCost

/-- All dual variables, in order. -/
def parts : List Dual.Part :=
  p.partsOn choice p.constraintIds (p.ordinaryVars choice)

/-- The dual variable that stands for a part. -/
def partVar (part : Dual.Part) : VarId :=
  ⟨(p.parts choice).idxOf part⟩

/-- The dual constraint of an ordinary variable. -/
def dualRow (v : VarId) : ConstraintId :=
  ⟨(p.ordinaryVars choice).idxOf v⟩

/-- The cone of the multiplier of a constraint. -/
def multiplierCone (c : ConstraintId) : Cone :=
  if (p.slackOf choice c).isSome then .nonneg (p.partVar choice (.multiplier c))
  else .secondOrder [p.partVar choice (.multiplier c), p.partVar choice (.auxiliary c)]

/-! ## The program -/

end Program

namespace Dual.Draft

variable {α : Type} [Scalar α] (D : Draft α) (p : Program α) (choice : SlackChoice)

/-- The variable that stands for a part. -/
def var : Part → Variable α
  | .multiplier c => ⟨⟨c.index⟩, D.cost c, 0, D.membership c⟩
  | .auxiliary c => ⟨⟨c.index⟩, 0, 0, []⟩
  | .reducedCost v =>
    ⟨⟨p.constraints.size + (p.ordinaryVars choice).idxOf v⟩, 0, 0, [p.dualRow choice v]⟩

/-- The constraint of an ordinary variable. -/
def row (v : VarId) : Constraint α :=
  ⟨D.terms v, -p.costOf v, 0⟩

/-- The dual program, as far as the given constraints and variables lead. -/
def programOn (cs : List ConstraintId) (vs : List VarId) : Program α where
  vars := ((p.partsOn choice cs vs).map (D.var p choice)).toArray
  cones := (cs.map (p.multiplierCone choice) ++
    vs.map fun v => Cone.nonneg (p.partVar choice (.reducedCost v))).toArray
  constraints := (vs.map (D.row p)).toArray
  point := Array.replicate (p.partsOn choice cs vs).length 0

/-- The whole dual program. -/
def program : Program α :=
  D.programOn p choice p.constraintIds (p.ordinaryVars choice)

end Dual.Draft

namespace Program

variable {α : Type} [Scalar α] (p : Program α) (choice : SlackChoice)

/-! ## Transposing and rescaling -/

/-- A number divided by a coefficient, if there is one. -/
def dividedBy (k : Option α) (a : α) : α :=
  match k with
  | some k => a / k
  | none => a

/-- The term that constraint `c` contributes to the dual constraint of `v`. -/
def dualTerm? (divisor : ConstraintId → Option α) (v : VarId) (c : ConstraintId) :
    Option (VarId × α) :=
  (p.coefficient? c v).map fun a => (p.partVar choice (.multiplier c), dividedBy (divisor c) a)

/-- The terms of the dual constraint of `v`, when the constraints contribute in the given order. -/
def dualTerms (divisor : ConstraintId → Option α) (cs : List ConstraintId) (v : VarId) :
    List (VarId × α) :=
  (p.partVar choice (.reducedCost v), -1) :: cs.filterMap (p.dualTerm? choice divisor v)

/-- The dual constraints with a term on the multiplier of `c`. -/
def dualMembership (c : ConstraintId) : List ConstraintId :=
  ((p.termsOf c).filter fun t => t.1 ∈ p.ordinaryVars choice).map fun t => p.dualRow choice t.1

/-- The constraints whose multipliers are rescaled, in the order of the given slacks. -/
def rescaledAmong (settings : Settings α) (slacks : List VarId) : List ConstraintId :=
  slacks.filterMap fun v =>
    (p.slackRow? settings.slackChoice v).filter fun c => (p.divisorOf? settings c).isSome

/-- The constraints whose multipliers are rescaled. -/
def rescaledRows (settings : Settings α) : List ConstraintId :=
  p.rescaledAmong settings p.varIds

/-- The draft after transposing the given constraints. -/
def transposedDraft (cs : List ConstraintId) : Dual.Draft α where
  cost := p.rhsOf
  membership c := if c ∈ cs then p.dualMembership choice c else []
  terms v := Terms.ofList (p.dualTerms choice (fun _ => none) cs v)

/-- The order in which constraints contribute once those in `done` were rescaled. -/
def contributionOrder (done : List ConstraintId) : List ConstraintId :=
  p.constraintIds.filter (fun c => c ∉ done) ++ done

/-- The divisors once the constraints in `done` were rescaled. -/
def divisorsAfter (settings : Settings α) (done : List ConstraintId) (c : ConstraintId) :
    Option α :=
  if c ∈ done then p.divisorOf? settings c else none

/-- The draft after rescaling the given constraints. -/
def rescaledDraft (settings : Settings α) (done : List ConstraintId) : Dual.Draft α where
  cost c := dividedBy (p.divisorsAfter settings done c) (p.rhsOf c)
  membership := p.dualMembership settings.slackChoice
  terms v := Terms.ofList
    (p.dualTerms settings.slackChoice (p.divisorsAfter settings done) (p.contributionOrder done) v)

/-! ## The tables -/

/-- The table of the chosen slacks of the given constraints. -/
def slackTable (cs : List ConstraintId) : Array (Option VarId) :=
  (p.varIds.map fun v => (cs.find? fun c => p.slackOf choice c = some v).map fun c =>
    p.partVar choice (.multiplier c)).toArray

/-- The table of the nonnegative multipliers of the given constraints. -/
def signedTable (cs : List ConstraintId) : Array (Option VarId) :=
  (p.constraintIds.map fun c =>
    if c ∈ cs ∧ (p.slackOf choice c).isSome then some (p.partVar choice (.multiplier c))
    else none).toArray

/-- The table of the free multipliers of the given constraints. -/
def freeTable (cs : List ConstraintId) : Array (Option FreeMultiplier) :=
  (p.constraintIds.map fun c =>
    if c ∈ cs ∧ (p.slackOf choice c).isNone then
      some ⟨⟨c.index⟩, p.partVar choice (.multiplier c)⟩
    else none).toArray

/-- The table of the dual constraints of the given variables. -/
def rowTable (vs : List VarId) : Array (Option ConstraintId) :=
  (p.varIds.map fun v => if v ∈ vs then some (p.dualRow choice v) else none).toArray

/-- The dual with the given draft, as far as the given constraints and variables lead. -/
def dualOn (D : Dual.Draft α) (cs : List ConstraintId) (vs : List VarId) (rescaled : Nat) :
    Dual α where
  program := D.programOn p choice cs vs
  reducedCostRows := p.rowTable choice vs
  slackMultipliers := p.slackTable choice cs
  signedMultipliers := p.signedTable choice cs
  freeMultipliers := p.freeTable choice cs
  rescaled

/-- The dual once the multipliers of the constraints in `done` were rescaled. -/
def rescaledDual (settings : Settings α) (done : List ConstraintId) : Dual α :=
  p.dualOn settings.slackChoice (p.rescaledDraft settings done) p.constraintIds
    (p.ordinaryVars settings.slackChoice) done.length

/-- The dual of a program, written down at once. -/
def derivedDual (settings : Settings α) : Dual α :=
  p.rescaledDual settings (p.rescaledRows settings)

/-! ## Handles as positions -/

theorem partsOn_nodup {cs : List ConstraintId} {vs : List VarId} (hcs : cs.Nodup) (hvs : vs.Nodup) :
    (p.partsOn choice cs vs).Nodup := by
  have hparts : ∀ c, ∀ part ∈ p.partsOf choice c,
      part = .multiplier c ∨ part = .auxiliary c := by
    intro c part hpart
    unfold partsOf at hpart
    split at hpart <;> simp_all
  unfold partsOn
  rw [List.nodup_append]
  refine ⟨?_, hvs.map fun v u huv => by cases huv; rfl, ?_⟩
  · rw [List.nodup_flatMap]
    refine ⟨fun c _ => by unfold partsOf; split <;> simp, hcs.imp ?_⟩
    intro c d hcd part hc hd
    rcases hparts c part hc with rfl | rfl <;> rcases hparts d _ hd with he | he <;> cases he <;>
      exact hcd rfl
  · intro part hpart part' hpart' he
    obtain ⟨c, _, hc⟩ := List.mem_flatMap.mp hpart
    obtain ⟨v, _, rfl⟩ := List.mem_map.mp hpart'
    subst he
    rcases hparts c _ hc with he | he <;> cases he

theorem multiplier_mem_partsOn {c : ConstraintId} {cs : List ConstraintId} {vs : List VarId} :
    Dual.Part.multiplier c ∈ p.partsOn choice cs vs ↔ c ∈ cs := by
  have hparts : ∀ d, Dual.Part.multiplier c ∈ p.partsOf choice d ↔ c = d := by
    intro d
    unfold partsOf
    split <;> simp
  simp [partsOn, hparts]

theorem auxiliary_mem_partsOn {c : ConstraintId} {cs : List ConstraintId} {vs : List VarId} :
    Dual.Part.auxiliary c ∈ p.partsOn choice cs vs ↔ c ∈ cs ∧ p.slackOf choice c = none := by
  have hparts : ∀ d, Dual.Part.auxiliary c ∈ p.partsOf choice d ↔
      c = d ∧ p.slackOf choice c = none := by
    intro d
    unfold partsOf
    by_cases hcd : c = d
    · subst hcd
      cases p.slackOf choice c <;> simp
    · split <;> simp [hcd]
  simp [partsOn, hparts]

theorem reducedCost_mem_partsOn {v : VarId} {cs : List ConstraintId} {vs : List VarId} :
    Dual.Part.reducedCost v ∈ p.partsOn choice cs vs ↔ v ∈ vs := by
  have hparts : ∀ d, Dual.Part.reducedCost v ∉ p.partsOf choice d := by
    intro d
    unfold partsOf
    split <;> simp
  simp [partsOn, hparts]

/-- The position of an element of a list without repetition is the length of what precedes it. -/
theorem idxOf_of_split {β : Type} [DecidableEq β] {l pre post : List β} {b : β} (hl : l.Nodup)
    (hsplit : l = pre ++ b :: post) : l.idxOf b = pre.length := by
  subst hsplit
  have hb : b ∉ pre := fun hb => (List.nodup_append.mp hl).2.2 b hb b List.mem_cons_self rfl
  rw [List.idxOf_append_of_notMem hb, List.idxOf_cons_self, Nat.add_zero]

namespace WellFormed

variable {p choice} (h : p.WellFormed)
include h

theorem parts_nodup : (p.parts choice).Nodup :=
  p.partsOn_nodup choice p.constraintIds_nodup h.ordinaryVars_nodup

theorem partVar_of_split {part : Dual.Part} {pre post : List Dual.Part}
    (hsplit : p.parts choice = pre ++ part :: post) : p.partVar choice part = ⟨pre.length⟩ := by
  rw [partVar, idxOf_of_split h.parts_nodup hsplit]

theorem dualRow_of_split {v : VarId} {pre post : List VarId}
    (hsplit : p.ordinaryVars choice = pre ++ v :: post) : p.dualRow choice v = ⟨pre.length⟩ := by
  rw [dualRow, idxOf_of_split h.ordinaryVars_nodup hsplit]

end WellFormed

variable {p choice}

theorem partVar_injective {part part' : Dual.Part} (hpart : part ∈ p.parts choice)
    (he : p.partVar choice part = p.partVar choice part') : part = part' := by
  simp only [partVar, VarId.mk.injEq] at he
  exact (List.idxOf_inj hpart).mp he

theorem dualRow_injective {v u : VarId} (hv : v ∈ p.ordinaryVars choice)
    (he : p.dualRow choice v = p.dualRow choice u) : v = u := by
  simp only [dualRow, ConstraintId.mk.injEq] at he
  exact (List.idxOf_inj hv).mp he

end Program

end Conic
