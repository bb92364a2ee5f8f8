import Conic.Proofs.Dual.Derivation
import Conic.Proofs.Program.Unsolved

/-!
# What the construction of a dual does not read

A solution may be stored in a primal when its dual is derived. The construction looks at cones,
costs, membership lists, terms and right-hand sides, and at nothing else.

* `Program.slack?_unsolved` — which slack is chosen.
* `Dual.addMultiplier_unsolved`, `Dual.addReducedCost_unsolved`, `Dual.transposeRow_unsolved`,
  `Dual.normalizeSlack_unsolved` — the four steps.
* `Program.dual_unsolved` — **the whole construction, with everything it reports.**
* `Dual.writeBack?_unsolved` — writing back changes nothing that the construction reads.
-/

set_option autoImplicit false

namespace Conic

variable {α : Type} [Scalar α]

namespace Program

variable (p : Program α)

@[simp] theorem isSlack?_unsolved (v : VarId) : p.unsolved.isSlack? v = p.isSlack? v := by
  unfold isSlack?
  rw [unsolved_var?]
  cases p.var? v <;> rfl

@[simp] theorem firstSlack?_unsolved (vs : List VarId) :
    p.unsolved.firstSlack? vs = p.firstSlack? vs := by
  induction vs with
  | nil => rfl
  | cons v vs ih => simp only [firstSlack?, isSlack?_unsolved, ih]

@[simp] theorem lastSlack?_unsolved (found : Option VarId) (vs : List VarId) :
    p.unsolved.lastSlack? found vs = p.lastSlack? found vs := by
  induction vs generalizing found with
  | nil => rfl
  | cons v vs ih => simp only [lastSlack?, isSlack?_unsolved, ih]

/-- The chosen slack does not depend on a solution, neither of the program nor of the row. -/
@[simp] theorem slack?_unsolved (choice : SlackChoice) (row : Constraint α) :
    p.unsolved.slack? choice row.unsolved = p.slack? choice row := by
  cases choice with
  | first => exact p.firstSlack?_unsolved row.terms.vars
  | last => exact p.lastSlack?_unsolved none row.terms.vars

end Program

namespace Dual

variable (p : Program α)

omit [Scalar α] in
theorem found_map_bind {β γ δ : Type} (o : Option β) (f : β → γ) (g : γ → Step α δ) :
    (found (o.map f) >>= g) = found o >>= fun b => g (f b) := by
  cases o <;> rfl

@[simp] theorem blank_unsolved : blank p.unsolved = blank p := by
  simp [blank]

@[simp] theorem addMultiplier_unsolved (choice : SlackChoice) :
    addMultiplier p.unsolved choice = addMultiplier p choice := by
  funext d c
  simp only [addMultiplier, Program.unsolved_constraint?, found_map_bind, Program.slack?_unsolved]
  rfl

@[simp] theorem addReducedCost_unsolved : addReducedCost p.unsolved = addReducedCost p := by
  funext d v
  simp only [addReducedCost, Program.unsolved_var?, found_map_bind]
  rfl

@[simp] theorem transposeRow_unsolved : transposeRow p.unsolved = transposeRow p := by
  funext d c
  simp only [transposeRow, Program.unsolved_constraint?, found_map_bind]
  rfl

@[simp] theorem slackCoefficient_unsolved (slack : VarId) :
    slackCoefficient p.unsolved slack = slackCoefficient p slack := by
  unfold slackCoefficient
  rw [Program.unsolved_var?]
  cases p.var? slack with
  | none => rfl
  | some x =>
    simp only [Option.map_some, Variable.unsolved, Program.unsolved_constraint?]
    cases x.constraints.head? with
    | none => rfl
    | some c =>
      dsimp only
      cases p.constraint? c <;> rfl

@[simp] theorem normalizeSlack_unsolved (tolerance : α) :
    normalizeSlack p.unsolved tolerance = normalizeSlack p tolerance := by
  funext d entry
  obtain ⟨y, i⟩ := entry
  cases y with
  | none => rfl
  | some y => simp only [normalizeSlack, slackCoefficient_unsolved]

end Dual

namespace Program

variable {p q : Program α} (settings : Settings α)

/-- **The construction does not read what is stored of a solution.** -/
@[simp] theorem dual_unsolved (p : Program α) : p.unsolved.dual settings = p.dual settings := by
  simp only [dual, unsolved_constraintIds, unsolved_nonnegVars, Dual.blank_unsolved,
    Dual.addMultiplier_unsolved, Dual.addReducedCost_unsolved, Dual.transposeRow_unsolved,
    Dual.normalizeSlack_unsolved]

theorem dual_congr (h : p.unsolved = q.unsolved) : p.dual settings = q.dual settings := by
  rw [← dual_unsolved, h, dual_unsolved]

theorem WellFormed.derivedDual_congr (hp : p.WellFormed) (hq : q.WellFormed)
    (h : p.unsolved = q.unsolved) (settings : Settings α) :
    p.derivedDual settings = q.derivedDual settings := by
  have hresult := congrArg (·.result) (dual_congr settings h)
  rw [hp.dual_result, hq.dual_result] at hresult
  exact Except.ok.inj hresult

end Program

/-! ## Writing back -/

namespace Dual

variable {p q : Program α}

theorem writeColumn?_unsolved {ι : Type} {quantity : ι → Option α} {table : Array (Option ι)}
    (hq : writeColumn? quantity table p = some q) : q.unsolved = p.unsolved := by
  refine view_foldlM Program.unsolved (fun {r t entry} _ ht => ?_) hq
  obtain ⟨e, i⟩ := entry
  cases e with
  | none =>
    cases ht
    rfl
  | some e =>
    obtain ⟨a, _, ht⟩ := Option.bind_eq_some_iff.mp ht
    exact Program.setCoordinate?_unsolved ht

/-- Writing a solution back stores a part of a solution, and nothing else. -/
theorem writeBack?_unsolved (d : Dual α) (hq : d.writeBack? p = some q) :
    q.unsolved = p.unsolved := by
  obtain ⟨r, hr, hq⟩ := Option.bind_eq_some_iff.mp hq
  exact (writeColumn?_unsolved hq).trans (writeColumn?_unsolved hr)

end Dual

end Conic
