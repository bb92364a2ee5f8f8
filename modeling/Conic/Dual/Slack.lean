import Conic.Program.Basic
import Conic.Dual.Settings

/-!
# Slacks

A slack of a constraint is a nonnegative variable that occurs in this constraint alone and costs
nothing. It turns the equation into an inequality, so it fixes the sign of the multiplier.

* `Program.isSlack?` — does a variable qualify?
* `Program.slack?` — the slack that the choice picks among the terms of a constraint.

There is no answer where a variable or a cone that is asked for does not exist. The first slack is
picked without looking further; the last one only after all terms have been looked at.
-/

namespace Conic.Program

variable {α : Type} [Scalar α]

/-- Does the variable occur in one constraint only, cost nothing, and have a nonnegative cone of
its own? -/
def isSlack? (p : Program α) (v : VarId) : Option Bool := do
  let x ← p.var? v
  if x.constraints.length = 1 then
    let cone ← p.cone? x.cone
    return cone.kind = .nonneg && x.cost == 0
  else
    return false

/-- The first slack. -/
def firstSlack? (p : Program α) : List VarId → Option (Option VarId)
  | [] => some none
  | v :: rest => (p.isSlack? v).bind fun slack =>
    if slack then some (some v) else p.firstSlack? rest

/-- The last slack, `found` if there is none. -/
def lastSlack? (p : Program α) (found : Option VarId) : List VarId → Option (Option VarId)
  | [] => some found
  | v :: rest => (p.isSlack? v).bind fun slack =>
    p.lastSlack? (if slack then some v else found) rest

/-- The slack that is picked among the terms of a constraint: `some none` if none qualifies. -/
def slack? (p : Program α) (choice : SlackChoice) (row : Constraint α) : Option (Option VarId) :=
  match choice with
  | .first => p.firstSlack? row.terms.vars
  | .last => p.lastSlack? none row.terms.vars

end Conic.Program
