import Conic.Program.Edit
import Conic.Program.StandardForm

/-!
# Changes one after the other

* `Checked.outcome` — what a computation leaves behind: a declined one leaves things as they were.
* `Change`, `Program.change` — everything that changes a program: an operation on its records, or a
  solution of a standard form that is stored in it.
* `Program.changeAll` — several changes.
-/

namespace Conic

/-- The result of a computation, or what was there before it and the cause for which it was
declined. Nothing is left of a computation that was out of range. -/
def Checked.outcome {ε β : Type} (before : β) : Checked ε β → Option (β × Option ε)
  | .ok b => some (b, none)
  | .error (.refused cause) => some (before, some cause)
  | .error .outOfRange => none

/-- Something that changes a program. -/
inductive Change (α : Type) where
  | edit (edit : Edit α)
  | store (form : StandardForm α) (x z : List α)

namespace Program

variable {α : Type} [Scalar α]

/-- The program after a change. -/
def change (p : Program α) : Change α → Checked Error (Program α)
  | .edit edit => p.edit edit
  | .store form x z => form.apply p x z

/-- The program after several changes. Those that are declined are passed over. -/
def changeAll (p : Program α) (changes : List (Change α)) : Option (Program α) :=
  changes.foldlM (fun p c => ((p.change c).outcome p).map Prod.fst) p

end Program

end Conic
