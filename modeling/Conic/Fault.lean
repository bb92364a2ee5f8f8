/-!
# Failing computations

An operation on a program can fail in two ways, and callers tell them apart.

* `Fault.outOfRange` — a handle or position does not exist, or nothing can have the size that is
  asked for. The operation has no answer, and nothing can be said about what it was applied to.
* `Fault.refused` — the operation is declined for a stated cause, and its subject is as before.
* `maxLength` — the greatest size that a list can have.
-/

namespace Conic

/-- Why a computation has no answer. -/
inductive Fault (ε : Type) where
  | outOfRange
  | refused (cause : ε)
  deriving DecidableEq, Repr

/-- The greatest number of handles or positions that one list can hold: they take eight bytes each,
and all of them together less than `2 ^ 63`. -/
def maxLength : Nat := 0xFFFFFFFFFFFFFFF

/-- The fault with its cause restated. -/
def Fault.map {ε δ : Type} (f : ε → δ) : Fault ε → Fault δ
  | .outOfRange => .outOfRange
  | .refused cause => .refused (f cause)

@[simp] theorem Fault.map_refused {ε δ : Type} (f : ε → δ) (cause : ε) :
    (refused cause).map f = refused (f cause) := rfl

@[simp] theorem Fault.map_outOfRange {ε δ : Type} (f : ε → δ) : outOfRange.map f = outOfRange := rfl

theorem Fault.map_map {ε δ η : Type} (f : ε → δ) (g : δ → η) (fault : Fault ε) :
    (fault.map f).map g = fault.map fun cause => g (f cause) := by
  cases fault <;> rfl

/-- An answer, or the reason why there is none. -/
abbrev Checked (ε α : Type) : Type := Except (Fault ε) α

namespace Checked

variable {ε α : Type}

/-- A look-up that must succeed. -/
def found : Option α → Checked ε α
  | some a => .ok a
  | none => .error .outOfRange

/-- An operation that is declined for a cause, or else succeeds. -/
def accepted : Except ε α → Checked ε α
  | .ok a => .ok a
  | .error cause => .error (.refused cause)

@[simp] theorem found_some (a : α) : (found (some a) : Checked ε α) = .ok a := rfl

@[simp] theorem found_none : (found none : Checked ε α) = .error .outOfRange := rfl

@[simp] theorem accepted_ok (a : α) : (accepted (.ok a) : Checked ε α) = .ok a := rfl

@[simp] theorem accepted_error (cause : ε) :
    (accepted (.error cause) : Checked ε α) = .error (.refused cause) := rfl

@[simp] theorem ok_bind {β : Type} (a : α) (f : α → Except ε β) : (Except.ok a >>= f) = f a := rfl

@[simp] theorem error_bind {β : Type} (e : ε) (f : α → Except ε β) :
    (Except.error e >>= f) = .error e := rfl

@[simp] theorem map_ok {β : Type} (a : α) (f : α → β) :
    (f <$> (Except.ok a : Except ε α)) = .ok (f a) := rfl

@[simp] theorem map_error {β : Type} (e : ε) (f : α → β) :
    (f <$> (Except.error e : Except ε α)) = .error e := rfl

end Checked

end Conic
