import Conic.Program.Consistency

/-!
# Consistency in one pass

The check goes through the records once, reads entries by position and counts: terms are tallied by
variable, and a membership list is sorted so that what it repeats stands side by side. A position
that does not exist would be out of range.

* `Program.tally` — in how many constraints each variable occurs.
* `withoutRepeats` — a list without the entries that repeat the one before.
* `Program.scan` — the pass.
-/

namespace Conic

/-- The list that begins with `last`, without the entries that repeat the one before. -/
def withoutRepeatsFrom {β : Type} [DecidableEq β] (last : β) : List β → List β
  | [] => [last]
  | b :: rest =>
    if b = last then withoutRepeatsFrom last rest else last :: withoutRepeatsFrom b rest

/-- The list without the entries that repeat the one before. -/
def withoutRepeats {β : Type} [DecidableEq β] : List β → List β
  | [] => []
  | b :: rest => withoutRepeatsFrom b rest

/-- The constraints in the order of their positions. -/
def sortedHandles (l : List ConstraintId) : List ConstraintId :=
  l.mergeSort fun c d => c.index ≤ d.index

namespace Program

variable {α : Type}

/-- The entry at a position, which must exist. -/
def entryAt {β : Type} (xs : Array β) (i : Nat) : Checked Error β :=
  Checked.found xs[i]?

/-- Declines for the given cause, if there is one. -/
def declined : Option Error → Checked Error Unit
  | some cause => .error (.refused cause)
  | none => .ok ()

/-- Variable `v` exists, in which case it is read, and says that cone `k` owns it. -/
def scanOwner (p : Program α) (k : ConeId) (v : VarId) : Checked Error Bool :=
  if v.index < p.vars.size then do
    let x ← entryAt p.vars v.index
    return x.cone = k
  else return false

/-- One cone. Its members are looked at up to the first one that it does not own. -/
def scanCone (p : Program α) (k : ConeId) (cone : Cone) : Checked Error Unit := do
  if cone.kind = .secondOrder ∧ cone.dim < 2 then declined (some (.coneDimension cone.dim))
  else if ← cone.members.allM (p.scanOwner k) then return
  else declined (some (.inconsistentCone k))

/-- The tally with one more occurrence of `v`, which must exist. -/
def tallyVar (counts : Array Nat) (v : VarId) : Checked Error (Array Nat) :=
  match counts[v.index]? with
  | some _ => .ok (counts.modify v.index (· + 1))
  | none => .error (.refused (.inconsistentVariable v))

/-- For each variable, the number of constraints with a term on it. -/
def tally (p : Program α) : Checked Error (Array Nat) :=
  p.constraints.toList.foldlM (fun counts row => row.terms.vars.foldlM tallyVar counts)
    (Array.replicate p.vars.size 0)

/-- The membership list `recorded` of `v` names every constraint with a term on it, each once, and
no other. The tally is only read when the list repeats nothing. -/
def scanRecorded (p : Program α) (counts : Array Nat) (v : VarId) (recorded : List ConstraintId) :
    Checked Error Bool :=
  let names := withoutRepeats (sortedHandles recorded)
  if names.length = recorded.length then do
    let count ← entryAt counts v.index
    return names.length = count ∧ names.all (p.occursIn v)
  else return false

/-- One variable. -/
def scanVariable (p : Program α) (counts : Array Nat) (v : VarId) (x : Variable α) :
    Checked Error Unit := do
  let listed := (p.cone? x.cone).any fun cone => cone.members.contains v
  let recorded ← p.scanRecorded counts v x.constraints
  if listed && recorded then return else declined (some (.inconsistentVariable v))

/-- Declines a program whose records contradict each other: the point, the cones, the terms and the
variables, in this order. -/
def scan (p : Program α) : Checked Error Unit := do
  declined p.pointFault?
  p.cones.toList.zipIdx.forM fun (cone, k) => p.scanCone ⟨k⟩ cone
  let counts ← p.tally
  p.vars.toList.zipIdx.forM fun (x, i) => p.scanVariable counts ⟨i⟩ x

end Program

end Conic
