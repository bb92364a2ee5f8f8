import Conic.Exchange.Basic
import Conic.Program.Change

/-!
# Runs of an exchange

* `Exchange.Call`, `Exchange.call` — everything that can be asked of an exchange, and what it comes
  to.
* `Exchange.InPlace`, `InPlace.perform` — the same calls write after write, where nothing takes back
  what was written before a call is declined.
* `Session` — an exchange together with a record of its past that the exchange itself does not keep.
* `Session.step`, `Session.run` — calls one after the other; a call that is declined is passed over.
-/

namespace Conic

namespace Exchange

/-- What can be asked of an exchange. -/
inductive Call (α : Type) where
  | checkOut (elapsed : Nat)
  | checkIn
  /-- Borrow a dual, change it, and then return it or let it go. -/
  | borrow (elapsed : Nat) (changes : List (Change α)) (returned : Bool)
  | changePrimal (change : Change α)
  | changeDual (change : Change α)
  | configure (settings : Settings α)

/-- Why a call is declined: by the exchange, or by the program that it would change. -/
inductive Refusal where
  | exchange (error : Error)
  | program (error : Program.Error)
  deriving DecidableEq, Repr

variable {α : Type}

/-- The exchange after a change of one of its programs. -/
def changed (result : Except Error (Except (Fault Program.Error) (Exchange α × Unit))) :
    Checked Refusal (Exchange α) := do
  let result ← Checked.accepted (result.mapError .exchange)
  (result.mapError (Fault.map .program)).map Prod.fst

/-- The exchange after a call. -/
def call [Scalar α] (x : Exchange α) : Call α → Checked Refusal (Exchange α)
  | .checkOut elapsed => (x.checkOut elapsed).result.mapError (Fault.map .exchange)
  | .checkIn => x.checkIn.result.mapError (Fault.map .exchange)
  | .borrow elapsed changes returned => do
    let b ← (x.borrow elapsed).result.mapError (Fault.map .exchange)
    let (b, ()) ← b.edit fun p => (Checked.found (p.changeAll changes)).map (·, ())
    if returned then b.checkIn.result.mapError (Fault.map .exchange) else return b.owner
  | .changePrimal change => changed (x.editPrimal fun p => (p.change change).map (·, ()))
  | .changeDual change => changed (x.editDual fun p => (p.change change).map (·, ()))
  | .configure settings => .ok { x with settings }

/-! ## Calls in place -/

/-- A computation that changes an exchange in place. What it has written stays when it fails. -/
abbrev InPlace (α β : Type) : Type := EStateM (Fault Refusal) (Exchange α) β

namespace InPlace

/-- Something that is computed without a write. -/
def answer {β : Type} (r : Checked Refusal β) : InPlace α β := fun x =>
  match r with
  | .ok b => .ok b x
  | .error fault => .error fault x

/-- Something that the exchange may decline, without a write. -/
def ask {β : Type} (r : Except Error β) : InPlace α β :=
  answer (Checked.accepted (r.mapError .exchange))

/-- Derives the dual of the primal; the count and the summary are written at the end. -/
def derive [Scalar α] (elapsed : Nat) : InPlace α (Dual α) := do
  let x ← get
  ask (checkSettings x.settings)
  if x.settings.checkCones then
    ask (checkCones x.primal)
  let dual ← answer
    ((x.primal.dual x.settings).result.mapError (Fault.map fun error => .exchange (.program error)))
  modify fun x => { x with summary := x.summary.afterCheckout dual elapsed }
  if x.settings.verbose then
    modify fun x => { x with target := (x.target.print (x.summary.lines x.primal)).target }
  return dual

/-- Writes the solution of a dual into the primal. -/
def settle (dual : Dual α) : InPlace α Unit := do
  let primal ← answer (Checked.found (dual.writeBack? (← get).primal))
  modify fun x => { x with primal }
  modify fun x => { x with summary := x.summary.afterCheckin }

/-- One call. -/
def perform [Scalar α] : Call α → InPlace α Unit
  | .checkOut elapsed => do
    ask (← get).verifyCheckedIn
    let dual ← derive elapsed
    modify fun x => { x with state := .checkedOut dual }
  | .checkIn => do
    let dual ← ask (← get).dual
    modify fun x => { x with state := .checkedIn }
    settle dual
  | .borrow elapsed changes returned => do
    ask (← get).verifyCheckedIn
    let dual ← derive elapsed
    let program ← answer (Checked.found (dual.program.changeAll changes))
    if returned then
      settle { dual with program }
  | .changePrimal change => do
    ask (← get).verifyCheckedIn
    let primal ← answer (((← get).primal.change change).mapError (Fault.map .program))
    modify fun x => { x with primal }
  | .changeDual change => do
    let dual ← ask (← get).dual
    let program ← answer ((dual.program.change change).mapError (Fault.map .program))
    modify fun x => { x with state := .checkedOut { dual with program } }
  | .configure settings => modify fun x => { x with settings }

end InPlace

end Exchange

/-- An exchange and what happened to it so far. -/
structure Session (α : Type) where
  exchange : Exchange α
  /-- How many duals were derived, to be checked out or to be borrowed. -/
  derived : Nat
  /-- How many borrowed duals were not returned. -/
  dropped : Nat
  /-- The primal as it was when a dual was last checked out. -/
  taken : Option (Program α)

namespace Session

variable {α : Type}

/-- Nothing has happened yet. -/
def start (x : Exchange α) : Session α :=
  ⟨x, 0, 0, none⟩

/-- The record after a call that was not declined and led to `x`. -/
def after (s : Session α) (x : Exchange α) : Exchange.Call α → Session α
  | .checkOut _ =>
    { s with exchange := x, derived := s.derived + 1, taken := some s.exchange.primal }
  | .borrow _ _ returned =>
    { s with
      exchange := x
      derived := s.derived + 1
      dropped := if returned then s.dropped else s.dropped + 1 }
  | _ => { s with exchange := x }

variable [Scalar α]

/-- One call, and the cause if it was declined. Nothing is left of a call that was out of range. -/
def step (s : Session α) (c : Exchange.Call α) : Option (Session α × Option Exchange.Refusal) :=
  match (Exchange.InPlace.perform c).run s.exchange with
  | .ok () x => some (s.after x c, none)
  | .error (.refused cause) x => some ({ s with exchange := x }, some cause)
  | .error .outOfRange _ => none

/-- Several calls. -/
def run (s : Session α) (calls : List (Exchange.Call α)) : Option (Session α) :=
  calls.foldlM (fun s c => (s.step c).map Prod.fst) s

end Session

end Conic
