import Conic.Json.Codec
import Conic.Program.Consistency

/-!
# Programs and matrices as text

* `SparseMatrix.codec`, `Program.codec` — the formats.
* `Program.save`, `Program.load` — a program as the text of a file and back; a file whose records
  contradict each other is refused.
* `Program.loadBytes` — the same from bytes, which have to be a text first.

In a list of terms a variable may be repeated: it keeps its first place and its last coefficient.
-/

namespace Conic

open Json

/-- A position is written as its number. -/
def VarId.codec : Codec VarId := Codec.index.map VarId.mk VarId.index

/-- A position is written as its number. -/
def ConeId.codec : Codec ConeId := Codec.index.map ConeId.mk ConeId.index

/-- A position is written as its number. -/
def ConstraintId.codec : Codec ConstraintId := Codec.index.map ConstraintId.mk ConstraintId.index

variable {α : Type}

/-- The members of a matrix. -/
def SparseMatrix.codec (number : Codec α) : Codec (SparseMatrix α) :=
  (Codec.record <|
    .field "m" .index none <|
    .field "n" .index none <|
    .field "colptr" (.list .index) none <|
    .field "rowval" (.list .index) none <|
    .field "nzval" (.list number) none .done).map
    (fun (m, n, starts, rows, values, ()) => ⟨m, n, starts.toArray, rows.toArray, values.toArray⟩)
    (fun A => (A.rows, A.cols, A.colStart.toList, A.rowIndex.toList, A.value.toList, ()))

/-- A cone is an object that names its kind and holds its members. -/
def Cone.codec : Codec Cone :=
  let single := (Codec.record (.field "variable" VarId.codec none .done)).map
    (fun (v, ()) => v) (fun v => (v, ()))
  let many := (Codec.record (.field "variables" (.list VarId.codec) none .done)).map
    (fun (vs, ()) => vs) (fun vs => (vs, ()))
  { write := fun
      | .nonneg v => Codec.writeTagged "NonnegativeOrthant" (single.write v)
      | .secondOrder vs => Codec.writeTagged "SecondOrder" (many.write vs)
    read := Codec.tagged
      (fun name =>
        if name = "NonnegativeOrthant" then some (single.read >>= fun v => pure (.nonneg v))
        else if name = "SecondOrder" then some (many.read >>= fun vs => pure (.secondOrder vs))
        else none)
      (fun _ => none) }

/-- The members of a variable. -/
def Variable.codec (number : Codec α) : Codec (Variable α) :=
  (Codec.record <|
    .field "cone" ConeId.codec none <|
    .field "objective_coefficient" number none <|
    .field "dual_value" number none <|
    .field "constraints" (.list ConstraintId.codec) none .done).map
    (fun (cone, cost, reducedCost, constraints, ()) => ⟨cone, cost, reducedCost, constraints⟩)
    (fun x => (x.cone, x.cost, x.reducedCost, x.constraints, ()))

/-- Terms are pairs of a variable and its coefficient. -/
def Terms.codec (number : Codec α) : Codec (Terms α) :=
  (Codec.list (.pair VarId.codec number)).map Terms.ofList Terms.toList

/-- The members of a constraint. -/
def Constraint.codec (number : Codec α) : Codec (Constraint α) :=
  (Codec.record <|
    .field "terms" (Terms.codec number) none <|
    .field "constrained_value" number none <|
    .field "lagrange" number none .done).map
    (fun (terms, rhs, multiplier, ()) => ⟨terms, rhs, multiplier⟩)
    (fun row => (row.terms, row.rhs, row.multiplier, ()))

namespace Program

/-- The members of a program. -/
def codec (number : Codec α) : Codec (Program α) :=
  (Codec.record <|
    .field "variables" (.list (Variable.codec number)) none <|
    .field "cones" (.list Cone.codec) none <|
    .field "constraints" (.list (Constraint.codec number)) none <|
    .field "x" (.list number) none .done).map
    (fun (vars, cones, constraints, point, ()) =>
      ⟨vars.toArray, cones.toArray, constraints.toArray, point.toArray⟩)
    (fun p => (p.vars.toList, p.cones.toList, p.constraints.toList, p.point.toList, ()))

/-- Why a file is not a program. -/
inductive LoadError where
  /-- The file is not the text of a program. -/
  | text (fault : TextFault)
  /-- The records of the program contradict each other. -/
  | inconsistent (error : Error)
  deriving DecidableEq, Repr

/-- The text of a program. -/
def save (number : Codec α) (p : Program α) : String :=
  (codec number).toText p

/-- The program that a text holds, refused when its records contradict each other. -/
def load (number : Codec α) (text : String) : Except LoadError (Program α) :=
  match (codec number).ofText text with
  | .error fault => .error (.text fault)
  | .ok p =>
    match p.inconsistency? with
    | some error => .error (.inconsistent error)
    | none => .ok p

/-- The program that a file holds. -/
def loadBytes (number : Codec α) (bytes : ByteArray) : Except LoadError (Program α) :=
  match String.fromUTF8? bytes with
  | none => .error (.text .malformed)
  | some text => load number text

end Program

end Conic
