import Conic.Json.Numeral
import Conic.Json.Quoted

/-!
# Values that are not wanted

* `refuse` — the value that begins with a given character is of the wrong kind. A word, a numeral or
  a quoted text is still read to its end, so a text that stops inside it is truncated.
* `skipValue` — passes over one value of any kind, however deeply nested.
-/

namespace Conic.Json

open Reader

variable {α : Type}

/-- The rest of the three words that are values. -/
def wordRest? : Char → Option (List Char)
  | 'n' => some ['u', 'l', 'l']
  | 't' => some ['r', 'u', 'e']
  | 'f' => some ['a', 'l', 's', 'e']
  | _ => none

/-- Refuses the value that begins with `c`. -/
def refuse (c : Char) : Reader α := do
  match wordRest? c with
  | some rest => expect rest
  | none =>
    if Numeral.starts c then
      let _ ← Numeral.read .truncated c
    else if c == '"' then
      let _ ← Quoted.body
  malformed

/-- A list or an object that has been opened. -/
inductive Bracket where
  | square
  | curly
  deriving DecidableEq, Repr

/-- The mark that closes it. -/
def Bracket.closing : Bracket → Char
  | .square => ']'
  | .curly => '}'

/-- What passing over one item came to. -/
inductive Progress where
  | passed
  | opened (b : Bracket)
  | closed

/-- Passes over the value that begins with `c`, or opens it. -/
def skipFrom (c : Char) : Reader Progress := do
  match wordRest? c with
  | some rest =>
    expect rest
    return .passed
  | none =>
    if Numeral.starts c then
      let _ ← Numeral.read .malformed c
      return .passed
    else if c == '"' then
      let _ ← Quoted.skip
      return .passed
    else if c == '[' then return .opened .square
    else if c == '\x7b' then return .opened .curly
    else malformed

/-- Passes over one item inside an open bracket, the first character of which is `c`. -/
def skipItemFrom (b : Bracket) (c : Char) : Reader Progress := do
  match b with
  | .square => skipFrom c
  | .curly =>
    if c == '"' then
      let _ ← Quoted.skip
      mark ':'
      skipFrom (← token)
    else malformed

/-- Passes over the next item inside an open bracket, or closes it. `fresh` says that no item has
been seen yet. -/
def skipItem (b : Bracket) (fresh : Bool) : Reader Progress := do
  let c ← token
  if c == b.closing then return .closed
  else if fresh then skipItemFrom b c
  else if c == ',' then skipItemFrom b (← token)
  else malformed

/-- What is open: the innermost bracket, the ones around it, and whether it is fresh. -/
abbrev Nesting : Type := Bracket × List Bracket × Bool

/-- One item further. -/
def skipStep (nesting : Nesting) : Reader (Nesting ⊕ Unit) :=
  skipItem nesting.1 nesting.2.2 >>= fun progress =>
    match progress, nesting with
    | .passed, (b, outer, _) => pure (.inl (b, outer, false))
    | .opened inner, (b, outer, _) => pure (.inl (inner, b :: outer, true))
    | .closed, (_, [], _) => pure (.inr ())
    | .closed, (_, b :: outer, _) => pure (.inl (b, outer, false))

theorem skipStep_consumes (nesting : Nesting) : (skipStep nesting).Consumes :=
  Consumes.bind (Consumes.bind token_consumes _) _

/-- Passes over one value. -/
def skipValue : Reader Unit := do
  match ← skipFrom (← token) with
  | .opened b => iterate skipStep skipStep_consumes (b, [], true)
  | _ => pure ()

end Conic.Json
