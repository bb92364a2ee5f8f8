import Conic.Json.Reader
import Conic.Decimal.Shortest

/-!
# Numerals

A numeral is an optional minus sign, digits without a superfluous zero in front, optional decimal
places and an optional power of ten.

* `Numeral.read` — the numeral that begins with a given character.
* `Numeral.index?` — its value as a position, for whole numerals below `2 ^ 64` without a sign.
* `Numeral.toFloat?` — the nearest `Float`; a numeral too large for any has none.
-/

namespace Conic.Json

/-- The number `± digits · 10 ^ power`. -/
structure Numeral where
  negative : Bool
  digits : Nat
  power : Int
  /-- Written without decimal places and power of ten. -/
  whole : Bool
  deriving DecidableEq, Repr

namespace Numeral

open Reader

/-- Can a numeral begin with this character? -/
def starts (c : Char) : Bool :=
  c == '-' || c.isDigit

/-- One digit or more. `atEnd` is the fault of a text that ends before the first digit. -/
def someDigits (atEnd : TextFault) : Reader (List Char) := do
  let digits ← takeWhile Char.isDigit
  if digits.isEmpty then
    match ← peek with
    | none => fail atEnd
    | some _ => malformed
  return digits

/-- The digits before the point, the first of which is `c`. -/
def wholeDigits (c : Char) : Reader (List Char) := do
  let more ← takeWhile Char.isDigit
  if c == '0' && !more.isEmpty then malformed
  return c :: more

/-- The decimal places, if the text goes on with a point. -/
def places (atEnd : TextFault) : Reader (Option (List Char)) := do
  if (← peek) == some '.' then
    let _ ← anyChar
    return some (← someDigits atEnd)
  else
    return none

/-- The power of ten, if the text goes on with the letter for it. -/
def tenPower (atEnd : TextFault) : Reader (Option Int) := do
  let c ← peek
  if c == some 'e' || c == some 'E' then
    let _ ← anyChar
    let sign ← peek
    if sign == some '-' || sign == some '+' then
      let _ ← anyChar
    let size : Nat := Nat.ofDigitChars 10 (← someDigits atEnd) 0
    return some (if sign == some '-' then -size else size)
  else
    return none

/-- The first digit of a numeral that begins with `c`. -/
def firstDigit (atEnd : TextFault) (c : Char) : Reader Char := do
  if c == '-' then
    match ← peek with
    | none => fail atEnd
    | some d =>
      let _ ← anyChar
      if d.isDigit then return d else malformed
  else
    return c

/-- The numeral that begins with `c`, a minus sign or a digit. -/
def read (atEnd : TextFault) (c : Char) : Reader Numeral := do
  let first ← firstDigit atEnd c
  let before ← wholeDigits first
  let after ← places atEnd
  let power ← tenPower atEnd
  let decimals := after.getD []
  return ⟨c == '-', Nat.ofDigitChars 10 (before ++ decimals) 0,
    power.getD 0 - decimals.length, after.isNone && power.isNone⟩

/-- The numeral as a position. -/
def index? (n : Numeral) : Option Nat :=
  if n.whole && !n.negative && n.digits < 0x10000000000000000 then some n.digits else none

/-- The nearest `Float` without its sign. The power of ten is only looked at where it matters: far
below the smallest number the value is zero, far above the largest there is none. -/
def magnitude? (n : Numeral) : Option Float :=
  let lead : Int := Decimal.digitCount n.digits + n.power
  if n.digits = 0 ∨ lead < -400 then some 0.0
  else if 400 < lead then none
  else
    let x := Float.ofScientific n.digits (n.power < 0) n.power.natAbs
    if x.isFinite then some x else none

/-- The nearest `Float`. -/
def toFloat? (n : Numeral) : Option Float :=
  n.magnitude?.map fun x => if n.negative then -x else x

end Numeral

end Conic.Json
