import Conic.Decimal.Binary

/-!
# The shortest decimal of a floating-point number

Of all decimals that round to the number, those with the fewest digits, and of these the nearest
one. With `n` digits only the two neighbours of the number on the grid of `n`-digit decimals can
qualify, so the grids are tried from coarse to fine.

* `shortest` — digits and power of ten.
-/

namespace Conic.Decimal

/-- Which of two equally near decimals is taken. -/
inductive Tie where
  | toEven
  | upward
  deriving DecidableEq, Repr

/-- The number `digits · 10 ^ exponent`. -/
structure Unsigned where
  digits : Nat
  exponent : Int
  deriving DecidableEq, Repr

/-- A nonnegative fraction. -/
structure Fraction where
  num : Nat
  den : Nat

/-- `n · base ^ power` as a fraction. -/
def Fraction.scaled (n base : Nat) (power : Int) : Fraction :=
  if 0 ≤ power then ⟨n * Nat.pow base power.toNat, 1⟩ else ⟨n, Nat.pow base (-power).toNat⟩

/-- The number of decimal digits of `n`. -/
def digitCount (n : Nat) : Nat :=
  (Nat.toDigits 10 n).length

/-- The power of ten of the leading digit: the greatest `p` with `10 ^ p ≤ x`. -/
def leadingPower (x : Fraction) : Int :=
  let guess : Int := (digitCount x.num : Int) - digitCount x.den
  let unit := Fraction.scaled 1 10 guess
  if unit.num * x.den ≤ x.num * unit.den then guess else guess - 1

/-- Does the decimal round to the number? -/
def roundsTo (b : Binary) (d : Unsigned) : Bool :=
  let x := Fraction.scaled d.digits 10 d.exponent
  let unit := Fraction.scaled 1 2 (b.exponent - 2)
  let point := x.num * unit.den
  let low := b.lower * unit.num * x.den
  let high := b.upper * unit.num * x.den
  if b.closed then low ≤ point && point ≤ high else low < point && point < high

/-- The nearest of the two neighbours of the number on the grid of multiples of `10 ^ exponent`,
among those that round to it. -/
def onGrid? (tie : Tie) (b : Binary) (exponent : Int) : Option Unsigned :=
  let value := Fraction.scaled b.value 2 (b.exponent - 2)
  let unit := Fraction.scaled 1 10 exponent
  let num := value.num * unit.den
  let den := value.den * unit.num
  let below : Unsigned := ⟨num / den, exponent⟩
  let above : Unsigned := ⟨num / den + 1, exponent⟩
  match roundsTo b below, roundsTo b above with
  | true, true =>
    let twice := 2 * (num % den)
    if twice < den then some below
    else if den < twice then some above
    else match tie with
      | .upward => some above
      | .toEven => if below.digits % 2 = 0 then some below else some above
  | true, false => some below
  | false, true => some above
  | false, false => none

/-- The decimal without zeros at its end. -/
def Unsigned.trimmed (d : Unsigned) : Unsigned :=
  let zeros := ((Nat.toDigits 10 d.digits).reverse.takeWhile (· = '0')).length
  if d.digits = 0 then ⟨0, 0⟩ else ⟨d.digits / Nat.pow 10 zeros, d.exponent + zeros⟩

/-- The shortest decimal that rounds to the number, the nearest one of that length. Seventeen
digits are always enough. -/
def shortest (tie : Tie) (b : Binary) : Unsigned :=
  if b.mantissa = 0 then ⟨0, 0⟩
  else
    let lead := leadingPower (Fraction.scaled b.value 2 (b.exponent - 2))
    let grids := (List.range 17).map fun (n : Nat) => lead - n
    ((grids.findSome? (onGrid? tie b)).getD ⟨0, 0⟩).trimmed

end Conic.Decimal
