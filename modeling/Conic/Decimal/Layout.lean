import Conic.Decimal.Shortest

/-!
# Writing numbers as text

A `Layout` states how the digits of a number are laid out: which powers of ten are written with
all their zeros, whether a point is always shown, and which of two equally near decimals is taken.
Everything else is common: an exponent follows a single leading digit and carries its sign.

* `Layout.text?` — the text of a finite `Float`, `none` for infinities and undefined numbers.
* `scientific` — a nonnegative fraction with a fixed number of places and an exponent.
-/

namespace Conic.Decimal

/-- How a decimal is laid out. -/
structure Layout where
  /-- Of two shortest decimals that are equally near, the one to take. -/
  tie : Tie
  /-- Powers of ten of the leading digit that are written without an exponent. -/
  positional : Int → Bool
  /-- Whole numbers end in a point and a zero. -/
  keepsPoint : Bool

/-- The digits of `n` in base ten. -/
def digitsOf (n : Nat) : List Char :=
  Nat.toDigits 10 n

/-- A run of zeros. -/
def zeros (n : Nat) : List Char :=
  List.replicate n '0'

/-- A power of ten with its sign. -/
def signedPower (p : Int) : List Char :=
  (if p < 0 then '-' else '+') :: digitsOf p.natAbs

/-- Digits with all their zeros and, where needed or kept, a point. -/
def positionalText (keepsPoint : Bool) (digits : List Char) (exponent : Int) : List Char :=
  if 0 ≤ exponent then
    digits ++ zeros exponent.toNat ++ if keepsPoint then ['.', '0'] else []
  else
    let places := (-exponent).toNat
    if places < digits.length then
      digits.take (digits.length - places) ++ '.' :: digits.drop (digits.length - places)
    else
      '0' :: '.' :: zeros (places - digits.length) ++ digits

/-- One leading digit, the other digits after a point, and the power of ten. -/
def exponentText (digits : List Char) (power : Int) : List Char :=
  match digits with
  | [] => []
  | [d] => d :: 'e' :: signedPower power
  | d :: rest => d :: '.' :: rest ++ 'e' :: signedPower power

/-- The text of a decimal. -/
def Layout.lay (l : Layout) (d : Unsigned) : List Char :=
  let digits := digitsOf d.digits
  let power := d.exponent + digits.length - 1
  if l.positional power then positionalText l.keepsPoint digits d.exponent
  else exponentText digits power

/-- The shortest text that reads back as this finite number. -/
def Layout.text? (l : Layout) (x : Float) : Option (List Char) :=
  (Binary.ofBits? x.toBits).map fun b =>
    let digits := l.lay (shortest l.tie b)
    if b.negative then '-' :: digits else digits

/-- The nearest whole number to `num / den`, halves going to the even neighbour. -/
def roundHalfEven (num den : Nat) : Nat :=
  let floor := num / den
  let twice := 2 * (num % den)
  if twice < den ∨ (twice = den ∧ floor % 2 = 0) then floor else floor + 1

/-- A fraction as one digit, `places` more digits after a point, and a power of ten whose plus
sign is left out. -/
def scientific (places : Nat) (x : Fraction) : List Char :=
  let power := if x.num = 0 then 0 else leadingPower x
  let unit := Fraction.scaled 1 10 (power - places)
  let rounded := roundHalfEven (x.num * unit.den) (x.den * unit.num)
  let carried := digitCount rounded > places + 1
  let digits := digitsOf (if carried then rounded / 10 else rounded)
  let power := if carried then power + 1 else power
  let padded := zeros (places + 1 - digits.length) ++ digits
  padded.take 1 ++ '.' :: padded.drop 1 ++ 'e' :: (toString power).toList

end Conic.Decimal
