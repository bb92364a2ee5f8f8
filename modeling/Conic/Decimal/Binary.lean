/-!
# The exact value of a floating-point number

A finite `Float` is `± mantissa · 2 ^ exponent`. The numbers that round to it form an interval
around it, half as wide below a power of two as above.

* `Binary.ofBits?` — sign, mantissa and exponent of a 64-bit pattern, `none` for infinities and
  undefined numbers.
* `Binary.value`, `Binary.lower`, `Binary.upper` — the number without its sign and the ends of its
  interval, all in quarters of the last place.
-/

namespace Conic.Decimal

/-- The number `± mantissa · 2 ^ exponent`. -/
structure Binary where
  negative : Bool
  mantissa : Nat
  exponent : Int
  /-- The next smaller number is nearer than the next larger one. -/
  narrowBelow : Bool
  deriving DecidableEq, Repr

namespace Binary

/-- The leading bit of a mantissa, which is not stored: two to the fifty-second. -/
def hiddenBit : Nat := 0x10000000000000

/-- Reads a bit pattern: one sign bit, eleven of exponent, fifty-two of fraction. -/
def ofBits? (bits : UInt64) : Option Binary :=
  let n := bits.toNat
  let negative := n / 0x8000000000000000 == 1
  let power : Nat := n / hiddenBit % 2048
  let fraction : Nat := n % hiddenBit
  if power = 2047 then none
  else if power = 0 then some ⟨negative, fraction, -1074, false⟩
  else some ⟨negative, hiddenBit + fraction, (power : Int) - 1075, fraction == 0 && power > 1⟩

/-- The number without its sign, in quarters of the last place. -/
def value (b : Binary) : Nat := 4 * b.mantissa

/-- The lower end of the interval that rounds to the number, in quarters of the last place. -/
def lower (b : Binary) : Nat := if b.narrowBelow then 4 * b.mantissa - 1 else 4 * b.mantissa - 2

/-- The upper end of the interval that rounds to the number, in quarters of the last place. -/
def upper (b : Binary) : Nat := 4 * b.mantissa + 2

/-- The ends belong to the interval when the mantissa is even. -/
def closed (b : Binary) : Bool := b.mantissa % 2 == 0

end Binary

end Conic.Decimal
