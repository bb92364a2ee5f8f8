import Mathlib.Algebra.Order.Ring.Rat
import Mathlib.Tactic.NormNum.Abs
import Conic.Scalar

/-!
# Rational numbers with an undefined one

Exact arithmetic in which a division by zero has no result. What is computed from an undefined
number is undefined, and comparing it fails, so an undefined result tells that somewhere a divisor
was zero.

* `PartialRat` — a rational number or the undefined one; `PartialRat.Defined`.
* `PartialRat.div_defined_iff` — **a quotient is defined unless the divisor is zero.**
-/

set_option autoImplicit false

namespace Conic

/-- A rational number, or the undefined one. -/
inductive PartialRat where
  | undefined
  | of (a : ℚ)
  deriving DecidableEq

namespace PartialRat

/-- The number is an actual one. -/
def Defined : PartialRat → Prop
  | undefined => False
  | of _ => True

instance decidableDefined : DecidablePred Defined
  | undefined => isFalse id
  | of _ => isTrue trivial

/-- An operation on one number. -/
def map (f : ℚ → ℚ) : PartialRat → PartialRat
  | undefined => undefined
  | of a => of (f a)

/-- An operation on two numbers. -/
def combine (f : ℚ → ℚ → ℚ) : PartialRat → PartialRat → PartialRat
  | of a, of b => of (f a b)
  | _, _ => undefined

/-- The quotient of two numbers. -/
def quotient : PartialRat → PartialRat → PartialRat
  | of a, of b => if b = 0 then undefined else of (a / b)
  | _, _ => undefined

/-- A comparison of two numbers. -/
def Compares (r : ℚ → ℚ → Prop) : PartialRat → PartialRat → Prop
  | of a, of b => r a b
  | _, _ => False

instance decidableCompares (r : ℚ → ℚ → Prop) [DecidableRel r] : DecidableRel (Compares r)
  | of a, of b => inferInstanceAs (Decidable (r a b))
  | undefined, _ => isFalse id
  | of _, undefined => isFalse id

instance instScalar : Scalar PartialRat where
  zero := of 0
  one := of 1
  add := combine (· + ·)
  sub := combine (· - ·)
  mul := combine (· * ·)
  div := quotient
  neg := map (- ·)
  beq a b := decide (Compares (· = ·) a b)
  lt := Compares (· < ·)
  le := Compares (· ≤ ·)
  decidableLT := decidableCompares (· < ·)
  decidableLE := decidableCompares (· ≤ ·)
  abs := map (|·|)
  isNaN a := !decide a.Defined
  isFinite a := decide a.Defined

variable {a b : PartialRat}

theorem defined_iff : a.Defined ↔ ∃ q, a = of q := by
  cases a <;> simp [Defined]

theorem of_eq_zero_iff {q : ℚ} : of q = 0 ↔ q = 0 := by
  show of q = of 0 ↔ q = 0
  rw [of.injEq]

theorem beq_zero_iff : (a == 0) = true ↔ a = 0 := by
  cases a with
  | undefined => exact iff_of_false (fun h => by cases h) (fun h => by cases h)
  | of q =>
    show decide (q = 0) = true ↔ of q = 0
    rw [decide_eq_true_iff, of_eq_zero_iff]

theorem defined_zero : (0 : PartialRat).Defined := trivial

theorem defined_neg_one : (-1 : PartialRat).Defined := trivial

@[simp] theorem neg_defined_iff : (-a).Defined ↔ a.Defined := by
  cases a <;> exact Iff.rfl

/-- **A quotient is defined unless the divisor is zero.** -/
theorem div_defined_iff (ha : a.Defined) (hb : b.Defined) : (a / b).Defined ↔ b ≠ 0 := by
  obtain ⟨q, rfl⟩ := defined_iff.mp ha
  obtain ⟨r, rfl⟩ := defined_iff.mp hb
  show (if r = 0 then undefined else of (q / r)).Defined ↔ of r ≠ 0
  rw [Ne, of_eq_zero_iff]
  split <;> simp [Defined, *]

/-- Zero is at a distance of one from one. -/
theorem abs_zero_sub_one_le_iff (hb : b.Defined) :
    Scalar.abs (0 - 1 : PartialRat) ≤ b ↔ ¬b < 1 := by
  obtain ⟨r, rfl⟩ := defined_iff.mp hb
  show |(0 : ℚ) - 1| ≤ r ↔ ¬r < 1
  norm_num

end PartialRat

end Conic
