import Mathlib
import Conic.Scalar

/-!
# What is expected of numbers

Most of this library holds over any `Scalar`. A few laws of arithmetic are needed on top of it, and
floating-point numbers follow them as well.

* `Scalar.Same` — numerically equal, where the undefined number counts as equal to itself.
* `LawfulScalar` — adding to zero changes nothing that can be told by comparing, and a finite number
  is negative or at least zero.
* `Binary64.pack_unpack` — **taking a floating-point number apart and putting it together again
  gives it back**, which is what the first law rests on for `Float`.
-/

set_option autoImplicit false

namespace Conic

/-- Two numbers are numerically equal, or both are undefined. -/
def Scalar.Same {α : Type} [Scalar α] (a b : α) : Prop :=
  (a == b) = true ∨ Scalar.isNaN a = true ∧ Scalar.isNaN b = true

/-- Numbers with the laws that sums from zero and signs rest on. -/
class LawfulScalar (α : Type) [Scalar α] : Prop where
  zero_add : ∀ a : α, Scalar.Same (0 + a) a
  zero_add_neg_one : (0 : α) + -1 = -1
  lt_zero_iff : ∀ {a : α}, Scalar.isFinite a = true → (a < 0 ↔ ¬0 ≤ a)

instance Scalar.lawfulRat : LawfulScalar ℚ where
  zero_add a := Or.inl (beq_iff_eq.mpr (zero_add a))
  zero_add_neg_one := zero_add (-1)
  lt_zero_iff _ := not_le.symm

/-! ## Floating-point numbers

A number of 64 bits is a sign, 11 bits of exponent and 52 bits of mantissa. -/

namespace Binary64

open Float.Model Float.Model.UnpackedFloat

theorem toBitVec_ofBitVec (b : BitVec 1) : (Sign.ofBitVec b).toBitVec = b := by
  revert b
  decide

theorem ofNat_toNat {n : Nat} (b : BitVec n) : BitVec.ofNat n b.toNat = b := by
  rw [BitVec.ofNat_toNat, BitVec.setWidth_eq]

/-- The three parts of a number make it up. -/
theorem packComponents_unpack (b : BitVec Format.binary64.numBits) :
    packComponents .binary64 (Sign.ofBitVec (unpackSign b)) (unpackExponent b) (unpackMantissa b) =
      b := by
  simp only [packComponents, toBitVec_ofBitVec, unpackSign, unpackExponent, unpackMantissa,
    BitVec.extractLsb]
  ext i hi
  grind

/-- A mantissa with its implicit bit. -/
theorem toNat_implicit (m : BitVec 52) : (1#1 ++ m).toNat = 2 ^ 52 + m.toNat := by
  rw [BitVec.toNat_append, ← Nat.shiftLeft_add_eq_or_of_lt m.isLt]
  rfl

theorem log2_implicit (m : BitVec 52) : (1#1 ++ m).toNat.log2 = 52 := by
  have hlt := m.isLt
  rw [Nat.log2_eq_iff (by simp [toNat_implicit]), toNat_implicit]
  omega

theorem log2_mantissa_lt {m : BitVec 52} (hm : m ≠ 0#52) : m.toNat.log2 < 52 := by
  rw [Nat.log2_lt (by simpa [← BitVec.toNat_inj] using hm)]
  exact m.isLt

/-- A normal number is stored with the exponent and the mantissa that it was read from. -/
theorem pack_normal (s : Sign) {e : BitVec 11} (m : BitVec 52) (hone : e ≠ -1#11) (hpos) :
    pack .binary64 (.finite s (1#1 ++ m).toNat (e.toNat - (1023 + 52)) hpos) =
      packComponents .binary64 s e m := by
  have hexponent : ((e.toNat : Int) - (1023 + 52) + Format.binary64.exponentBias +
      Format.binary64.mantissaBitsWithoutImplicit).toNat = e.toNat := by
    show ((e.toNat : Int) - (1023 + 52) + (1023 : Nat) + (52 : Nat)).toNat = e.toNat
    omega
  have hlarge : ¬2 ^ Format.binary64.exponentBits ≤ e.toNat + 1 := by
    have hne : e.toNat ≠ 2 ^ 11 - 1 := fun he => hone (BitVec.toNat_inj.mp he)
    have hlt := e.isLt
    show ¬2 ^ 11 ≤ e.toNat + 1
    omega
  have hmantissa : BitVec.ofNat 52 (1#1 ++ m).toNat = m := by
    rw [← BitVec.toNat_inj, BitVec.toNat_ofNat, toNat_implicit, Nat.add_mod_left,
      Nat.mod_eq_of_lt m.isLt]
  unfold UnpackedFloat.pack
  simp only [hexponent, if_neg hlarge, log2_implicit]
  rw [if_pos (show 52 + 1 = Format.binary64.mantissaBits from rfl)]
  exact congrArg₂ (packComponents .binary64 s) (ofNat_toNat e) hmantissa

/-- A subnormal number is stored with the mantissa that it was read from. -/
theorem pack_subnormal (s : Sign) {m : BitVec 52} (hm : m ≠ 0#52) (hpos) :
    pack .binary64 (.finite s m.toNat (0 - (1023 + 52) + 1) hpos) =
      packComponents .binary64 s 0#11 m := by
  have hexponent : ((0 : Int) - (1023 + 52) + 1 + Format.binary64.exponentBias +
      Format.binary64.mantissaBitsWithoutImplicit).toNat = 1 := rfl
  have hlog : ¬m.toNat.log2 + 1 = Format.binary64.mantissaBits := by
    have hlt := log2_mantissa_lt hm
    show ¬m.toNat.log2 + 1 = 53
    omega
  unfold UnpackedFloat.pack
  simp only [hexponent, if_neg hlog]
  rw [if_neg (by decide)]
  exact congrArg (packComponents .binary64 s 0#11) (ofNat_toNat m)

/-- **A valid pattern of bits is what it is read as, stored again.** -/
theorem pack_unpack_bits {b : BitVec Format.binary64.numBits} (hb : Format.binary64.Valid b) :
    pack .binary64 (unpack .binary64 b) = b := by
  have hparts := packComponents_unpack b
  rw [UnpackedFloat.unpack]
  split
  · rename_i he
    split
    · rename_i hm
      rw [he, hm] at hparts
      exact hparts
    · rename_i hm
      exact (hb.eq_packedNaN he hm).symm
  · rename_i hone
    split
    · rename_i he
      split
      · rename_i hm
        rw [he, hm] at hparts
        exact hparts
      · rename_i hm
        rw [he] at hparts ⊢
        exact (pack_subnormal _ hm _).trans hparts
    · exact (pack_normal _ _ hone _).trans hparts

/-- **Taking a number apart and putting it together again gives it back.** -/
theorem pack_unpack (a : Float.Model) : Float.Model.pack a.unpack = a := by
  obtain ⟨bits, hvalid⟩ := a
  have hbits := pack_unpack_bits hvalid
  unfold Float.Model.pack Float.Model.unpack
  congr 1
  rw [hbits]

/-- A number other than the undefined one is equal to itself. -/
theorem compare_self {u : UnpackedFloat} (hu : u.isNaN = false) : u.compare u = some .eq := by
  cases u with
  | notANumber => cases hu
  | infinity s => cases s <;> rfl
  | zero s => rfl
  | finite s m e hm => cases s <;> simp [UnpackedFloat.compare]

theorem same_self (a : Float) : Scalar.Same a a := by
  cases hnan : a.toModel.unpack.isNaN with
  | true => exact Or.inr ⟨hnan, hnan⟩
  | false =>
    refine Or.inl ?_
    show (a.toModel.unpack.compare a.toModel.unpack == some .eq) = true
    rw [compare_self hnan]
    rfl

/-- Adding to zero changes nothing but the sign of a zero. -/
theorem same_zero_add (a : Float) : Scalar.Same (0 + a) a := by
  have hsum : (0 + a : Float) =
      ⟨Float.Model.pack (add .binary64 (.zero .positive) a.toModel.unpack)⟩ := rfl
  cases hu : a.toModel.unpack with
  | zero s =>
    refine Or.inl ?_
    show (UnpackedFloat.compare (0 + a : Float).toModel.unpack a.toModel.unpack == some .eq) = true
    rw [hsum, hu]
    cases s <;> rfl
  | notANumber | infinity | finite =>
    have hadd : add .binary64 (.zero .positive) a.toModel.unpack = a.toModel.unpack := by
      rw [hu]
      rfl
    rw [hsum, hadd, pack_unpack]
    exact same_self a

/-- A finite number is negative exactly when it is not at least zero. -/
theorem lt_zero_iff {a : Float} (hfinite : a.isFinite = true) : a < 0 ↔ ¬0 ≤ a := by
  have hlt : a < 0 ↔ (a.toModel.unpack.compare (.zero .positive) == some .lt) = true :=
    decide_eq_true_iff
  have hle : 0 ≤ a ↔
      ((UnpackedFloat.zero .positive).compare a.toModel.unpack).any (·.isLE) = true :=
    decide_eq_true_iff
  have hu : a.toModel.unpack.isFinite = true := hfinite
  rw [hlt, hle]
  revert hu
  cases a.toModel.unpack with
  | notANumber | infinity => exact fun hu => by cases hu
  | zero s => exact fun _ => by cases s <;> decide
  | finite s m e hm => exact fun _ => by cases s <;> simp [UnpackedFloat.compare]

end Binary64

instance Scalar.lawfulFloat : LawfulScalar Float where
  zero_add := Binary64.same_zero_add
  zero_add_neg_one := rfl
  lt_zero_iff := Binary64.lt_zero_iff

end Conic
