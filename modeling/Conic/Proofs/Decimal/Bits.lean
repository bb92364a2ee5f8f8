import Mathlib
import Conic.Proofs.Decimal.Scientific
import Conic.Proofs.Decimal.Shortest

/-!
# The parts of a number

The printer takes a number apart by dividing its pattern of bits, the reader by cutting the pattern
into fields. Both get the same parts.

* `ofBits?_of_finite`, `ofBits?_of_zero` — sign, mantissa and exponent of a finite number.
* `ofBits?_of_not_isFinite` — infinite and undefined numbers have none.
-/

set_option autoImplicit false

namespace Conic.Decimal

open Float.Model Float.Model.UnpackedFloat Binary64

variable (v : BitVec Format.binary64.numBits)

theorem toNat_unpackMantissa : (unpackMantissa v).toNat = v.toNat % 2 ^ 52 := by
  simp [unpackMantissa]

theorem toNat_unpackExponent : (unpackExponent v).toNat = v.toNat / 2 ^ 52 % 2048 := by
  simp [unpackExponent, Nat.shiftRight_eq_div_pow]

theorem toNat_unpackSign : (unpackSign v).toNat = v.toNat / 2 ^ 63 := by
  have hlt : v.toNat < 2 ^ 64 := v.isLt
  simp [unpackSign, Nat.shiftRight_eq_div_pow]
  omega

theorem sign_eq_negative : (Sign.ofBitVec (unpackSign v) == .negative) =
    (v.toNat / 2 ^ 63 == 1) := by
  have hsign : ∀ s : BitVec 1, (Sign.ofBitVec s == .negative) = (s.toNat == 1) := by decide
  rw [hsign, toNat_unpackSign]

/-- The fields of the pattern. -/
theorem ofBits?_eq : Binary.ofBits? (UInt64.ofBitVec v) =
    if (unpackExponent v).toNat = 2047 then none
    else if (unpackExponent v).toNat = 0 then
      some ⟨Sign.ofBitVec (unpackSign v) == .negative, (unpackMantissa v).toNat, -1074, false⟩
    else
      some ⟨Sign.ofBitVec (unpackSign v) == .negative, 2 ^ 52 + (unpackMantissa v).toNat,
        ((unpackExponent v).toNat : ℤ) - 1075,
        (unpackMantissa v).toNat == 0 && (unpackExponent v).toNat > 1⟩ := by
  rw [sign_eq_negative, toNat_unpackExponent, toNat_unpackMantissa]
  rfl

/-- A pattern is one of an infinite or undefined number, of zero, or of a number with fewer or
with all bits of mantissa. -/
theorem unpack_cases :
    ((unpackExponent v).toNat = 2047 ∧ (unpack .binary64 v).isFinite = false) ∨
    ((unpackExponent v).toNat = 0 ∧ (unpackMantissa v).toNat = 0 ∧
      unpack .binary64 v = .zero (Sign.ofBitVec (unpackSign v))) ∨
    ((unpackExponent v).toNat = 0 ∧ ∃ h : 0 < (unpackMantissa v).toNat, unpack .binary64 v =
      .finite (Sign.ofBitVec (unpackSign v)) (unpackMantissa v).toNat (-1074) h) ∨
    (0 < (unpackExponent v).toNat ∧ (unpackExponent v).toNat < 2047 ∧
      ∃ h : 0 < 2 ^ 52 + (unpackMantissa v).toNat, unpack .binary64 v =
        .finite (Sign.ofBitVec (unpackSign v)) (2 ^ 52 + (unpackMantissa v).toNat)
          ((unpackExponent v).toNat - 1075) h) := by
  have hexponent : ∀ b : BitVec 11, (unpackExponent v = b ↔ (unpackExponent v).toNat = b.toNat) :=
    fun b => BitVec.toNat_inj.symm
  have hlt : (unpackExponent v).toNat < 2048 := (unpackExponent v).isLt
  by_cases hone : unpackExponent v = -1#11
  · refine Or.inl ⟨(hexponent _).mp hone, ?_⟩
    rw [UnpackedFloat.unpack]
    simp only
    rw [if_pos hone]
    split <;> rfl
  have hbelow : (unpackExponent v).toNat < 2047 := by
    have hne : (unpackExponent v).toNat ≠ 2047 := fun h => hone ((hexponent _).mpr h)
    omega
  by_cases hzero : unpackExponent v = 0#11
  · have hexp : (unpackExponent v).toNat = 0 := (hexponent _).mp hzero
    by_cases hm : unpackMantissa v = 0#52
    · refine Or.inr (Or.inl ⟨hexp, by rw [hm]; rfl, ?_⟩)
      rw [UnpackedFloat.unpack]
      simp only
      rw [if_neg hone, if_pos hzero, dif_pos hm]
    · refine Or.inr (Or.inr (Or.inl ⟨hexp, ?_, ?_⟩))
      · exact Nat.pos_of_ne_zero fun h => hm (BitVec.toNat_inj.mp h)
      · rw [UnpackedFloat.unpack]
        simp only
        rw [if_neg hone, if_pos hzero, dif_neg hm, hexp]
        rfl
  · refine Or.inr (Or.inr (Or.inr ⟨?_, hbelow, by positivity, ?_⟩))
    · exact Nat.pos_of_ne_zero fun h => hzero ((hexponent _).mpr h)
    · rw [UnpackedFloat.unpack]
      simp only
      rw [if_neg hone, if_neg hzero, UnpackedFloat.finite.injEq]
      exact ⟨rfl, toNat_implicit _, rfl⟩

variable {v} {s : Sign} {m : ℕ} {e : ℤ} {h : 0 < m}

/-- The parts of a finite number other than zero. -/
theorem ofBits?_of_finite (hu : unpack .binary64 v = .finite s m e h) :
    ∃ b : Binary, Binary.ofBits? (UInt64.ofBitVec v) = some b ∧
      b.negative = (s == .negative) ∧ b.mantissa = m ∧ b.exponent = e ∧ b.Parts := by
  have hlt : (unpackMantissa v).toNat < 2 ^ 52 := (unpackMantissa v).isLt
  rw [ofBits?_eq]
  rcases unpack_cases v with ⟨hexp, hfin⟩ | ⟨hexp, hm, hzero⟩ | ⟨hexp, hm, hfinite⟩ |
    ⟨hpos, hbelow, hm, hfinite⟩
  · rw [hu] at hfin
    cases hfin
  · rw [hu] at hzero
    cases hzero
  · rw [hu] at hfinite
    injection hfinite with hs hm' he
    subst hs hm' he
    rw [if_neg (by omega), if_pos hexp]
    refine ⟨_, rfl, rfl, rfl, rfl, ⟨hm, hlt.trans (by norm_num), le_rfl, by norm_num, Or.inl rfl⟩,
      ?_⟩
    simp
  · rw [hu] at hfinite
    injection hfinite with hs hm' he
    subst hs hm' he
    rw [if_neg (by omega), if_neg (by omega)]
    refine ⟨_, rfl, rfl, rfl, rfl,
      ⟨hm, ?_, ?_, ?_, Or.inr (Nat.le_add_right _ (unpackMantissa v).toNat)⟩, ?_⟩
    · show 2 ^ 52 + (unpackMantissa v).toNat < 2 ^ 53
      omega
    · show (-1074 : ℤ) ≤ (unpackExponent v).toNat - 1075
      omega
    · show ((unpackExponent v).toNat - 1075 : ℤ) ≤ 971
      omega
    · simp only [Bool.and_eq_true, beq_iff_eq, decide_eq_true_eq]
      omega

theorem ofBits?_of_zero (hu : unpack .binary64 v = .zero s) :
    Binary.ofBits? (UInt64.ofBitVec v) = some ⟨s == .negative, 0, -1074, false⟩ := by
  rw [ofBits?_eq]
  rcases unpack_cases v with ⟨hexp, hfin⟩ | ⟨hexp, hm, hzero⟩ | ⟨hexp, hm, hfinite⟩ |
    ⟨hpos, hbelow, hm, hfinite⟩
  · rw [hu] at hfin
    cases hfin
  · rw [hu] at hzero
    injection hzero with hs
    rw [if_neg (by omega), if_pos hexp, hm, hs]
  · rw [hu] at hfinite
    cases hfinite
  · rw [hu] at hfinite
    cases hfinite

theorem ofBits?_of_not_isFinite (hu : (unpack .binary64 v).isFinite = false) :
    Binary.ofBits? (UInt64.ofBitVec v) = none := by
  rw [ofBits?_eq]
  rcases unpack_cases v with ⟨hexp, hfin⟩ | ⟨hexp, hm, hzero⟩ | ⟨hexp, hm, hfinite⟩ |
    ⟨hpos, hbelow, hm, hfinite⟩
  · rw [if_pos hexp]
  · rw [hzero] at hu
    cases hu
  · rw [hfinite] at hu
    cases hu
  · rw [hfinite] at hu
    cases hu

end Conic.Decimal
