import Mathlib
import Conic.Proofs.Decimal.Rounding

/-!
# From decimals to floating-point numbers

The floating-point number for `digits · 10 ^ power` is a product or a quotient: of two numbers that
are held exactly when both are small, and of whole numbers otherwise. Each is rounded once, so the
way does not matter.

* `mul_eq`, `div_eq` — a product and a quotient are rounded to the nearest number.
* `unpack_pack` — a stored number is read as it was stored.
* `ofScientific_eq` — **a decimal is read as the floating-point number whose interval it is in.**
-/

set_option autoImplicit false

namespace Conic.Binary64

open Float.Model Float.Model.UnpackedFloat

variable {m : ℕ} {e : ℤ} {x : ℚ}

/-- A number is nearest to itself. -/
theorem Nearest.self (m : ℕ) (e : ℤ) : Nearest m e (m * 2 ^ e) := by
  have hpos : (0 : ℚ) < 2 ^ e := by positivity
  constructor
  · exact mul_le_mul_of_nonneg_right (by linarith) hpos.le
  · exact mul_le_mul_of_nonneg_right (by linarith) hpos.le
  · exact fun _ => ⟨mul_lt_mul_of_pos_right (by linarith) hpos,
      mul_lt_mul_of_pos_right (by linarith) hpos⟩
  · exact fun _ _ => mul_le_mul_of_nonneg_right (by linarith) hpos.le

/-! ## Products and quotients -/

/-- A product is rounded to the nearest number. -/
theorem mul_eq {m₁ m₂ : ℕ} {e₁ e₂ : ℤ} {h₁ : 0 < m₁} {h₂ : 0 < m₂} (hs : Stored m e)
    (hbits : 2 ^ 52 ≤ m₁ * m₂) (hx : Nearest m e (m₁ * 2 ^ e₁ * (m₂ * 2 ^ e₂))) :
    mul .binary64 (.finite .positive m₁ e₁ h₁) (.finite .positive m₂ e₂ h₂) =
      .finite .positive m e hs.pos := by
  have hvalue : (m₁ * 2 ^ e₁ * (m₂ * 2 ^ e₂) : ℚ) = (m₁ * m₂ : ℕ) * 2 ^ (e₁ + e₂) := by
    rw [zpow_add₀ two_ne_zero]
    push_cast
    ring
  rw [hvalue] at hx
  exact roundWithAccuracy_eq .positive (stands_exact _) (Or.inr hbits) hs hx

/-- A quotient with its remainder. -/
theorem stands_fraction (num : ℕ) {den : ℕ} (hden : 0 < den) :
    Stands (.ofMantissaAndAccuracy (num / den) (accuracyOfFraction (num % den) den))
      (num / den : ℚ) := by
  have hdenq : (0 : ℚ) < den := by exact_mod_cast hden
  have hnum : (num : ℚ) = den * (num / den : ℕ) + (num % den : ℕ) := by
    exact_mod_cast (Nat.div_add_mod num den).symm
  have hvalue : (num / den : ℚ) = (num / den : ℕ) + (num % den : ℕ) / den := by
    rw [hnum]
    field_simp
  have hlt : ((num % den : ℕ) : ℚ) / den < 1 := by
    rw [div_lt_one hdenq]
    exact_mod_cast Nat.mod_lt num hden
  rw [hvalue]
  generalize num / den = q
  generalize num % den = r at hlt
  have hr : (0 : ℚ) ≤ r := Nat.cast_nonneg r
  unfold accuracyOfFraction
  by_cases hzero : r = 0
  · simpa [hzero] using stands_exact q
  have hpos : (0 : ℚ) < r / den := div_pos (by exact_mod_cast Nat.pos_of_ne_zero hzero) hdenq
  rw [if_neg hzero]
  rcases lt_trichotomy (2 * r) den with h | h | h
  · have hhalf : (r / den : ℚ) < 1 / 2 := by
      rw [div_lt_iff₀ hdenq]
      have : (2 * r : ℚ) < den := by exact_mod_cast h
      linarith
    rw [Nat.compare_eq_lt.mpr h]
    exact ⟨r / den, hpos.le, hhalf, by simpa [ExtendedMantissa.ofMantissaAndAccuracy] using hpos,
      by simp [ExtendedMantissa.ofMantissaAndAccuracy]⟩
  · have hhalf : (r / den : ℚ) = 1 / 2 := by
      rw [div_eq_iff hdenq.ne']
      have : (2 * r : ℚ) = den := by exact_mod_cast h
      linarith
    rw [Nat.compare_eq_eq.mpr h]
    exact ⟨0, le_rfl, by norm_num, by simp [ExtendedMantissa.ofMantissaAndAccuracy],
      by simp [ExtendedMantissa.ofMantissaAndAccuracy, hhalf]⟩
  · have hhalf : 1 / 2 < (r / den : ℚ) := by
      rw [lt_div_iff₀ hdenq]
      have : (den : ℚ) < 2 * r := by exact_mod_cast h
      linarith
    rw [Nat.compare_eq_gt.mpr h]
    refine ⟨r / den - 1 / 2, by linarith, by linarith, ?_, ?_⟩
    · simpa [ExtendedMantissa.ofMantissaAndAccuracy] using hhalf
    · simp [ExtendedMantissa.ofMantissaAndAccuracy]

/-- A quotient has bits enough to be rounded. -/
theorem divCore_bits {m₁ m₂ : ℕ} {e₁ e₂ k : ℤ} (h₁ : 0 < m₁) (h₂ : 0 < m₂)
    (hk : k ≤ max (totalExponent m₁ e₁ - totalExponent m₂ e₂ - 53) (-1074)) {shift : ℕ}
    (hshift : e₁ - e₂ = k + shift) : k ≤ -1074 ∨ 2 ^ 52 ≤ m₁ <<< shift / m₂ := by
  rcases le_or_gt k (-1074) with hle | hgt
  · exact Or.inl hle
  right
  have hlog : 53 + m₂.log2 ≤ m₁.log2 + shift := by
    unfold totalExponent at hk
    omega
  rw [Nat.le_div_iff_mul_le h₂, Nat.shiftLeft_eq]
  calc 2 ^ 52 * m₂ ≤ 2 ^ 52 * 2 ^ (m₂.log2 + 1) :=
        Nat.mul_le_mul_left _ Nat.lt_log2_self.le
    _ = 2 ^ (53 + m₂.log2) := by rw [← pow_add]; congr 1; ring
    _ ≤ 2 ^ (m₁.log2 + shift) := Nat.pow_le_pow_right (by decide) hlog
    _ = 2 ^ m₁.log2 * 2 ^ shift := pow_add _ _ _
    _ ≤ m₁ * 2 ^ shift := Nat.mul_le_mul_right _ (Nat.log2_self_le h₁.ne')

/-- A quotient is rounded to the nearest number. -/
theorem div_eq {m₁ m₂ : ℕ} {e₁ e₂ : ℤ} {h₁ : 0 < m₁} {h₂ : 0 < m₂} (hs : Stored m e)
    (hx : Nearest m e (m₁ * 2 ^ e₁ / (m₂ * 2 ^ e₂))) :
    div .binary64 (.finite .positive m₁ e₁ h₁) (.finite .positive m₂ e₂ h₂) =
      .finite .positive m e hs.pos := by
  have hcore : ∃ (shift : ℕ) (k : ℤ), e₁ - e₂ = k + shift ∧
      k ≤ max (totalExponent m₁ e₁ - totalExponent m₂ e₂ - 53) (-1074) ∧
      divCore .binary64 m₁ e₁ m₂ e₂ =
        (m₁ <<< shift / m₂, k, accuracyOfFraction (m₁ <<< shift % m₂) m₂) := by
    refine ⟨_, min (e₁ - e₂) (max (totalExponent m₁ e₁ - totalExponent m₂ e₂ - 53) (-1074)), ?_,
      min_le_right _ _, by rw [divCore, targetExponent_eq]⟩
    have := min_le_left (e₁ - e₂) (max (totalExponent m₁ e₁ - totalExponent m₂ e₂ - 53) (-1074))
    omega
  obtain ⟨shift, k, hshift, hk, hdiv⟩ := hcore
  have hm₂ : (m₂ : ℚ) ≠ 0 := by exact_mod_cast h₂.ne'
  have hvalue : (m₁ * 2 ^ e₁ / (m₂ * 2 ^ e₂) : ℚ) = (m₁ <<< shift : ℕ) / m₂ * 2 ^ k := by
    have he : e₁ = k + shift + e₂ := by omega
    rw [he, zpow_add₀ two_ne_zero, zpow_add₀ two_ne_zero, zpow_natCast, Nat.shiftLeft_eq]
    push_cast
    field_simp
  rw [hvalue] at hx
  simp only [UnpackedFloat.div, hdiv]
  exact roundWithAccuracy_eq .positive (stands_fraction _ h₂) (divCore_bits h₁ h₂ hk hshift) hs hx

/-! ## Storing -/

theorem unpackSign_packComponents (s : Sign) (e : BitVec 11) (m : BitVec 52) :
    Sign.ofBitVec (unpackSign (packComponents .binary64 s e m)) = s := by
  have hsign : BitVec.extractLsb' 63 1 (s.toBitVec ++ e ++ m) = s.toBitVec := by
    rw [BitVec.extractLsb'_append_eq_of_le (by decide),
      BitVec.extractLsb'_append_eq_of_le (by decide)]
    cases s <;> rfl
  have hunpack : unpackSign (packComponents .binary64 s e m) = s.toBitVec := hsign
  rw [hunpack]
  cases s <;> rfl

theorem unpack_normal (s : Sign) {b : BitVec 11} (v : BitVec 52) (hone : b ≠ -1#11)
    (hzero : b ≠ 0#11) (hpos) : unpack .binary64 (packComponents .binary64 s b v) =
      .finite s (1#1 ++ v).toNat (b.toNat - (1023 + 52)) hpos := by
  unfold UnpackedFloat.unpack
  simp only [unpackExponent_packComponents, unpackMantissa_packComponents,
    unpackSign_packComponents, if_neg hone, if_neg hzero]
  rfl

theorem unpack_subnormal (s : Sign) {v : BitVec 52} (hv : v ≠ 0#52) (hpos) :
    unpack .binary64 (packComponents .binary64 s 0#11 v) =
      .finite s v.toNat (0 - (1023 + 52) + 1) hpos := by
  unfold UnpackedFloat.unpack
  simp only [unpackExponent_packComponents, unpackMantissa_packComponents,
    unpackSign_packComponents, dif_neg hv]
  rfl

/-- A stored number is read as it was stored. -/
theorem unpack_pack (s : Sign) (hs : Stored m e) :
    (Float.Model.pack (.finite s m e hs.pos)).unpack = .finite s m e hs.pos := by
  show unpack .binary64 (pack .binary64 (.finite s m e hs.pos)) = _
  have hpos := hs.pos
  have hlt := hs.lt
  have hmin := hs.min
  have hmax := hs.max
  rcases Nat.lt_or_ge m (2 ^ 52) with hsmall | hbig
  · obtain rfl : e = -1074 := hs.full.resolve_right (by omega)
    obtain ⟨v, rfl⟩ : ∃ v : BitVec 52, v.toNat = m := ⟨BitVec.ofNatLT m hsmall, rfl⟩
    have hv : v ≠ 0#52 := by
      rintro rfl
      exact hpos.ne' rfl
    exact (congrArg (unpack .binary64) (pack_subnormal s hv hpos)).trans
      (unpack_subnormal s hv hpos)
  · obtain ⟨v, rfl⟩ : ∃ v : BitVec 52, (1#1 ++ v).toNat = m := by
      refine ⟨BitVec.ofNatLT (m - 2 ^ 52) (by omega), ?_⟩
      rw [toNat_implicit, BitVec.toNat_ofNatLT]
      omega
    obtain ⟨b, rfl⟩ : ∃ b : BitVec 11, (b.toNat : ℤ) - (1023 + 52) = e := by
      refine ⟨BitVec.ofNatLT (e + 1075).toNat (by omega), ?_⟩
      rw [BitVec.toNat_ofNatLT]
      omega
    have hone : b ≠ -1#11 := by
      rintro rfl
      exact absurd hmax (by decide)
    have hzero : b ≠ 0#11 := by
      rintro rfl
      exact absurd hmin (by decide)
    rw [pack_normal s v hone hpos, unpack_normal s v hone hzero hpos]

/-! ## Whole numbers and powers of ten -/

/-- The number is held exactly. -/
def Holds (a : Float) (x : ℚ) : Prop :=
  ∃ (m : ℕ) (e : ℤ) (h : 0 < m), a.toModel.unpack = .finite .positive m e h ∧ 2 ^ 52 ≤ m ∧
    (m * 2 ^ e : ℚ) = x

/-- Whole numbers of at most 53 bits are held exactly. -/
theorem holds_toFloat {n : ℕ} (hpos : 0 < n) (hlt : n < 2 ^ 53) : Holds n.toUInt64.toFloat n := by
  have hlog : n.log2 < 53 := (Nat.log2_lt hpos.ne').mpr hlt
  obtain ⟨k, hk⟩ : ∃ k : ℕ, n.log2 + k = 52 := ⟨52 - n.log2, by omega⟩
  have hvalue : ((n <<< k : ℕ) : ℚ) * 2 ^ (-k : ℤ) = n := by
    rw [Nat.shiftLeft_eq, zpow_neg, zpow_natCast]
    push_cast
    field_simp
  have hlow : 2 ^ 52 ≤ n <<< k := by
    rw [Nat.shiftLeft_eq, ← hk, pow_add]
    exact Nat.mul_le_mul_right _ (Nat.log2_self_le hpos.ne')
  have hhigh : n <<< k < 2 ^ 53 := by
    rw [Nat.shiftLeft_eq, show 53 = n.log2 + 1 + k by omega, pow_add]
    exact Nat.mul_lt_mul_of_pos_right Nat.lt_log2_self (by positivity)
  have hs : Stored (n <<< k) (-k) :=
    ⟨by omega, hhigh, by omega, by omega, Or.inr hlow⟩
  have hround : round .binary64 .positive n 0 = .finite .positive (n <<< k) (-k) hs.pos := by
    have htarget : Format.binary64.targetExponent (totalExponent n 0) = -k := by
      rw [targetExponent_eq]
      unfold totalExponent
      omega
    have hshift : (0 - -(k : ℤ)).toNat = k := by omega
    simp only [UnpackedFloat.round, htarget, decreaseExponent, hshift]
    rw [zero_sub]
    exact roundWithAccuracy_eq .positive (stands_exact _) (Or.inr hlow) hs (Nearest.self _ _)
  have hofNat : UnpackedFloat.ofNat .binary64 n = round .binary64 .positive n 0 := by
    have hcompare : compare (n : ℤ) 0 = .gt := compare_gt_iff_gt.mpr (by exact_mod_cast hpos)
    simp only [UnpackedFloat.ofNat, UnpackedFloat.ofInt, UnpackedFloat.normalize, hcompare,
      Int.toNat_natCast]
  refine ⟨n <<< k, -k, hs.pos, ?_, hlow, hvalue⟩
  have hmodel : n.toUInt64.toFloat.toModel =
      Float.Model.pack (UnpackedFloat.ofNat .binary64 n.toUInt64.toNat) := rfl
  rw [hmodel, show n.toUInt64.toNat = n from Nat.mod_eq_of_lt (by omega), hofNat, hround,
    unpack_pack .positive hs]

/-- The number is read as a power of ten. -/
def isTenPower (p : ℕ) : UnpackedFloat → Bool
  | .finite .positive m e _ => 2 ^ 52 ≤ m && m * 2 ^ e.toNat == 10 ^ p * 2 ^ (-e).toNat
  | _ => false

theorem isTenPower_table : ∀ p : Fin Float.exactlyRepresentablePowersOfTen.size,
    isTenPower p Float.exactlyRepresentablePowersOfTen[p].toModel.unpack = true := by
  decide +kernel

/-- The powers of ten in the table are exact. -/
theorem holds_table {p : ℕ} (hp : p < Float.exactlyRepresentablePowersOfTen.size) :
    Holds Float.exactlyRepresentablePowersOfTen[p] (10 ^ p) := by
  have h := isTenPower_table ⟨p, hp⟩
  simp only [isTenPower] at h
  split at h
  · rename_i m e hm heq
    simp only [Bool.and_eq_true, decide_eq_true_eq, beq_iff_eq] at h
    refine ⟨m, e, hm, heq, h.1, ?_⟩
    have hvalue : (m * 2 ^ e.toNat : ℚ) = 10 ^ p * 2 ^ (-e).toNat := by exact_mod_cast h.2
    obtain ⟨k, rfl | rfl⟩ := e.eq_nat_or_neg
    · simpa using hvalue
    · simp only [neg_neg, Int.toNat_natCast, Int.toNat_neg_natCast, pow_zero, mul_one] at hvalue
      rw [hvalue, zpow_neg, zpow_natCast]
      field_simp
  · cases h

/-! ## Decimals -/

/-- Between the smallest and the greatest number there are fewer than 400 powers of ten on either
side. -/
theorem Nearest.bounds (hs : Stored m e) (hx : Nearest m e x) :
    (10 : ℚ) ^ (-400 : ℤ) ≤ x ∧ x < (10 : ℚ) ^ (400 : ℤ) := by
  have hpos : (0 : ℚ) < 2 ^ e := by positivity
  have hpow : (2 : ℚ) ^ 1200 ≤ 10 ^ 400 := by
    rw [show 1200 = 3 * 400 from rfl, pow_mul]
    exact pow_le_pow_left₀ (by norm_num) (by norm_num) 400
  have hmin := hs.min
  have hmax := hs.max
  constructor
  · have hm : (1 : ℚ) ≤ m := by exact_mod_cast hs.pos
    calc (10 : ℚ) ^ (-400 : ℤ) = (10 ^ 400)⁻¹ := by rw [zpow_neg]; rfl
      _ ≤ (2 ^ 1200)⁻¹ := inv_anti₀ (by positivity) hpow
      _ = 2 ^ (-1200 : ℤ) := by rw [zpow_neg]; rfl
      _ ≤ 2 ^ (-1 + e) := zpow_le_zpow_right₀ one_le_two (by omega)
      _ = 1 / 2 * 2 ^ e := by rw [zpow_add₀ two_ne_zero, zpow_neg_one, one_div]
      _ ≤ (m - 1 / 2) * 2 ^ e := mul_le_mul_of_nonneg_right (by linarith) hpos.le
      _ ≤ x := hx.lower
  · have hm : (m : ℚ) + 1 ≤ 2 ^ 53 := by exact_mod_cast hs.lt
    calc x ≤ (m + 1 / 2) * 2 ^ e := hx.upper
      _ < 2 ^ 53 * 2 ^ e := mul_lt_mul_of_pos_right (by linarith) hpos
      _ = 2 ^ (53 + e) := by rw [zpow_add₀ two_ne_zero]; rfl
      _ ≤ 2 ^ (1200 : ℤ) := zpow_le_zpow_right₀ one_le_two (by omega)
      _ ≤ 10 ^ (400 : ℤ) := by exact_mod_cast hpow

variable {digits : ℕ} {power : ℤ}

theorem Nearest.digits_pos (hs : Stored m e) (hx : Nearest m e (digits * 10 ^ power)) :
    0 < digits := by
  rcases Nat.eq_zero_or_pos digits with rfl | hpos
  · have hlow := (hx.bounds hs).1
    rw [Nat.cast_zero, zero_mul] at hlow
    exact absurd hlow (not_le.mpr (by positivity))
  · exact hpos

theorem ten_zpow_lt {a b : ℤ} (h : (10 : ℚ) ^ a < 10 ^ b) : a < b :=
  (zpow_lt_zpow_iff_right₀ (by norm_num)).mp h

/-- The power of ten of such a decimal is neither very large nor, for the number of its digits, very
small. -/
theorem Nearest.power_bounds (hs : Stored m e) (hx : Nearest m e (digits * 10 ^ power)) :
    -401 - (digits.log2 : ℤ) < power ∧ power < 400 := by
  obtain ⟨hlow, hhigh⟩ := hx.bounds hs
  have hten : (0 : ℚ) < 10 ^ power := by positivity
  constructor
  · have hdigits : (digits : ℚ) < 10 ^ (digits.log2 + 1) := by
      have h2 : (digits : ℚ) < 2 ^ (digits.log2 + 1) := by exact_mod_cast Nat.lt_log2_self
      exact h2.trans_le (pow_le_pow_left₀ (by norm_num) (by norm_num) _)
    have hbound : (10 : ℚ) ^ (-400 : ℤ) < 10 ^ (((digits.log2 + 1 : ℕ) : ℤ) + power) := by
      rw [zpow_add₀ (by norm_num), zpow_natCast]
      exact hlow.trans_lt (mul_lt_mul_of_pos_right hdigits hten)
    have := ten_zpow_lt hbound
    omega
  · have hpower : (10 : ℚ) ^ power ≤ digits * 10 ^ power :=
      le_mul_of_one_le_left hten.le (by exact_mod_cast hx.digits_pos hs)
    exact ten_zpow_lt (hpower.trans_lt hhigh)

/-- Without the shortcut for small numbers. -/
theorem unpacked_ofScientific_eq (hs : Stored m e) (hx : Nearest m e (digits * 10 ^ power)) :
    UnpackedFloat.ofScientific .binary64 digits power = .finite .positive m e hs.pos := by
  have hpos := hx.digits_pos hs
  obtain ⟨hlow, hhigh⟩ := hx.power_bounds hs
  have hlarge : ¬power > 2 ^ Format.binary64.exponentBits := by
    norm_num
    omega
  have hsmall : ¬power < -((2 ^ Format.binary64.exponentBits : ℤ) + digits.log2) := by
    norm_num
    omega
  unfold UnpackedFloat.ofScientific
  rw [dif_neg hpos.ne', if_neg hlarge, if_neg hsmall]
  split
  · rename_i hnonneg
    obtain ⟨p, rfl⟩ := Int.eq_ofNat_of_zero_le hnonneg
    have hvalue : ((digits <<< 53 : ℕ) * 2 ^ (-(53 : ℕ) : ℤ) * ((10 ^ p : ℕ) * 2 ^ (0 : ℤ)) : ℚ) =
        digits * 10 ^ (p : ℤ) := by
      have hne : (2 : ℚ) ^ 53 ≠ 0 := by positivity
      rw [Nat.shiftLeft_eq, zpow_neg, zpow_natCast, zpow_natCast, zpow_zero, mul_one, Nat.cast_mul,
        Nat.cast_pow, Nat.cast_pow, Nat.cast_ofNat, mul_assoc (digits : ℚ), mul_inv_cancel₀ hne,
        mul_one]
      rfl
    have hbits : 2 ^ 52 ≤ digits <<< 53 * 10 ^ p := by
      rw [Nat.shiftLeft_eq]
      have : 1 ≤ digits * 10 ^ p := Nat.one_le_iff_ne_zero.mpr (by positivity)
      nlinarith
    rw [← hvalue] at hx
    have hmantissa : Format.binary64.mantissaBits = 53 := rfl
    simp only [hmantissa, Int.toNat_natCast]
    exact mul_eq hs hbits hx
  · rename_i hneg
    obtain ⟨p, rfl⟩ := Int.exists_eq_neg_ofNat (le_of_not_ge hneg)
    have hvalue : (digits * 2 ^ (0 : ℤ) / ((10 ^ (- -(p : ℤ)).toNat : ℕ) * 2 ^ (0 : ℤ)) : ℚ) =
        digits * 10 ^ (-(p : ℤ)) := by
      rw [neg_neg, Int.toNat_natCast, zpow_neg, zpow_natCast]
      push_cast
      field_simp
    exact div_eq hs (hvalue ▸ hx)

theorem ten_zpow_of_nonneg (h : 0 ≤ power) : (10 : ℚ) ^ power = 10 ^ power.natAbs := by
  obtain ⟨p, rfl⟩ := Int.eq_ofNat_of_zero_le h
  rw [Int.natAbs_natCast, zpow_natCast]

theorem ten_zpow_of_neg (h : power < 0) : (10 : ℚ) ^ power = (10 ^ power.natAbs)⁻¹ := by
  obtain ⟨p, rfl⟩ := Int.exists_eq_neg_ofNat h.le
  rw [Int.natAbs_neg, Int.natAbs_natCast, zpow_neg, zpow_natCast]

/-- **A decimal is read as the floating-point number whose interval it is in.** -/
theorem ofScientific_eq (hs : Stored m e) (hx : Nearest m e (digits * 10 ^ power)) :
    Float.ofScientific digits (power < 0) power.natAbs =
      ⟨Float.Model.pack (.finite .positive m e hs.pos)⟩ := by
  unfold Float.ofScientific
  split
  · rename_i h
    obtain ⟨m₁, e₁, h₁, hdigits, hbits₁, hvalue₁⟩ := holds_toFloat (hx.digits_pos hs) h.1
    have hsize : power.natAbs < Float.exactlyRepresentablePowersOfTen.size :=
      Nat.lt_succ_of_le h.2
    obtain ⟨m₂, e₂, h₂, htable, hbits₂, hvalue₂⟩ := holds_table hsize
    rcases lt_or_ge power 0 with hneg | hnonneg
    · rw [ten_zpow_of_neg hneg, ← div_eq_mul_inv, ← hvalue₁, ← hvalue₂] at hx
      have hdiv : ∀ a b : Float, a / b = ⟨Float.Model.pack
          (UnpackedFloat.div .binary64 a.toModel.unpack b.toModel.unpack)⟩ := fun _ _ => rfl
      simp only [hneg, decide_true, if_true]
      rw [hdiv, hdigits, htable, div_eq hs hx]
    · rw [ten_zpow_of_nonneg hnonneg, ← hvalue₁, ← hvalue₂] at hx
      have hmul : ∀ a b : Float, a * b = ⟨Float.Model.pack
          (UnpackedFloat.mul .binary64 a.toModel.unpack b.toModel.unpack)⟩ := fun _ _ => rfl
      simp only [not_lt.mpr hnonneg, decide_false, Bool.false_eq_true, if_false]
      rw [hmul, hdigits, htable, mul_eq hs (hbits₁.trans (Nat.le_mul_of_pos_right m₁ h₂)) hx]
  · have hpower : (if decide (power < 0) then Int.negOfNat power.natAbs
        else Int.ofNat power.natAbs) = power := by
      rcases lt_or_ge power 0 with hneg | hnonneg
      · simp only [hneg, decide_true, if_true, Int.negOfNat_eq, Int.ofNat_eq_natCast]
        omega
      · simp only [not_lt.mpr hnonneg, decide_false, Bool.false_eq_true, if_false,
          Int.ofNat_eq_natCast]
        omega
    simp only [hpower, Float.Model.ofScientific, unpacked_ofScientific_eq hs hx]

end Conic.Binary64
