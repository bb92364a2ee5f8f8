import Mathlib
import Conic.Proofs.Arithmetic

/-!
# Rounding to floating-point numbers

A positive floating-point number is `m · 2 ^ e` with 53 bits of mantissa, or with fewer at the
smallest exponent. The numbers that round to it form an interval around it; below a power of two
the interval is half as wide. Whatever lies in the interval is rounded to that number, by whichever
operation it is computed.

* `Stored`, `Nearest` — the mantissas and exponents that occur, and the interval.
* `Stands` — what a mantissa with its two extra bits stands for.
* `roundWithAccuracy_eq` — **a number in the interval is rounded to the number in its middle.**
-/

set_option autoImplicit false

namespace Conic.Binary64

open Float.Model Float.Model.UnpackedFloat

/-- Mantissa and exponent of a positive number as they are stored: 53 bits, or fewer at the
smallest exponent. -/
structure Stored (m : ℕ) (e : ℤ) : Prop where
  pos : 0 < m
  lt : m < 2 ^ 53
  min : -1074 ≤ e
  max : e ≤ 971
  full : e = -1074 ∨ 2 ^ 52 ≤ m

/-- The number `x` rounds to `m · 2 ^ e`: it is at most half a place away, or a quarter below a
power of two, and less if `m` is odd. -/
structure Nearest (m : ℕ) (e : ℤ) (x : ℚ) : Prop where
  lower : ((m : ℚ) - 1 / 2) * 2 ^ e ≤ x
  upper : x ≤ ((m : ℚ) + 1 / 2) * 2 ^ e
  odd : m % 2 = 1 → ((m : ℚ) - 1 / 2) * 2 ^ e < x ∧ x < ((m : ℚ) + 1 / 2) * 2 ^ e
  narrow : m = 2 ^ 52 → -1074 < e → ((m : ℚ) - 1 / 4) * 2 ^ e ≤ x

/-! ## Mantissas with extra bits -/

/-- The mantissa, the bit after it and the trace of all later bits stand for `y`. -/
def Stands (em : ExtendedMantissa) (y : ℚ) : Prop :=
  ∃ δ : ℚ, 0 ≤ δ ∧ δ < 1 / 2 ∧ (em.stickyBit = true ↔ 0 < δ) ∧
    y = em.mantissa + (if em.roundBit then 1 / 2 else 0) + δ

theorem stands_exact (m : ℕ) : Stands (.ofMantissaAndAccuracy m .exact) m :=
  ⟨0, by norm_num [ExtendedMantissa.ofMantissaAndAccuracy]⟩

variable {em : ExtendedMantissa} {y : ℚ}

theorem Stands.floor (h : Stands em y) : (em.mantissa : ℚ) ≤ y ∧ y < em.mantissa + 1 := by
  obtain ⟨δ, hδ, hlt, -, rfl⟩ := h
  cases em.roundBit <;> norm_num
  · constructor <;> linarith
  · constructor <;> linarith

theorem Stands.shiftRightOne (h : Stands em y) : Stands em.shiftRightOne (y / 2) := by
  obtain ⟨δ, hδ, hlt, hsticky, rfl⟩ := h
  obtain ⟨m, round, sticky⟩ := em
  have hm : (m : ℚ) = 2 * (m / 2 : ℕ) + (m % 2 : ℕ) := by
    exact_mod_cast (Nat.div_add_mod m 2).symm
  refine ⟨(if round then 1 / 4 else 0) + δ / 2, ?_, ?_, ?_, ?_⟩
  · cases round <;> norm_num <;> linarith
  · cases round <;> norm_num <;> linarith
  · simp only [ExtendedMantissa.shiftRightOne, Bool.or_eq_true, hsticky]
    cases round with
    | false => simp
    | true =>
      have hpos : 0 < 1 / 4 + δ / 2 := by linarith
      simpa using hpos
  · simp only [ExtendedMantissa.shiftRightOne]
    rw [hm]
    rcases Nat.mod_two_eq_zero_or_one m with h | h <;> cases round <;> simp [h] <;> ring

theorem Stands.shiftRight (h : Stands em y) (n : ℕ) : Stands (em >>> n) (y / 2 ^ n) := by
  show Stands (n.repeat ExtendedMantissa.shiftRightOne em) (y / 2 ^ n)
  induction n with
  | zero => simpa [Nat.repeat] using h
  | succ n ih =>
    rw [pow_succ, ← div_div]
    exact ih.shiftRightOne

/-- A number at most half a place away from `n` is rounded to `n`; at exactly half a place `n` has
to be even. -/
theorem Stands.roundedMantissa_eq {n : ℕ} (h : Stands em y) (hlower : (n : ℚ) - 1 / 2 ≤ y)
    (hupper : y ≤ n + 1 / 2) (hodd : n % 2 = 1 → (n : ℚ) - 1 / 2 < y ∧ y < n + 1 / 2) :
    em.roundedMantissa = n := by
  obtain ⟨δ, hδ, hlt, hsticky, rfl⟩ := h
  obtain ⟨m, round, sticky⟩ := em
  have hle : ∀ {a b : ℕ}, (a : ℚ) < b + 1 → a ≤ b := fun hab => by
    exact_mod_cast Nat.lt_succ_iff.mp (by exact_mod_cast hab)
  cases round with
  | false =>
    have hn : m = n := by
      simp only [Bool.false_eq_true, if_false, add_zero] at hlower hupper
      exact le_antisymm (hle (by linarith)) (hle (by linarith))
    cases sticky <;> simp [ExtendedMantissa.roundedMantissa, ExtendedMantissa.accuracy,
      Accuracy.roundToNearestEven, hn]
  | true =>
    simp only [if_true] at hlower hupper hodd
    cases sticky with
    | false =>
      have hzero : δ = 0 := le_antisymm (not_lt.mp fun hpos => by simpa using hsticky.mpr hpos) hδ
      subst hzero
      have hlow : m ≤ n := hle (by linarith)
      have hhigh : n ≤ m + 1 := hle (by push_cast; linarith)
      have heven : n % 2 = 0 := by
        by_contra hne
        obtain ⟨h1, h2⟩ := hodd (by omega)
        have h3 : n ≤ m := hle (by linarith)
        have h4 : m + 1 ≤ n := hle (by push_cast; linarith)
        omega
      simp only [ExtendedMantissa.roundedMantissa, ExtendedMantissa.accuracy,
        Accuracy.roundToNearestEven]
      omega
    | true =>
      have hpos : 0 < δ := hsticky.mp rfl
      have hlow : m + 1 ≤ n := hle (by push_cast; linarith)
      have hhigh : n ≤ m + 1 := hle (by push_cast; linarith)
      simp only [ExtendedMantissa.roundedMantissa, ExtendedMantissa.accuracy,
        Accuracy.roundToNearestEven]
      omega

/-! ## Exponents -/

theorem targetExponent_eq (t : ℤ) : Format.binary64.targetExponent t = max (t - 53) (-1074) := by
  norm_num [Format.targetExponent, Format.mantissaBits, Format.minExponent]

/-- Shifted to its exponent, a number is still the same number. -/
theorem Stands.shiftToTargetExponent {m : ℕ} {e t : ℤ} {acc : Accuracy}
    (h : Stands (.ofMantissaAndAccuracy m acc) y)
    (ht : max (totalExponent m e - 53) (-1074) = t) (hle : e ≤ t) :
    ∃ em, shiftToTargetExponent .binary64 m e acc = (em, t) ∧ Stands em (y * 2 ^ e / 2 ^ t) := by
  obtain ⟨k, rfl⟩ := Int.le.dest hle
  refine ⟨ExtendedMantissa.ofMantissaAndAccuracy m acc >>> k, ?_, ?_⟩
  · rw [UnpackedFloat.shiftToTargetExponent, targetExponent_eq, ht, shiftToExponent]
    simp
  · have hpow : y * 2 ^ e / 2 ^ (e + k) = y / 2 ^ k := by
      rw [zpow_add₀ two_ne_zero, zpow_natCast]
      field_simp
    rw [hpow]
    exact h.shiftRight k

/-- The mantissa of a stored number stays as it is. -/
theorem shiftToTargetExponent_stored {m : ℕ} {e : ℤ} (h : Stored m e) :
    shiftToTargetExponent .binary64 m e .exact = (⟨m, false, false⟩, e) := by
  have hlog : m.log2 < 53 := (Nat.log2_lt h.pos.ne').mpr h.lt
  have hmin := h.min
  have hzero : (max (totalExponent m e - 53) (-1074) - e).toNat = 0 := by
    unfold totalExponent
    omega
  rw [UnpackedFloat.shiftToTargetExponent, targetExponent_eq, shiftToExponent]
  simp [hzero, ExtendedMantissa.ofMantissaAndAccuracy, HShiftRight.hShiftRight, Nat.repeat]

/-- A mantissa that has grown by a bit loses it again. -/
theorem shiftToTargetExponent_carry {e : ℤ} (he : -1074 < e) :
    shiftToTargetExponent .binary64 (2 ^ 53) (e - 1) .exact = (⟨2 ^ 52, false, false⟩, e) := by
  have htarget : Format.binary64.targetExponent (totalExponent (2 ^ 53) (e - 1)) = e := by
    rw [targetExponent_eq]
    unfold totalExponent
    rw [Nat.log2_two_pow]
    omega
  have hone : (e - (e - 1)).toNat = 1 := by omega
  rw [UnpackedFloat.shiftToTargetExponent, htarget, shiftToExponent, hone]
  simp [ExtendedMantissa.ofMantissaAndAccuracy, HShiftRight.hShiftRight, Nat.repeat,
    ExtendedMantissa.shiftRightOne]

variable {m : ℕ} {e : ℤ} {x : ℚ}

theorem two_zpow_lt {a b : ℤ} (h : (2 : ℚ) ^ a < 2 ^ b) : a < b :=
  (zpow_lt_zpow_iff_right₀ one_lt_two).mp h

/-- The exponent at which a number is rounded: that of the nearest floating-point number, or one
less just below a power of two. -/
theorem Nearest.target {t : ℤ} (hx : Nearest m e x) (hs : Stored m e) (hlt : x < 2 ^ t)
    (hle : 2 ^ (t - 1) ≤ x ∨ t - 53 ≤ -1074) :
    max (t - 53) (-1074) = e ∨
      m = 2 ^ 52 ∧ -1074 < e ∧ max (t - 53) (-1074) = e - 1 := by
  have hmin := hs.min
  have hpos : (0 : ℚ) < 2 ^ e := by positivity
  have hpow : ∀ k : ℕ, (2 : ℚ) ^ (k + e) = 2 ^ k * 2 ^ e := fun k => by
    rw [zpow_add₀ two_ne_zero, zpow_natCast]
  have hupper : t - 53 ≤ e := by
    rcases hle with hle | hle
    · have hm : (m : ℚ) + 1 / 2 < 2 ^ 53 := by
        have : (m : ℚ) + 1 ≤ 2 ^ 53 := by exact_mod_cast hs.lt
        linarith
      have hbound : (2 : ℚ) ^ (t - 1) < 2 ^ ((53 : ℕ) + e) := by
        rw [hpow]
        exact lt_of_le_of_lt (hle.trans hx.upper) (mul_lt_mul_of_pos_right hm hpos)
      have := two_zpow_lt hbound
      omega
    · omega
  rcases hs.full with hsmall | hfull
  · left
    omega
  rcases eq_or_lt_of_le hmin with hsmall | hmin
  · left
    omega
  rcases le_or_gt ((2 : ℚ) ^ ((52 : ℕ) + e)) x with hbig | hbelow
  · have := two_zpow_lt (hbig.trans_lt hlt)
    left
    omega
  · have hm : m = 2 ^ 52 := by
      by_contra hne
      have hsucc : (2 : ℚ) ^ 52 + 1 ≤ m := by
        exact_mod_cast lt_of_le_of_ne hfull (Ne.symm hne)
      have := mul_le_mul_of_nonneg_right (show (2 : ℚ) ^ 52 ≤ m - 1 / 2 by linarith) hpos.le
      rw [hpow] at hbelow
      linarith [hx.lower]
    have hnarrow := hx.narrow hm hmin
    have hhalf : (2 : ℚ) ^ ((51 : ℕ) + e) < 2 ^ t := by
      rw [hpow]
      refine lt_of_le_of_lt (le_trans ?_ hnarrow) hlt
      rw [hm]
      exact mul_le_mul_of_nonneg_right (by norm_num) hpos.le
    have := two_zpow_lt hhalf
    rcases eq_or_ne (max (t - 53) (-1074)) e with heq | hne
    · exact Or.inl heq
    · exact Or.inr ⟨hm, hmin, by omega⟩

/-- A mantissa with its extra bits lies between the same powers of two as the mantissa alone. -/
theorem Stands.bounds {n : ℕ} {acc : Accuracy}
    (hy : Stands (.ofMantissaAndAccuracy n acc) y) (k : ℤ) :
    y * 2 ^ k < 2 ^ totalExponent n k ∧
      (0 < n → 2 ^ (totalExponent n k - 1) ≤ y * 2 ^ k) := by
  have hmantissa : ((ExtendedMantissa.ofMantissaAndAccuracy n acc).mantissa : ℚ) = n := by
    cases acc with
    | exact => rfl
    | inexact o => cases o <;> rfl
  obtain ⟨hlow, hhigh⟩ := hy.floor
  rw [hmantissa] at hlow hhigh
  have hpos : (0 : ℚ) < 2 ^ k := by positivity
  constructor
  · have hn : (n : ℚ) + 1 ≤ 2 ^ (n.log2 + 1) := by exact_mod_cast Nat.lt_log2_self
    rw [totalExponent, zpow_add₀ two_ne_zero]
    exact mul_lt_mul_of_pos_right (lt_of_lt_of_le hhigh (by exact_mod_cast hn)) hpos
  · intro hn
    have hself : (2 : ℚ) ^ n.log2 ≤ n := by exact_mod_cast Nat.log2_self_le hn.ne'
    rw [show totalExponent n k - 1 = n.log2 + k by unfold totalExponent; ring,
      zpow_add₀ two_ne_zero, zpow_natCast]
    exact mul_le_mul_of_nonneg_right (hself.trans hlow) hpos.le

/-- Rounded at its own exponent, a number in the interval becomes the mantissa in the middle. -/
theorem Nearest.roundedMantissa_eq (hx : Nearest m e x) (hem : Stands em (x / 2 ^ e)) :
    em.roundedMantissa = m := by
  have hpos : (0 : ℚ) < 2 ^ e := by positivity
  exact hem.roundedMantissa_eq ((le_div_iff₀ hpos).mpr hx.lower) ((div_le_iff₀ hpos).mpr hx.upper)
    fun hodd => ⟨(lt_div_iff₀ hpos).mpr (hx.odd hodd).1, (div_lt_iff₀ hpos).mpr (hx.odd hodd).2⟩

/-- Rounded one exponent lower, a number just below a power of two grows by a bit. -/
theorem Nearest.roundedMantissa_carry (hx : Nearest (2 ^ 52) e x) (he : -1074 < e)
    (hlt : x < 2 ^ (e + 52)) (hem : Stands em (x / 2 ^ (e - 1))) :
    em.roundedMantissa = 2 ^ 53 := by
  have hpos : (0 : ℚ) < 2 ^ (e - 1) := by positivity
  have hdouble : (2 : ℚ) ^ e = 2 * 2 ^ (e - 1) := by
    rw [← zpow_one_add₀ two_ne_zero, add_sub_cancel]
  have hnarrow := hx.narrow rfl he
  rw [hdouble] at hnarrow
  rw [zpow_add₀ two_ne_zero, hdouble] at hlt
  refine hem.roundedMantissa_eq ((le_div_iff₀ hpos).mpr ?_) ((div_le_iff₀ hpos).mpr ?_)
    (by norm_num)
  · refine le_trans (le_of_eq ?_) hnarrow
    push_cast
    ring
  · norm_num at hlt ⊢
    linarith

/-- **A number in the interval is rounded to the number in its middle.** -/
theorem roundWithAccuracy_eq {n : ℕ} {k : ℤ} {acc : Accuracy} (s : Sign)
    (hy : Stands (.ofMantissaAndAccuracy n acc) y) (hbits : k ≤ -1074 ∨ 2 ^ 52 ≤ n)
    (hs : Stored m e) (hx : Nearest m e (y * 2 ^ k)) :
    roundWithAccuracy .binary64 s n k acc = .finite s m e hs.pos := by
  obtain ⟨hlt, hle⟩ := hy.bounds k
  have hleast : 2 ^ (totalExponent n k - 1) ≤ y * 2 ^ k ∨ totalExponent n k - 53 ≤ -1074 := by
    rcases Nat.eq_zero_or_pos n with rfl | hn
    · right
      simp only [totalExponent, Nat.log2_zero]
      omega
    · exact Or.inl (hle hn)
  have hroom : k ≤ max (totalExponent n k - 53) (-1074) := by
    rcases hbits with hk | hn
    · exact hk.trans (le_max_right _ _)
    · have hlog : 52 ≤ n.log2 := (Nat.le_log2 (by omega)).mpr hn
      refine le_trans ?_ (le_max_left _ _)
      unfold totalExponent
      omega
  rcases hx.target hs hlt hleast with ht | ⟨rfl, he, ht⟩
  · obtain ⟨em, hshift, hem⟩ := hy.shiftToTargetExponent ht (ht ▸ hroom)
    simp only [roundWithAccuracy, hshift, hx.roundedMantissa_eq hem,
      shiftToTargetExponent_stored hs]
    rw [dif_neg hs.pos.ne']
  · obtain ⟨em, hshift, hem⟩ := hy.shiftToTargetExponent ht (ht ▸ hroom)
    have hbelow : y * 2 ^ k < 2 ^ (e + 52) :=
      hlt.trans_le (zpow_le_zpow_right₀ one_le_two (by omega))
    simp only [roundWithAccuracy, hshift, hx.roundedMantissa_carry he hbelow hem,
      shiftToTargetExponent_carry he]
    rw [dif_neg (by norm_num)]

end Conic.Binary64
