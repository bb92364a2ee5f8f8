import Mathlib
import Conic.Decimal.Layout
import Conic.Proofs.Decimal.Rounding

/-!
# The shortest decimal rounds to its number

Whatever grid the search stops at, it returns a decimal of the interval. That it stops at all is a
matter of spacing: sixteen places after the leading one, neighbouring decimals are closer together
than the interval is wide, so one of the two neighbours of the number lies in it.

* `Fraction.value`, `Unsigned.value` — fractions and decimals as rational numbers.
* `leadingPower_spec` — the power of ten of the leading digit.
* `Binary.Parts` — the parts of a positive floating-point number.
* `shortest_nearest` — **the shortest decimal lies in the interval of its number.**
-/

set_option autoImplicit false

namespace Conic.Decimal

open Binary64

/-! ## Fractions -/

/-- The fraction as a rational number. -/
def Fraction.value (x : Fraction) : ℚ := x.num / x.den

/-- The decimal as a rational number. -/
def Unsigned.value (d : Unsigned) : ℚ := d.digits * 10 ^ d.exponent

theorem Fraction.scaled_den (n : ℕ) {base : ℕ} (hbase : 0 < base) (power : ℤ) :
    0 < (Fraction.scaled n base power).den := by
  unfold Fraction.scaled
  split
  · exact Nat.one_pos
  · exact Nat.pow_pos hbase

theorem Fraction.scaled_num {n base : ℕ} (hn : 0 < n) (hbase : 0 < base) (power : ℤ) :
    0 < (Fraction.scaled n base power).num := by
  unfold Fraction.scaled
  split
  · exact Nat.mul_pos hn (Nat.pow_pos hbase)
  · exact hn

theorem Fraction.value_scaled (n : ℕ) {base : ℕ} (hbase : 0 < base) (power : ℤ) :
    (Fraction.scaled n base power).value = n * base ^ power := by
  have hne : (base : ℚ) ≠ 0 := by exact_mod_cast hbase.ne'
  unfold Fraction.scaled
  split
  · rename_i h
    obtain ⟨p, rfl⟩ := Int.eq_ofNat_of_zero_le h
    simp [Fraction.value]
  · rename_i h
    obtain ⟨p, rfl⟩ := Int.exists_eq_neg_ofNat (le_of_not_ge h)
    simp [Fraction.value, div_eq_mul_inv]

/-- A multiple of the fraction. -/
def Fraction.times (x : Fraction) (n : ℕ) : Fraction := ⟨n * x.num, x.den⟩

theorem Fraction.value_times (x : Fraction) (n : ℕ) : (x.times n).value = n * x.value := by
  simp [Fraction.value, Fraction.times, mul_div_assoc]

/-- Fractions are compared without dividing. -/
theorem Fraction.value_le_iff {x y : Fraction} (hx : 0 < x.den) (hy : 0 < y.den) :
    x.value ≤ y.value ↔ x.num * y.den ≤ y.num * x.den := by
  have hx : (0 : ℚ) < x.den := by exact_mod_cast hx
  have hy : (0 : ℚ) < y.den := by exact_mod_cast hy
  unfold Fraction.value
  rw [div_le_div_iff₀ hx hy]
  exact_mod_cast Iff.rfl

theorem Fraction.value_lt_iff {x y : Fraction} (hx : 0 < x.den) (hy : 0 < y.den) :
    x.value < y.value ↔ x.num * y.den < y.num * x.den := by
  rw [← not_le, ← not_le, Fraction.value_le_iff hy hx]

/-! ## The leading digit -/

theorem digitCount_spec {n : ℕ} (hn : 0 < n) :
    10 ^ (digitCount n - 1) ≤ n ∧ n < 10 ^ digitCount n := by
  have hpos : 0 < digitCount n := Nat.length_toDigits_pos
  refine ⟨?_, (Nat.length_toDigits_le_iff (by decide) hpos).mp le_rfl⟩
  rcases Nat.eq_zero_or_pos (digitCount n - 1) with hzero | hpred
  · rw [hzero]
    exact hn
  · by_contra hlt
    have hle : digitCount n ≤ digitCount n - 1 :=
      (Nat.length_toDigits_le_iff (by decide) hpred).mpr (Nat.lt_of_not_le hlt)
    omega

/-- The number of digits of a fraction, up to one. -/
theorem value_bounds {x : Fraction} (hnum : 0 < x.num) (hden : 0 < x.den) :
    (10 : ℚ) ^ ((digitCount x.num : ℤ) - digitCount x.den - 1) ≤ x.value ∧
      x.value < 10 ^ ((digitCount x.num : ℤ) - digitCount x.den + 1) := by
  have hnumPos : 0 < digitCount x.num := Nat.length_toDigits_pos
  have hdenPos : 0 < digitCount x.den := Nat.length_toDigits_pos
  have hten : (10 : ℚ) ≠ 0 := by norm_num
  obtain ⟨hnumLow, hnumHigh⟩ := digitCount_spec hnum
  obtain ⟨hdenLow, hdenHigh⟩ := digitCount_spec hden
  have hnumLow : (10 : ℚ) ^ ((digitCount x.num - 1 : ℕ) : ℤ) ≤ x.num := by
    rw [zpow_natCast]
    exact_mod_cast hnumLow
  have hnumHigh : (x.num : ℚ) < 10 ^ (digitCount x.num : ℤ) := by
    rw [zpow_natCast]
    exact_mod_cast hnumHigh
  have hdenLow : (10 : ℚ) ^ ((digitCount x.den - 1 : ℕ) : ℤ) ≤ x.den := by
    rw [zpow_natCast]
    exact_mod_cast hdenLow
  have hdenHigh : (x.den : ℚ) < 10 ^ (digitCount x.den : ℤ) := by
    rw [zpow_natCast]
    exact_mod_cast hdenHigh
  have hden : (0 : ℚ) < x.den := by exact_mod_cast hden
  unfold Fraction.value
  constructor
  · rw [le_div_iff₀ hden]
    calc (10 : ℚ) ^ ((digitCount x.num : ℤ) - digitCount x.den - 1) * x.den
        ≤ 10 ^ ((digitCount x.num : ℤ) - digitCount x.den - 1) * 10 ^ (digitCount x.den : ℤ) :=
          mul_le_mul_of_nonneg_left hdenHigh.le (by positivity)
      _ = 10 ^ ((digitCount x.num - 1 : ℕ) : ℤ) := by
          rw [← zpow_add₀ hten]
          congr 1
          omega
      _ ≤ x.num := hnumLow
  · rw [div_lt_iff₀ hden]
    calc (x.num : ℚ) < 10 ^ (digitCount x.num : ℤ) := hnumHigh
      _ = 10 ^ ((digitCount x.num : ℤ) - digitCount x.den + 1) *
          10 ^ ((digitCount x.den - 1 : ℕ) : ℤ) := by
          rw [← zpow_add₀ hten]
          congr 1
          omega
      _ ≤ 10 ^ ((digitCount x.num : ℤ) - digitCount x.den + 1) * x.den :=
          mul_le_mul_of_nonneg_left hdenLow (by positivity)

/-- The greatest power of ten that is at most the fraction. -/
theorem leadingPower_spec {x : Fraction} (hnum : 0 < x.num) (hden : 0 < x.den) :
    (10 : ℚ) ^ leadingPower x ≤ x.value ∧ x.value < 10 ^ (leadingPower x + 1) := by
  obtain ⟨hlow, hhigh⟩ := value_bounds hnum hden
  have hunit : ∀ p, ((Fraction.scaled 1 10 p).num * x.den ≤
      x.num * (Fraction.scaled 1 10 p).den ↔ (10 : ℚ) ^ p ≤ x.value) := fun p => by
    rw [← Fraction.value_le_iff (Fraction.scaled_den 1 (by decide) p) hden,
      Fraction.value_scaled 1 (by decide)]
    simp
  unfold leadingPower
  simp only [hunit]
  split
  · rename_i h
    exact ⟨h, hhigh⟩
  · rename_i h
    exact ⟨hlow, by rw [sub_add_cancel]; exact not_le.mp h⟩

/-! ## The interval -/

/-- The parts of a positive floating-point number. -/
structure Binary.Parts (b : Binary) : Prop where
  stored : Stored b.mantissa b.exponent
  narrow : b.narrowBelow = true ↔ b.mantissa = 2 ^ 52 ∧ -1074 < b.exponent

variable {b : Binary}

/-- The number as a rational number, without its sign. -/
theorem Binary.value_scaled (b : Binary) :
    (Fraction.scaled b.value 2 (b.exponent - 2)).value = b.mantissa * 2 ^ b.exponent := by
  rw [Fraction.value_scaled _ (by decide), Binary.value, zpow_sub₀ (by norm_num)]
  push_cast
  ring

/-- The comparisons are those of a decimal with the ends of the interval. -/
theorem roundsTo_iff (b : Binary) (d : Unsigned) : roundsTo b d = true ↔
    if b.closed then b.lower * 2 ^ (b.exponent - 2) ≤ d.value ∧
      d.value ≤ b.upper * 2 ^ (b.exponent - 2)
    else b.lower * 2 ^ (b.exponent - 2) < d.value ∧ d.value < b.upper * 2 ^ (b.exponent - 2) := by
  have hpoint : 0 < (Fraction.scaled d.digits 10 d.exponent).den :=
    Fraction.scaled_den _ (by decide) _
  have hunit : ∀ n, 0 < ((Fraction.scaled 1 2 (b.exponent - 2)).times n).den := fun _ =>
    Fraction.scaled_den _ (by decide) _
  have hvalue : (Fraction.scaled d.digits 10 d.exponent).value = d.value :=
    Fraction.value_scaled _ (by decide) _
  have hend : ∀ n : ℕ, ((Fraction.scaled 1 2 (b.exponent - 2)).times n).value =
      n * 2 ^ (b.exponent - 2) := fun n => by
    rw [Fraction.value_times, Fraction.value_scaled 1 (by decide)]
    simp
  rw [← hend, ← hend, ← hvalue]
  unfold roundsTo
  split
  · rw [Bool.and_eq_true, decide_eq_true_eq, decide_eq_true_eq]
    exact and_congr (Fraction.value_le_iff (hunit _) hpoint).symm
      (Fraction.value_le_iff hpoint (hunit _)).symm
  · rw [Bool.and_eq_true, decide_eq_true_eq, decide_eq_true_eq]
    exact and_congr (Fraction.value_lt_iff (hunit _) hpoint).symm
      (Fraction.value_lt_iff hpoint (hunit _)).symm

/-- The ends of the interval as rational numbers. -/
theorem Binary.Parts.ends (hb : b.Parts) :
    (b.upper * 2 ^ (b.exponent - 2) : ℚ) = (b.mantissa + 1 / 2) * 2 ^ b.exponent ∧
      (b.lower * 2 ^ (b.exponent - 2) : ℚ) =
        (b.mantissa - if b.narrowBelow then 1 / 4 else 1 / 2) * 2 ^ b.exponent := by
  have hpos := hb.stored.pos
  have hquarter : (2 : ℚ) ^ b.exponent = 4 * 2 ^ (b.exponent - 2) := by
    rw [zpow_sub₀ (by norm_num)]
    norm_num
    ring
  rw [hquarter]
  constructor
  · unfold Binary.upper
    push_cast
    ring
  · unfold Binary.lower
    split
    · rw [Nat.cast_sub (by omega)]
      push_cast
      ring
    · rw [Nat.cast_sub (by omega)]
      push_cast
      ring

/-- A decimal that rounds to a number lies in its interval. -/
theorem nearest_of_roundsTo (hb : b.Parts) {d : Unsigned} (h : roundsTo b d = true) :
    Nearest b.mantissa b.exponent d.value := by
  have hpos : (0 : ℚ) < 2 ^ b.exponent := by positivity
  have hwide : ((b.mantissa : ℚ) - 1 / 2) * 2 ^ b.exponent ≤
      (b.mantissa - if b.narrowBelow then 1 / 4 else 1 / 2) * 2 ^ b.exponent := by
    refine mul_le_mul_of_nonneg_right ?_ hpos.le
    split <;> linarith
  have hnarrow : b.mantissa = 2 ^ 52 → -1074 < b.exponent → b.narrowBelow = true :=
    fun hm he => hb.narrow.mpr ⟨hm, he⟩
  rw [roundsTo_iff, hb.ends.1, hb.ends.2] at h
  split at h
  · rename_i hclosed
    refine ⟨hwide.trans h.1, h.2, fun hodd => ?_, fun hm he => ?_⟩
    · simp [Binary.closed, hodd] at hclosed
    · simpa [hnarrow hm he] using h.1
  · refine ⟨hwide.trans h.1.le, h.2.le, fun _ => ⟨hwide.trans_lt h.1, h.2⟩, fun hm he => ?_⟩
    simpa [hnarrow hm he] using h.1.le

/-- A decimal strictly inside the interval rounds to the number. -/
theorem roundsTo_of_inside (hb : b.Parts) {d : Unsigned}
    (hlower : ((b.mantissa : ℚ) - 1 / 2) * 2 ^ b.exponent < d.value)
    (hupper : d.value < ((b.mantissa : ℚ) + 1 / 2) * 2 ^ b.exponent)
    (hnarrow : b.mantissa = 2 ^ 52 → ((b.mantissa : ℚ) - 1 / 4) * 2 ^ b.exponent < d.value) :
    roundsTo b d = true := by
  have hlow : (b.mantissa - if b.narrowBelow then 1 / 4 else 1 / 2) * (2 : ℚ) ^ b.exponent <
      d.value := by
    split
    · rename_i h
      exact hnarrow (hb.narrow.mp h).1
    · exact hlower
  rw [roundsTo_iff, hb.ends.1, hb.ends.2]
  split
  · exact ⟨hlow.le, hupper.le⟩
  · exact ⟨hlow, hupper⟩

/-! ## The search -/

/-- What is found on a grid rounds to the number. -/
theorem roundsTo_of_onGrid? {tie : Tie} {p : ℤ} {d : Unsigned} (h : onGrid? tie b p = some d) :
    roundsTo b d = true := by
  unfold onGrid? at h
  simp only at h
  split at h
  · rename_i hbelow habove
    split at h
    · cases h
      exact hbelow
    · split at h
      · cases h
        exact habove
      · cases tie with
        | upward =>
          cases h
          exact habove
        | toEven =>
          simp only at h
          split at h
          · cases h
            exact hbelow
          · cases h
            exact habove
  · rename_i hbelow _
    cases h
    exact hbelow
  · rename_i _ habove
    cases h
    exact habove
  · cases h

/-- The neighbour of the number on the grid of multiples of `10 ^ p`, from below. -/
def gridFloor (b : Binary) (p : ℤ) : ℕ :=
  let value := Fraction.scaled b.value 2 (b.exponent - 2)
  let unit := Fraction.scaled 1 10 p
  value.num * unit.den / (value.den * unit.num)

/-- A decimal is found when one of the two neighbours rounds to the number. -/
theorem onGrid?_isSome_iff {tie : Tie} {p : ℤ} : (onGrid? tie b p).isSome = true ↔
    roundsTo b ⟨gridFloor b p, p⟩ = true ∨ roundsTo b ⟨gridFloor b p + 1, p⟩ = true := by
  unfold onGrid? gridFloor
  simp only
  split
  · rename_i hbelow _
    simp only [hbelow, true_or, iff_true]
    split
    · rfl
    · split
      · rfl
      · cases tie with
        | upward => rfl
        | toEven => simp only; split <;> rfl
  · rename_i hbelow _
    simp [hbelow]
  · rename_i _ habove
    simp [habove]
  · rename_i hbelow habove
    simp [hbelow, habove]

/-- The number lies between its neighbours on a grid. -/
theorem gridFloor_bounds (b : Binary) (p : ℤ) :
    (gridFloor b p : ℚ) * 10 ^ p ≤ b.mantissa * 2 ^ b.exponent ∧
      (b.mantissa * 2 ^ b.exponent : ℚ) < (gridFloor b p + 1 : ℕ) * 10 ^ p := by
  have hvalue : 0 < (Fraction.scaled b.value 2 (b.exponent - 2)).den :=
    Fraction.scaled_den _ (by decide) _
  have hunit : ∀ n, 0 < ((Fraction.scaled 1 10 p).times n).den := fun _ =>
    Fraction.scaled_den _ (by decide) _
  have hgrid : ∀ n : ℕ, ((Fraction.scaled 1 10 p).times n).value = n * 10 ^ p := fun n => by
    rw [Fraction.value_times, Fraction.value_scaled 1 (by decide)]
    simp
  have hstep : 0 < (Fraction.scaled 1 10 p).num := Fraction.scaled_num (by decide) (by decide) p
  have hden := Nat.mul_pos hvalue hstep
  have hreorder : ∀ n : ℕ, n * (Fraction.scaled 1 10 p).num *
      (Fraction.scaled b.value 2 (b.exponent - 2)).den =
      n * ((Fraction.scaled b.value 2 (b.exponent - 2)).den * (Fraction.scaled 1 10 p).num) :=
    fun n => by ring
  rw [← hgrid, ← hgrid, ← Binary.value_scaled, Fraction.value_le_iff (hunit _) hvalue,
    Fraction.value_lt_iff hvalue (hunit _)]
  simp only [Fraction.times, hreorder]
  unfold gridFloor
  exact ⟨Nat.div_mul_le_self _ _, (Nat.div_lt_iff_lt_mul hden).mp (Nat.lt_succ_self _)⟩

/-- Seventeen digits are always enough. -/
theorem onGrid?_isSome (hb : b.Parts) (tie : Tie) {lead : ℤ}
    (hlead : (10 : ℚ) ^ lead ≤ b.mantissa * 2 ^ b.exponent) :
    (onGrid? tie b (lead - 16)).isSome := by
  obtain ⟨hbelow, habove⟩ := gridFloor_bounds b (lead - 16)
  have hpos : (0 : ℚ) < 2 ^ b.exponent := by positivity
  -- the spacing of the grid, against the last place of the number
  have hspacing : (10 : ℚ) ^ (lead - 16) * 10 ^ 16 ≤ b.mantissa * 2 ^ b.exponent := by
    refine le_trans (le_of_eq ?_) hlead
    rw [← zpow_natCast, ← zpow_add₀ (by norm_num)]
    norm_num
  have hm : (b.mantissa : ℚ) * 2 ^ b.exponent ≤ 2 ^ 53 * 2 ^ b.exponent :=
    mul_le_mul_of_nonneg_right (by exact_mod_cast hb.stored.lt.le) hpos.le
  rw [onGrid?_isSome_iff]
  rcases lt_or_ge (((gridFloor b (lead - 16) + 1 : ℕ) : ℚ) * 10 ^ (lead - 16))
    ((b.mantissa + 1 / 2) * 2 ^ b.exponent) with hinside | houtside
  · refine Or.inr (roundsTo_of_inside hb ?_ hinside fun _ => ?_)
    · exact lt_trans (mul_lt_mul_of_pos_right (by linarith) hpos) habove
    · exact lt_trans (mul_lt_mul_of_pos_right (by linarith) hpos) habove
  · -- the upper neighbour is too far away, so the lower one is near
    rw [Nat.cast_add, Nat.cast_one] at houtside
    refine Or.inl (roundsTo_of_inside hb ?_ ?_ fun hnarrow => ?_)
    · show _ < (gridFloor b (lead - 16) : ℚ) * 10 ^ (lead - 16)
      norm_num at hspacing hm
      linarith
    · exact lt_of_le_of_lt hbelow (mul_lt_mul_of_pos_right (by linarith) hpos)
    · show _ < (gridFloor b (lead - 16) : ℚ) * 10 ^ (lead - 16)
      have hhalf : (b.mantissa : ℚ) * 2 ^ b.exponent = 4503599627370496 * 2 ^ b.exponent := by
        rw [hnarrow]
        norm_num
      norm_num at hspacing
      linarith

/-- The digits without the zeros at their end. -/
theorem exists_replicate_zero (l : List Char) : ∃ init, l = init ++
    List.replicate (l.reverse.takeWhile (· = '0')).length '0' := by
  refine ⟨(l.reverse.dropWhile (· = '0')).reverse, ?_⟩
  have hzeros : l.reverse.takeWhile (· = '0') =
      List.replicate (l.reverse.takeWhile (· = '0')).length '0' := by
    refine List.eq_replicate_iff.mpr ⟨rfl, fun c hc => ?_⟩
    simpa using List.mem_takeWhile_imp hc
  rw [← List.reverse_replicate, ← hzeros, ← List.reverse_append, List.takeWhile_append_dropWhile,
    List.reverse_reverse]

/-- Zeros at the end are moved to the power of ten. -/
theorem value_trimmed (d : Unsigned) : d.trimmed.value = d.value := by
  unfold Unsigned.trimmed
  split
  · rename_i hzero
    simp [Unsigned.value, hzero]
  · obtain ⟨init, hinit⟩ := exists_replicate_zero (Nat.toDigits 10 d.digits)
    generalize ((Nat.toDigits 10 d.digits).reverse.takeWhile (· = '0')).length = zeros at hinit
    have hdigits : d.digits = 10 ^ zeros * Nat.ofDigitChars 10 init 0 := by
      rw [← Nat.ofDigitChars_replicate_zero, ← Nat.ofDigitChars_append, ← hinit,
        Nat.ofDigitChars_ten_toDigits]
    have hquotient : d.digits / Nat.pow 10 zeros = Nat.ofDigitChars 10 init 0 := by
      rw [hdigits]
      exact Nat.mul_div_cancel_left _ (by positivity)
    simp only [Unsigned.value, hquotient]
    rw [zpow_add₀ (by norm_num), zpow_natCast, hdigits]
    push_cast
    ring

/-- **The shortest decimal lies in the interval of its number.** -/
theorem shortest_nearest (hb : b.Parts) (tie : Tie) :
    Nearest b.mantissa b.exponent (shortest tie b).value := by
  have hpos : 0 < b.value := Nat.mul_pos (by decide) hb.stored.pos
  have hnum : 0 < (Fraction.scaled b.value 2 (b.exponent - 2)).num :=
    Fraction.scaled_num hpos (by decide) _
  have hlead := (leadingPower_spec hnum (Fraction.scaled_den _ (by decide) _)).1
  rw [Binary.value_scaled] at hlead
  unfold shortest
  rw [if_neg hb.stored.pos.ne']
  simp only
  rw [value_trimmed]
  generalize leadingPower (Fraction.scaled b.value 2 (b.exponent - 2)) = lead at hlead
  have hfound :
      (((List.range 17).map fun (n : ℕ) => lead - n).findSome? (onGrid? tie b)).isSome := by
    rw [List.findSome?_isSome_iff]
    exact ⟨lead - 16, List.mem_map.mpr ⟨16, by decide, rfl⟩, onGrid?_isSome hb tie hlead⟩
  obtain ⟨d, hd⟩ := Option.isSome_iff_exists.mp hfound
  obtain ⟨p, -, hp⟩ := List.exists_of_findSome?_eq_some hd
  rw [hd]
  exact nearest_of_roundsTo hb (roundsTo_of_onGrid? hp)

end Conic.Decimal
