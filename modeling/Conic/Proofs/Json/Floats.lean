import Mathlib
import Conic.Proofs.Decimal.Bits
import Conic.Proofs.Json.Numerals

/-!
# Numbers come back

The digits of the shortest decimal are laid out with or without an exponent; either way the numeral
that is read from them has the value of the decimal, and is therefore read as the number from which
it was written.

* `Numeral.value` — a numeral as a rational number, without its sign.
* `lay_written` — **the text of a decimal is a numeral of its value.**
* `Codec.float_faithful` — **a finite number is read from its text to the last bit, and nothing is
  read for the others.**
-/

set_option autoImplicit false

namespace Conic.Json

open Decimal

/-- The numeral as a rational number, without its sign. -/
def Numeral.value (n : Numeral) : ℚ := n.digits * 10 ^ n.power

/-- The text is that of a numeral with the given value. -/
def Written (text : List Char) (x : ℚ) : Prop :=
  ∃ (before : List Char) (after : Option (List Char)) (power : Option ℤ),
    text = Numeral.text false before after power ∧ Numeral.Proper before after ∧
      ∀ negative, (Numeral.ofParts negative before after power).value = x

variable {n : ℕ} {exponent power : ℤ}

theorem isDigit_of_mem_zeros {k : ℕ} {c : Char} (hc : c ∈ zeros k) : c.isDigit = true := by
  rw [List.eq_of_mem_replicate hc]
  rfl

theorem digitsOf_ne_nil (n : ℕ) : digitsOf n ≠ [] := Nat.toDigits_ne_nil

/-- Zeros after the digits multiply. -/
theorem ofDigitChars_zeros (n k : ℕ) :
    Nat.ofDigitChars 10 (digitsOf n ++ zeros k) 0 = 10 ^ k * n := by
  rw [Nat.ofDigitChars_append, Numeral.ofDigitChars_digitsOf, zeros, Nat.ofDigitChars_replicate_zero]

/-- Zeros in front of the digits change nothing. -/
theorem ofDigitChars_zeros_append (k n : ℕ) :
    Nat.ofDigitChars 10 (zeros k ++ digitsOf n) 0 = n := by
  rw [Nat.ofDigitChars_append, zeros, Nat.ofDigitChars_replicate_zero, mul_zero,
    Numeral.ofDigitChars_digitsOf]

/-- A whole number, with a point and a zero at its end. -/
theorem whole_written {k : ℕ} (h : 0 < n ∨ k = 0) :
    Written (digitsOf n ++ zeros k ++ ['.', '0']) (n * 10 ^ k) := by
  refine ⟨digitsOf n ++ zeros k, some ['0'], none, ?_, ⟨?_, ?_, ?_, nofun⟩, fun negative => ?_⟩
  · simp [Numeral.text, Numeral.placesText, Numeral.powerText]
  · intro c hc
    simp only [Option.getD_some, List.mem_append, List.mem_singleton] at hc
    rcases hc with (hc | hc) | rfl
    · exact Numeral.isDigit_of_mem_digitsOf hc
    · exact isDigit_of_mem_zeros hc
    · rfl
  · simp [digitsOf_ne_nil]
  · intro hzero
    rw [List.head?_append_of_ne_nil _ (digitsOf_ne_nil n)] at hzero
    rcases Nat.eq_zero_or_pos n with rfl | hn
    · rw [h.resolve_left (lt_irrefl 0)]
      rfl
    · exact absurd hzero (Numeral.head?_digitsOf hn)
  · have hdigits : digitsOf n ++ zeros k ++ ['0'] = digitsOf n ++ zeros (k + 1) := by
      rw [List.append_assoc, zeros, zeros, List.replicate_succ']
    simp only [Numeral.value, Numeral.ofParts, Option.getD_some, Option.getD_none, hdigits,
      ofDigitChars_zeros]
    rw [List.length_singleton, Nat.cast_one, zero_sub, zpow_neg_one, pow_succ]
    push_cast
    field_simp

/-- A point among the digits. -/
theorem point_written {places : ℕ} (hn : 0 < n) (hpos : 0 < places)
    (hlt : places < (digitsOf n).length) :
    Written ((digitsOf n).take ((digitsOf n).length - places) ++
      '.' :: (digitsOf n).drop ((digitsOf n).length - places)) (n * 10 ^ (-places : ℤ)) := by
  refine ⟨(digitsOf n).take ((digitsOf n).length - places),
    some ((digitsOf n).drop ((digitsOf n).length - places)), none, ?_, ⟨?_, ?_, ?_, ?_⟩,
    fun negative => ?_⟩
  · simp [Numeral.text, Numeral.placesText, Numeral.powerText]
  · intro c hc
    rw [Option.getD_some, List.take_append_drop] at hc
    exact Numeral.isDigit_of_mem_digitsOf hc
  · simp [digitsOf_ne_nil]
    omega
  · intro hzero
    rw [List.head?_take, if_neg (by omega)] at hzero
    exact absurd hzero (Numeral.head?_digitsOf hn)
  · simp
    omega
  · simp only [Numeral.value, Numeral.ofParts, Option.getD_some, Option.getD_none,
      List.take_append_drop, Numeral.ofDigitChars_digitsOf, List.length_drop]
    congr 2
    omega

/-- Zeros between the point and the digits. -/
theorem fraction_written {places : ℕ} (hle : (digitsOf n).length ≤ places) :
    Written ('0' :: '.' :: zeros (places - (digitsOf n).length) ++ digitsOf n)
      (n * 10 ^ (-places : ℤ)) := by
  refine ⟨['0'], some (zeros (places - (digitsOf n).length) ++ digitsOf n), none, ?_,
    ⟨?_, ?_, fun _ => rfl, ?_⟩, fun negative => ?_⟩
  · simp [Numeral.text, Numeral.placesText, Numeral.powerText]
  · intro c hc
    simp only [Option.getD_some, List.mem_append, List.mem_singleton] at hc
    rcases hc with rfl | hc | hc
    · rfl
    · exact isDigit_of_mem_zeros hc
    · exact Numeral.isDigit_of_mem_digitsOf hc
  · exact List.cons_ne_nil _ _
  · simp [digitsOf_ne_nil]
  · have hdigits : ['0'] ++ (zeros (places - (digitsOf n).length) ++ digitsOf n) =
        zeros (places - (digitsOf n).length + 1) ++ digitsOf n := rfl
    simp only [Numeral.value, Numeral.ofParts, Option.getD_some, Option.getD_none, hdigits,
      ofDigitChars_zeros_append, List.length_append]
    congr 2
    simp only [zeros, List.length_replicate]
    omega

/-- All digits, with zeros or a point among them. -/
theorem positionalText_written (h : 0 < n ∨ exponent = 0) :
    Written (positionalText true (digitsOf n) exponent) (n * 10 ^ exponent) := by
  unfold positionalText
  split
  · rename_i hnonneg
    obtain ⟨k, rfl⟩ := Int.eq_ofNat_of_zero_le hnonneg
    rw [zpow_natCast]
    exact whole_written (by simpa using h)
  · rename_i hneg
    obtain ⟨places, rfl⟩ := Int.exists_eq_neg_ofNat (le_of_not_ge hneg)
    simp only [neg_neg, Int.toNat_natCast]
    split
    · rename_i hlt
      exact point_written (h.resolve_right (by omega)) (by omega) hlt
    · rename_i hle
      exact fraction_written (not_lt.mp hle)

/-- One digit before the point, and the power of ten. -/
theorem exponentText_written (hn : 0 < n) :
    Written (exponentText (digitsOf n) (exponent + (digitsOf n).length - 1))
      (n * 10 ^ exponent) := by
  have hdigit : ∀ c ∈ digitsOf n, c.isDigit = true := fun c hc =>
    Numeral.isDigit_of_mem_digitsOf hc
  have hhead := Numeral.head?_digitsOf hn
  have hvalue := Numeral.ofDigitChars_digitsOf n
  revert hdigit hhead hvalue
  rcases hdigits : digitsOf n with - | ⟨d, - | ⟨c, rest⟩⟩
  · exact absurd hdigits (digitsOf_ne_nil n)
  · intro hdigit hhead hvalue
    refine ⟨[d], none, some exponent, ?_, ⟨by simpa using hdigit, by simp, ?_, nofun⟩,
      fun negative => ?_⟩
    · simp [exponentText, Numeral.text, Numeral.placesText, Numeral.powerText]
    · exact fun h => absurd h hhead
    · simp [Numeral.value, Numeral.ofParts, hvalue]
  · intro hdigit hhead hvalue
    refine ⟨[d], some (c :: rest), some (exponent + (d :: c :: rest).length - 1), ?_,
      ⟨by simpa using hdigit, by simp, ?_, by simp⟩, fun negative => ?_⟩
    · simp [exponentText, Numeral.text, Numeral.placesText, Numeral.powerText]
    · exact fun h => absurd h hhead
    · simp only [Numeral.value, Numeral.ofParts, Option.getD_some, List.singleton_append, hvalue]
      congr 2
      simp only [List.length_cons]
      omega

/-- **The text of a decimal is a numeral of its value.** -/
theorem lay_written {d : Unsigned} (hd : 0 < d.digits ∨ d.exponent = 0) :
    Written (Codec.numberLayout.lay d) d.value := by
  unfold Layout.lay
  simp only
  split
  · exact positionalText_written hd
  · rename_i hpower
    refine exponentText_written (Nat.pos_of_ne_zero fun hzero => hpower ?_)
    have hexponent : d.exponent = 0 := hd.resolve_left (by omega)
    rw [hzero, hexponent]
    rfl

/-! ## Reading -/

open Binary64 Float.Model Float.Model.UnpackedFloat

variable {m : ℕ} {e : ℤ}

/-- A positive numeral is read as the number in whose interval it lies. -/
theorem magnitude?_eq {x : Numeral} (hs : Stored m e) (hx : Nearest m e x.value) :
    x.magnitude? = some ⟨Float.Model.pack (.finite .positive m e hs.pos)⟩ := by
  have hpos : 0 < x.digits := hx.digits_pos hs
  obtain ⟨hlow, hhigh⟩ := hx.bounds hs
  obtain ⟨hdigitsLow, hdigitsHigh⟩ := digitCount_spec hpos
  have hten : (0 : ℚ) < 10 ^ x.power := by positivity
  have hmin : -400 < (digitCount x.digits : ℤ) + x.power := by
    refine ten_zpow_lt (lt_of_le_of_lt hlow ?_)
    rw [zpow_add₀ (by norm_num), zpow_natCast]
    exact mul_lt_mul_of_pos_right (by exact_mod_cast hdigitsHigh) hten
  have hmax : ((digitCount x.digits - 1 : ℕ) : ℤ) + x.power < 400 := by
    refine ten_zpow_lt (lt_of_le_of_lt ?_ hhigh)
    rw [zpow_add₀ (by norm_num), zpow_natCast]
    exact mul_le_mul_of_nonneg_right (by exact_mod_cast hdigitsLow) hten.le
  have hfinite : (⟨Float.Model.pack (.finite .positive m e hs.pos)⟩ : Float).isFinite = true := by
    show ((Float.Model.pack (.finite .positive m e hs.pos)).unpack).isFinite = true
    rw [unpack_pack _ hs]
    rfl
  unfold Numeral.magnitude?
  simp only
  rw [if_neg (by omega), if_neg (by omega), ofScientific_eq hs hx, if_pos hfinite]

/-- A numeral is read as the number in whose interval it lies, with its sign. -/
theorem toFloat?_eq {x : Numeral} {s : Sign} (hs : Stored m e) (hx : Nearest m e x.value)
    (hsign : x.negative = (s == .negative)) :
    x.toFloat? = some ⟨Float.Model.pack (.finite s m e hs.pos)⟩ := by
  unfold Numeral.toFloat?
  rw [magnitude?_eq hs hx, Option.map_some, hsign]
  cases s with
  | positive => rfl
  | negative =>
    have hneg : -(⟨Float.Model.pack (.finite .positive m e hs.pos)⟩ : Float) =
        ⟨Float.Model.pack (Float.Model.pack (.finite .positive m e hs.pos)).unpack.neg⟩ := rfl
    rw [unpack_pack _ hs] at hneg
    exact congrArg some hneg

/-- A numeral without value is read as zero, with its sign. -/
theorem toFloat?_zero {x : Numeral} {s : Sign} (hx : x.value = 0)
    (hsign : x.negative = (s == .negative)) :
    x.toFloat? = some ⟨Float.Model.pack (.zero s)⟩ := by
  have hdigits : x.digits = 0 := by
    have hten : (10 : ℚ) ^ x.power ≠ 0 := by positivity
    exact_mod_cast (mul_eq_zero.mp hx).resolve_right hten
  unfold Numeral.toFloat? Numeral.magnitude?
  simp only [hdigits, true_or, if_true, Option.map_some, hsign]
  cases s <;> rfl

/-- A decimal with a sign, as it is written. -/
theorem text?_eq {a : Float} {b : Binary} (hb : Binary.ofBits? a.toBits = some b) {x : ℚ}
    (hx : Written (Codec.numberLayout.lay (shortest .toEven b)) x) :
    ∃ (before : List Char) (after : Option (List Char)) (power : Option ℤ),
      Codec.float.write a = Numeral.text b.negative before after power ∧
      Numeral.Proper before after ∧
      (Numeral.ofParts b.negative before after power).value = x := by
  obtain ⟨before, after, power, htext, hproper, hvalue⟩ := hx
  refine ⟨before, after, power, ?_, hproper, hvalue b.negative⟩
  have hlay : Codec.numberLayout.lay (shortest Codec.numberLayout.tie b) =
      Numeral.text false before after power := htext
  simp only [Codec.float, Layout.text?, hb, Option.map_some, Option.getD_some, hlay]
  cases b.negative <;> rfl

/-- The text of a finite number is a numeral that is read as this number. -/
theorem float_write_of_isFinite {a : Float} (ha : a.isFinite = true) :
    ∃ (before : List Char) (after : Option (List Char)) (power : Option ℤ) (negative : Bool),
      Codec.float.write a = Numeral.text negative before after power ∧
      Numeral.Proper before after ∧
      (Numeral.ofParts negative before after power).toFloat? = some a := by
  have hpack : (⟨Float.Model.pack a.toModel.unpack⟩ : Float) = a :=
    congrArg Float.ofModel (pack_unpack a.toModel)
  have hfinite : a.toModel.unpack.isFinite = true := ha
  cases hu : a.toModel.unpack with
  | notANumber | infinity =>
    rw [hu] at hfinite
    cases hfinite
  | zero s =>
    have hb : Binary.ofBits? a.toBits = some ⟨s == .negative, 0, -1074, false⟩ :=
      ofBits?_of_zero hu
    obtain ⟨before, after, power, htext, hproper, hvalue⟩ :=
      text?_eq hb (lay_written (d := ⟨0, 0⟩) (Or.inr rfl))
    refine ⟨before, after, power, _, htext, hproper, ?_⟩
    rw [toFloat?_zero (hvalue.trans (by simp [Unsigned.value])) rfl, ← hu, hpack]
  | finite s m e h =>
    obtain ⟨b, hb, hnegative, rfl, rfl, hparts⟩ := ofBits?_of_finite hu
    have hnearest := shortest_nearest hparts .toEven
    obtain ⟨before, after, power, htext, hproper, hvalue⟩ :=
      text?_eq hb (lay_written (Or.inl (hnearest.digits_pos hparts.stored)))
    refine ⟨before, after, power, _, htext, hproper, ?_⟩
    rw [toFloat?_eq hparts.stored (hvalue ▸ hnearest) hnegative, ← hu, hpack]

/-- The text of any other number is no numeral. -/
theorem float_write_of_not_isFinite {a : Float} (ha : a.isFinite = false) :
    Codec.float.write a = ['n', 'u', 'l', 'l'] := by
  have hbits : Binary.ofBits? a.toBits = none := ofBits?_of_not_isFinite ha
  simp only [Codec.float, Layout.text?, hbits, Option.map_none, Option.getD_none]

/-- **A finite number is read from its text to the last bit, and nothing is read for the
others.** -/
theorem Codec.float_faithful : Codec.float.Faithful fun a => a.isFinite = true := by
  refine ⟨fun a => ?_, fun a rest hrest => ?_⟩
  · rcases Bool.eq_false_or_eq_true a.isFinite with ha | ha
    · obtain ⟨before, after, power, negative, htext, hproper, -⟩ := float_write_of_isFinite ha
      rw [htext]
      exact Numeral.text_opens hproper negative power
    · rw [float_write_of_not_isFinite ha]
      exact ⟨'n', _, rfl, by decide, by decide⟩
  · rcases Bool.eq_false_or_eq_true a.isFinite with ha | ha
    · obtain ⟨before, after, power, negative, htext, hproper, hvalue⟩ := float_write_of_isFinite ha
      rw [htext]
      exact numeralAs_yields (Numeral.run_text hproper negative power hrest) (fun _ => hvalue)
        fun hn => absurd ha hn
    · rw [float_write_of_not_isFinite ha]
      refine ⟨fun hk => absurd hk (by rw [ha]; decide), fun _ => ?_⟩
      obtain ⟨fault, hfault⟩ : ∃ fault, (refuse 'n' : Reader Numeral).run
          (['u', 'l', 'l'] ++ rest) = .error fault := Reader.run_refuse 'n' _
      have hnumeral : numeral.run (['n', 'u', 'l', 'l'] ++ rest) = .error fault :=
        (Reader.run_bind_of_ok (Reader.run_token_cons (by decide) _) _).trans hfault
      exact ⟨fault, Reader.run_bind_of_error hnumeral _⟩

end Conic.Json
