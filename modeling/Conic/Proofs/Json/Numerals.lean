import Mathlib
import Conic.Json.Codec
import Conic.Proofs.Json.Yielding

/-!
# Reading numerals

A numeral is read in stages, and each stage stops at the character with which the next one begins.

* `Numeral.text` — a numeral from its parts.
* `Numeral.run_text` — **its parts are what is read from it.**
* `Codec.index_faithful` — positions come back when they are below `2 ^ 64`.
-/

set_option autoImplicit false

namespace Conic.Json

open Reader

/-- No digit comes next. -/
def NoDigit (rest : List Char) : Prop :=
  ∀ c more, rest = c :: more → c.isDigit = false

theorem NoDigit.cons {c : Char} (hc : c.isDigit = false) (more : List Char) :
    NoDigit (c :: more) := by
  rintro d _ h
  cases h
  exact hc

theorem Delimits.noDigit {rest : List Char} (h : Delimits rest) : NoDigit rest := by
  cases h with
  | done => intro c more hc; cases hc
  | comma more => exact NoDigit.cons (by decide) more
  | square more => exact NoDigit.cons (by decide) more
  | curly more => exact NoDigit.cons (by decide) more

/-- Digits, and as many of them as there are. -/
theorem run_takeWhile_digits {ds rest : List Char} (hds : ∀ d ∈ ds, d.isDigit = true)
    (hrest : NoDigit rest) : (takeWhile Char.isDigit).run (ds ++ rest) = .ok (ds, rest) := by
  have hstop : rest.takeWhile Char.isDigit = [] ∧ rest.dropWhile Char.isDigit = rest := by
    cases rest with
    | nil => exact ⟨rfl, rfl⟩
    | cons c more => simp [hrest c more rfl]
  rw [run_takeWhile, List.takeWhile_append_of_pos hds, List.dropWhile_append_of_pos hds, hstop.1,
    hstop.2, List.append_nil]

namespace Numeral

variable {atEnd : TextFault} {rest : List Char}

theorem run_someDigits {ds : List Char} (hne : ds ≠ []) (hds : ∀ d ∈ ds, d.isDigit = true)
    (hrest : NoDigit rest) : (someDigits atEnd).run (ds ++ rest) = .ok (ds, rest) := by
  unfold someDigits
  rw [run_bind_of_ok (run_takeWhile_digits hds hrest)]
  simp [hne]

theorem run_wholeDigits {d : Char} {ds : List Char} (hds : ∀ e ∈ ds, e.isDigit = true)
    (hzero : d = '0' → ds = []) (hrest : NoDigit rest) :
    (wholeDigits d).run (ds ++ rest) = .ok (d :: ds, rest) := by
  unfold wholeDigits
  rw [run_bind_of_ok (run_takeWhile_digits hds hrest)]
  by_cases h : d = '0'
  · simp [h, hzero h]
  · simp [h]

/-- The decimal places with their point. -/
def placesText : Option (List Char) → List Char
  | none => []
  | some ds => '.' :: ds

theorem run_places {after : Option (List Char)} (hne : after ≠ some [])
    (hds : ∀ ds ∈ after, ∀ d ∈ ds, d.isDigit = true) (hdigit : NoDigit rest)
    (hpoint : rest.head? ≠ some '.') :
    (places atEnd).run (placesText after ++ rest) = .ok (after, rest) := by
  unfold places
  cases after with
  | none =>
    rw [placesText, List.nil_append, run_bind_of_ok (run_peek rest)]
    simp [hpoint]
  | some ds =>
    have hne : ds ≠ [] := fun h => hne (by rw [h])
    rw [placesText, List.cons_append, run_bind_of_ok (run_peek _)]
    simp only [List.head?_cons, beq_self_eq_true, if_true]
    rw [run_bind_of_ok (run_anyChar_cons _ _),
      run_bind_of_ok (run_someDigits hne (hds ds rfl) hdigit)]
    rfl

/-- The power of ten with its letter. -/
def powerText : Option Int → List Char
  | none => []
  | some p => 'e' :: Decimal.signedPower p

theorem isDigit_of_mem_digitsOf {n : Nat} {d : Char} (hd : d ∈ Decimal.digitsOf n) :
    d.isDigit = true :=
  Nat.isDigit_of_mem_toDigits (by decide) (by decide) hd

theorem ofDigitChars_digitsOf (n : Nat) : Nat.ofDigitChars 10 (Decimal.digitsOf n) 0 = n :=
  Nat.ofDigitChars_ten_toDigits

/-- The letter for a power of ten comes next, or nothing that continues a numeral. -/
theorem noDigit_powerText {power : Option Int} (h : NoDigit rest) :
    NoDigit (powerText power ++ rest) := by
  cases power with
  | none => exact h
  | some p => exact NoDigit.cons (by decide) _

theorem run_tenPower (power : Option Int) (h : Delimits rest) :
    (tenPower atEnd).run (powerText power ++ rest) = .ok (power, rest) := by
  unfold tenPower
  cases power with
  | none =>
    rw [powerText, List.nil_append, run_bind_of_ok (run_peek rest)]
    cases h <;> rfl
  | some p =>
    rw [powerText, Decimal.signedPower, List.cons_append, List.cons_append,
      run_bind_of_ok (run_peek _)]
    simp only [List.head?_cons, beq_self_eq_true, Bool.true_or, if_true]
    rw [run_bind_of_ok (run_anyChar_cons _ _), run_bind_of_ok (run_peek _)]
    have hdigits : (someDigits atEnd).run (Nat.toDigits 10 p.natAbs ++ rest) =
        .ok (Nat.toDigits 10 p.natAbs, rest) :=
      run_someDigits Nat.toDigits_ne_nil (fun d hd => isDigit_of_mem_digitsOf hd) h.noDigit
    by_cases hp : p < 0
    · have hsize : -(p.natAbs : Int) = p := by omega
      simp only [hp, if_true, List.head?_cons, beq_self_eq_true, Bool.true_or]
      rw [run_bind_of_ok (run_anyChar_cons _ _), Decimal.digitsOf, run_bind_of_ok hdigits,
        Nat.ofDigitChars_ten_toDigits, hsize, run_pure]
    · have hsize : (p.natAbs : Int) = p := by omega
      have hplus : (some '+' == some '-') = false := by decide
      simp only [hp, if_false, List.head?_cons, beq_self_eq_true, Bool.or_true, if_true, hplus,
        Bool.false_eq_true]
      rw [run_bind_of_ok (run_anyChar_cons _ _), Decimal.digitsOf, run_bind_of_ok hdigits,
        Nat.ofDigitChars_ten_toDigits, hsize, run_pure]

/-- A numeral from its sign, the digits before the point, the decimal places and the power of
ten. -/
def text (negative : Bool) (before : List Char) (after : Option (List Char))
    (power : Option Int) : List Char :=
  (if negative then ['-'] else []) ++ before ++ placesText after ++ powerText power

/-- The numeral with these parts. -/
def ofParts (negative : Bool) (before : List Char) (after : Option (List Char))
    (power : Option Int) : Numeral :=
  ⟨negative, Nat.ofDigitChars 10 (before ++ after.getD []) 0,
    power.getD 0 - (after.getD []).length, after.isNone && power.isNone⟩

/-- These are the digits of a numeral: there are some, without a superfluous zero in front, and
some after a point. -/
structure Proper (before : List Char) (after : Option (List Char)) : Prop where
  digit : ∀ d ∈ before ++ after.getD [], d.isDigit = true
  before_ne : before ≠ []
  zero : before.head? = some '0' → before = ['0']
  after_ne : after ≠ some []

theorem ne_of_isDigit {c d : Char} (hd : d.isDigit = true) (hc : c.isDigit = false) : d ≠ c := by
  rintro rfl
  rw [hd] at hc
  cases hc

theorem isBlank_of_isDigit {d : Char} (hd : d.isDigit = true) : isBlank d = false := by
  simp [isBlank, ne_of_isDigit (c := ' ') hd (by decide), ne_of_isDigit (c := '\t') hd (by decide),
    ne_of_isDigit (c := '\n') hd (by decide), ne_of_isDigit (c := '\r') hd (by decide)]

/-- A numeral begins with its sign or a digit. -/
theorem text_opens {before : List Char} {after : Option (List Char)} (h : Proper before after)
    (negative : Bool) (power : Option Int) : ∃ d more,
      text negative before after power = d :: more ∧ isBlank d = false ∧ d ≠ ']' := by
  obtain ⟨d, ds, rfl⟩ := List.exists_cons_of_ne_nil h.before_ne
  have hd : d.isDigit = true := h.digit d (by simp)
  cases negative with
  | true => exact ⟨'-', _, rfl, by decide, by decide⟩
  | false => exact ⟨d, _, rfl, isBlank_of_isDigit hd, ne_of_isDigit hd (by decide)⟩

/-- What follows the first digit, which stands alone when it is a zero. -/
theorem run_read {c d : Char} {ds start : List Char} {after : Option (List Char)}
    (h : Proper (d :: ds) after) (power : Option Int) (hrest : Delimits rest)
    (hfirst : (firstDigit atEnd c).run start =
      .ok (d, ds ++ (placesText after ++ (powerText power ++ rest)))) :
    (Numeral.read atEnd c).run start = .ok (ofParts (c == '-') (d :: ds) after power, rest) := by
  have hplace : ∀ e ∈ after.getD [], e.isDigit = true := fun e he =>
    h.digit e (List.mem_append_right _ he)
  have hpower : NoDigit (powerText power ++ rest) := noDigit_powerText hrest.noDigit
  have hpoint : (powerText power ++ rest).head? ≠ some '.' := by
    cases power with
    | some p => simp [powerText]
    | none => cases hrest <;> simp [powerText]
  have hnodigit : NoDigit (placesText after ++ (powerText power ++ rest)) := by
    cases after with
    | none => exact hpower
    | some es => exact NoDigit.cons (by decide) _
  have hwhole : (wholeDigits d).run (ds ++ (placesText after ++ (powerText power ++ rest))) =
      .ok (d :: ds, placesText after ++ (powerText power ++ rest)) :=
    run_wholeDigits (fun e he => h.digit e (List.mem_append_left _ (List.mem_cons_of_mem d he)))
      (fun hd => (List.cons.inj (h.zero (by rw [hd]; rfl))).2) hnodigit
  have hplaces : (places atEnd).run (placesText after ++ (powerText power ++ rest)) =
      .ok (after, powerText power ++ rest) :=
    run_places h.after_ne
      (fun es hes => by rw [Option.mem_def.mp hes] at hplace; exact hplace) hpower hpoint
  unfold Numeral.read
  rw [run_bind_of_ok hfirst, run_bind_of_ok hwhole, run_bind_of_ok hplaces,
    run_bind_of_ok (run_tenPower power hrest)]
  rfl

/-- The parts of a numeral are what is read from it. -/
theorem run_text {before : List Char} {after : Option (List Char)} (h : Proper before after)
    (negative : Bool) (power : Option Int) (hrest : Delimits rest) :
    Codec.numeral.run (text negative before after power ++ rest) =
      .ok (ofParts negative before after power, rest) := by
  obtain ⟨d, ds, rfl⟩ := List.exists_cons_of_ne_nil h.before_ne
  have hd : d.isDigit = true := h.digit d (by simp)
  unfold Codec.numeral
  cases negative with
  | true =>
    simp only [text, if_true, List.cons_append, List.nil_append, List.append_assoc]
    rw [run_bind_of_ok (run_token_cons (by decide) _)]
    refine run_read (c := '-') h power hrest ?_
    simp only [firstDigit, beq_self_eq_true, if_true]
    rw [run_bind_of_ok (run_peek _)]
    simp only [List.head?_cons]
    rw [run_bind_of_ok (run_anyChar_cons _ _)]
    simp [hd]
  | false =>
    have hminus : (d == '-') = false := beq_false_of_ne (ne_of_isDigit hd (by decide))
    simp only [text, Bool.false_eq_true, if_false, List.cons_append, List.nil_append,
      List.append_assoc]
    rw [run_bind_of_ok (run_token_cons (isBlank_of_isDigit hd) _)]
    simp only [starts, hminus, hd, Bool.or_true, if_true]
    have hfirst : (firstDigit .truncated d).run
        (ds ++ (placesText after ++ (powerText power ++ rest))) =
          .ok (d, ds ++ (placesText after ++ (powerText power ++ rest))) := by
      simp [firstDigit, hminus]
    rw [run_read h power hrest hfirst, hminus]

end Numeral

namespace Codec

/-- What is made of a numeral. -/
theorem numeralAs_yields {α : Type} {accept : Numeral → Option α} {text rest : List Char}
    {n : Numeral} {a : α} {kept : Prop} (hrun : numeral.run text = .ok (n, rest))
    (hok : kept → accept n = some a) (herror : ¬kept → accept n = none) :
    (numeralAs accept).Yields text kept a rest := by
  unfold numeralAs
  constructor
  · intro h
    rw [run_bind_of_ok hrun, hok h]
    rfl
  · intro h
    rw [run_bind_of_ok hrun, herror h]
    exact ⟨.malformed, rfl⟩

end Codec

namespace Numeral

/-- No positive number begins with a zero. -/
theorem head?_digitsOf {n : Nat} (hn : 0 < n) : (Decimal.digitsOf n).head? ≠ some '0' := by
  induction n using Nat.strongRecOn with
  | ind n ih =>
    unfold Decimal.digitsOf at ih ⊢
    rw [Nat.toDigits_eq_if (by decide)]
    split
    · simp [Nat.digitChar_eq_zero]
      omega
    · rw [List.head?_append, Option.or_of_isSome (by simp)]
      exact ih (n / 10) (Nat.div_lt_self hn (by decide)) (by omega)

/-- A whole number has the digits of a numeral. -/
theorem proper_digitsOf (n : Nat) : Proper (Decimal.digitsOf n) none where
  digit d hd := isDigit_of_mem_digitsOf (n := n) (by simpa using hd)
  before_ne := Nat.toDigits_ne_nil
  zero hzero := by
    rcases Nat.eq_zero_or_pos n with rfl | hn
    · rfl
    · exact absurd hzero (head?_digitsOf hn)
  after_ne := nofun

theorem text_digitsOf (n : Nat) :
    text false (Decimal.digitsOf n) none none = Decimal.digitsOf n := by
  simp [text, placesText, powerText]

end Numeral

/-- Positions come back when they are below `2 ^ 64`. -/
theorem Codec.index_faithful : Codec.index.Faithful (· < 2 ^ 64) := by
  have htext : ∀ n, index.write n = Numeral.text false (Decimal.digitsOf n) none none := fun n =>
    (Numeral.text_digitsOf n).symm
  refine ⟨fun n => ?_, fun n rest hrest => ?_⟩
  · rw [htext]
    exact Numeral.text_opens (Numeral.proper_digitsOf n) false none
  · have hindex : (Numeral.ofParts false (Decimal.digitsOf n) none none).index? =
        if n < 2 ^ 64 then some n else none := by
      simp only [Numeral.index?, Numeral.ofParts, Option.getD_none, List.append_nil,
        Numeral.ofDigitChars_digitsOf, Option.isNone_none, Bool.and_self, Bool.not_false,
        Bool.true_and, decide_eq_true_eq]
      rfl
    rw [htext]
    exact numeralAs_yields (Numeral.run_text (Numeral.proper_digitsOf n) false none hrest)
      (fun h => by rw [hindex, if_pos h]) fun h => by rw [hindex, if_neg h]

end Conic.Json
