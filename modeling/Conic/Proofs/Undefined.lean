import Conic.Proofs.Equality
import Conic.Vector

/-!
# The undefined number

A computation that takes in the undefined number ends in it. A comparison with it is false, so that
the undefined number is never taken for the larger one.

* `StrictScalar` — operations on the undefined number are undefined, and nothing is less than it or
  greater.
* `larger_zero`, `StrictScalar.foldl_larger_cases` — **what the maximum of a list with undefined
  numbers is.**
* `Vector.isNaN_maxAbs_iff` — the largest absolute value does not pass over them.
* `Binary64.unpack_pack_neg` — a floating-point number with the other sign.
-/

set_option autoImplicit false

namespace Conic

/-- Numbers whose operations are undefined where an operand is, and whose comparisons with the
undefined number are false. -/
class StrictScalar (α : Type) [RootScalar α] : Prop extends EqualityScalar α where
  isNaN_add : ∀ {a b : α}, Scalar.isNaN a = true ∨ Scalar.isNaN b = true →
    Scalar.isNaN (a + b) = true
  isNaN_sub : ∀ {a b : α}, Scalar.isNaN a = true ∨ Scalar.isNaN b = true →
    Scalar.isNaN (a - b) = true
  isNaN_mul : ∀ {a b : α}, Scalar.isNaN a = true ∨ Scalar.isNaN b = true →
    Scalar.isNaN (a * b) = true
  isNaN_sqrt : ∀ {a : α}, Scalar.isNaN a = true → Scalar.isNaN (RootScalar.sqrt a) = true
  defined_of_lt : ∀ {a b : α}, a < b → Scalar.isNaN b = false
  pos_trans : ∀ {a b : α}, 0 < a → a < b → 0 < b
  not_beq_zero : ∀ {a : α}, 0 < a → (a == 0) = false
  neg_pos_iff : ∀ {a : α}, 0 < -a ↔ a < 0
  not_neg_iff : ∀ {a : α}, ¬a < 0 ↔ 0 ≤ a ∨ Scalar.isNaN a = true
  not_pos_iff : ∀ {a : α}, ¬0 < a ↔ a ≤ 0 ∨ Scalar.isNaN a = true

namespace StrictScalar

variable {α : Type} [RootScalar α] [StrictScalar α]

/-! ## The largest number of a list -/

omit [StrictScalar α] in
theorem larger_of_defined {a : α} (ha : Scalar.isNaN a = false) (b : α) :
    larger a b = if a < b then b else a := by
  simp [larger, ha]

/-- Only a positive number is larger than zero. -/
theorem larger_zero (a : α) : larger 0 a = if 0 < a then a else 0 :=
  larger_of_defined EqualityScalar.isNaN_zero a

theorem larger_zero_pos_iff {a : α} : 0 < larger 0 a ↔ 0 < a := by
  rw [larger_zero]
  split
  · rfl
  · rename_i ha
    have hzero : ¬(0 : α) < 0 := fun h => by
      have hne := not_beq_zero h
      rw [EqualityScalar.beq_self_iff.mpr EqualityScalar.isNaN_zero] at hne
      cases hne
    exact iff_of_false hzero ha

/-- **The maximum is zero, or positive when some number is.** Undefined numbers do not count. -/
theorem foldl_larger_cases (l : List α) : l.foldl larger 0 = 0 ∧ (∀ a ∈ l, ¬0 < a) ∨
    0 < l.foldl larger 0 ∧ ∃ a ∈ l, 0 < a := by
  induction l using List.reverseRecOn with
  | nil => exact .inl ⟨rfl, fun _ ha => absurd ha List.not_mem_nil⟩
  | append_singleton l a ih =>
    rw [List.foldl_concat]
    obtain ⟨htop, hall⟩ | ⟨htop, b, hb, hpos⟩ := ih
    · rw [htop, larger_zero]
      by_cases ha : 0 < a
      · rw [if_pos ha]
        exact .inr ⟨ha, a, by simp, ha⟩
      · rw [if_neg ha]
        refine .inl ⟨rfl, fun c hc => ?_⟩
        obtain hc | rfl := by simpa using hc
        · exact hall c hc
        · exact ha
    · refine .inr ⟨?_, b, List.mem_append_left _ hb, hpos⟩
      rw [larger_of_defined (defined_of_lt htop)]
      split
      · exact pos_trans htop ‹_›
      · exact htop

theorem isNaN_foldl_larger (l : List α) : Scalar.isNaN (l.foldl larger 0) = false := by
  obtain ⟨htop, _⟩ | ⟨htop, _⟩ := foldl_larger_cases l
  · rw [htop]
    exact EqualityScalar.isNaN_zero
  · exact defined_of_lt htop

theorem foldl_larger_beq_zero_iff (l : List α) :
    (l.foldl larger 0 == 0) = true ↔ ∀ a ∈ l, ¬0 < a := by
  obtain ⟨htop, hall⟩ | ⟨htop, a, ha, hpos⟩ := foldl_larger_cases l
  · rw [htop]
    exact iff_of_true (EqualityScalar.beq_self_iff.mpr EqualityScalar.isNaN_zero) hall
  · rw [not_beq_zero htop]
    exact iff_of_false Bool.false_ne_true fun hall => hall a ha hpos

end StrictScalar

/-! ## Sums and norms -/

section

variable {α : Type} [RootScalar α] [StrictScalar α]

/-- A sum is undefined when it starts so or when a summand is. -/
theorem isNaN_foldl_add {β : Type} (f : β → α) {l : List β} {top : α}
    (h : Scalar.isNaN top = true ∨ ∃ b ∈ l, Scalar.isNaN (f b) = true) :
    Scalar.isNaN (l.foldl (fun sum b => sum + f b) top) = true := by
  induction l generalizing top with
  | nil => simpa using h
  | cons b l ih =>
    refine ih ?_
    obtain htop | ⟨c, hc, hnan⟩ := h
    · exact .inl (StrictScalar.isNaN_add (.inl htop))
    · obtain rfl | hc := List.mem_cons.mp hc
      · exact .inl (StrictScalar.isNaN_add (.inr hnan))
      · exact .inr ⟨c, hc, hnan⟩

namespace Vector

theorem isNaN_squaredLength {x : List α} (h : ∃ a ∈ x, Scalar.isNaN a = true) :
    Scalar.isNaN (squaredLength x) = true := by
  obtain ⟨a, ha, hnan⟩ := h
  exact isNaN_foldl_add (fun a => a * a) (.inr ⟨a, ha, StrictScalar.isNaN_mul (.inl hnan)⟩)

/-- **The largest absolute value is undefined exactly if a number of the list is.** -/
theorem isNaN_maxAbs_iff (x : List α) :
    Scalar.isNaN (maxAbs x) = true ↔ ∃ a ∈ x, Scalar.isNaN a = true := by
  unfold maxAbs
  split
  · rename_i a ha
    exact iff_of_true (List.find?_some ha) ⟨a, List.mem_of_find?_eq_some ha, List.find?_some ha⟩
  · rename_i hnone
    have hall : ¬∃ a ∈ x, Scalar.isNaN a = true := by simpa using List.find?_eq_none.mp hnone
    refine iff_of_false (fun hnan => ?_) hall
    -- A number takes the lead by a comparison, so that it is defined.
    suffices hfold : ∀ (l : List α) {top : α}, Scalar.isNaN top = false →
        Scalar.isNaN (l.foldl (fun top v => if top < Scalar.abs v then Scalar.abs v else top) top) =
          false by
      rw [hfold x EqualityScalar.isNaN_zero] at hnan
      cases hnan
    intro l
    induction l with
    | nil => exact fun htop => htop
    | cons v l ih =>
      intro top htop
      rw [List.foldl_cons]
      refine ih ?_
      split
      · rename_i hlt
        exact StrictScalar.defined_of_lt hlt
      · exact htop

end Vector

end

/-! ## Floating-point numbers -/

namespace Binary64

open Float.Model Float.Model.UnpackedFloat

theorem sign_packComponents (s : Sign) (e : BitVec 11) (m : BitVec 52) :
    Sign.ofBitVec (unpackSign (packComponents .binary64 s e m)) = s := by
  have hsign : unpackSign (packComponents .binary64 s e m) = s.toBitVec := by
    simp only [unpackSign, packComponents, BitVec.extractLsb]
    ext i hi
    grind
  rw [hsign]
  cases s <;> rfl

/-- **A number that was read and is stored with the other sign is read with the other sign.** -/
theorem unpack_pack_neg {b : BitVec Format.binary64.numBits} {u : UnpackedFloat}
    (hu : unpack .binary64 b = u) : unpack .binary64 (pack .binary64 u.neg) = u.neg := by
  rw [UnpackedFloat.unpack] at hu
  split at hu
  · split at hu
    · subst hu
      cases Sign.ofBitVec (unpackSign b) <;> rfl
    · subst hu
      rfl
  · rename_i hone
    split at hu
    · split at hu
      · subst hu
        cases Sign.ofBitVec (unpackSign b) <;> rfl
      · rename_i he hm
        rw [he] at hu
        subst hu
        have hpacked := pack_subnormal (-Sign.ofBitVec (unpackSign b)) hm
          (Nat.pos_of_ne_zero fun h => hm (BitVec.toNat_inj.mp h))
        refine (congrArg (unpack .binary64) hpacked).trans ?_
        rw [UnpackedFloat.unpack]
        simp only [unpackMantissa_packComponents, unpackExponent_packComponents,
          sign_packComponents]
        rw [if_neg (by decide), if_pos trivial, dif_neg hm]
        rfl
    · rename_i he
      subst hu
      have hpacked := pack_normal (-Sign.ofBitVec (unpackSign b)) (unpackMantissa b) hone
        (by rw [toNat_implicit]; omega)
      refine (congrArg (unpack .binary64) hpacked).trans ?_
      rw [UnpackedFloat.unpack]
      simp only [unpackMantissa_packComponents, unpackExponent_packComponents, sign_packComponents]
      rw [if_neg hone, if_neg he]
      rfl

theorem unpack_neg (a : Float) : (-a).toModel.unpack = a.toModel.unpack.neg :=
  unpack_pack_neg (b := a.toModel.toBits.toBitVec) rfl

theorem isNaN_iff {a : Float} : a.isNaN = true ↔ a.toModel.unpack = .notANumber := by
  show a.toModel.unpack.isNaN = true ↔ _
  cases a.toModel.unpack <;> simp [UnpackedFloat.isNaN]

theorem lt_iff {a b : Float} :
    a < b ↔ a.toModel.unpack.compare b.toModel.unpack = some .lt := by
  rw [← beq_iff_eq (a := a.toModel.unpack.compare b.toModel.unpack)]
  exact decide_eq_true_iff

theorem le_iff {a b : Float} :
    a ≤ b ↔ (a.toModel.unpack.compare b.toModel.unpack).any (·.isLE) = true :=
  decide_eq_true_iff

section

variable {a : Float}

theorem pos_iff : 0 < a ↔ (zero .positive).compare a.toModel.unpack = some .lt := lt_iff

theorem neg_iff : a < 0 ↔ a.toModel.unpack.compare (zero .positive) = some .lt := lt_iff

theorem nonneg_iff :
    0 ≤ a ↔ ((zero .positive).compare a.toModel.unpack).any (·.isLE) = true := le_iff

theorem nonpos_iff :
    a ≤ 0 ↔ (a.toModel.unpack.compare (zero .positive)).any (·.isLE) = true := le_iff

end

/-- A number is positive by its sign alone. -/
theorem zero_compare_iff {u : UnpackedFloat} : (zero .positive).compare u = some .lt ↔
    u = .infinity .positive ∨ ∃ m e hm, u = .finite .positive m e hm := by
  cases u with
  | notANumber => simp [UnpackedFloat.compare]
  | infinity s => cases s <;> simp [UnpackedFloat.compare]
  | zero s => simp [UnpackedFloat.compare]
  | finite s m e hm => cases s <;> simp [UnpackedFloat.compare, hm]

/-- What exceeds a positive number is positive. -/
theorem zero_compare_trans {u v : UnpackedFloat} (hu : (zero .positive).compare u = some .lt)
    (huv : u.compare v = some .lt) : (zero .positive).compare v = some .lt := by
  obtain rfl | ⟨m, e, hm, rfl⟩ := zero_compare_iff.mp hu
  · cases v with
    | infinity s => cases s <;> cases huv
    | _ => cases huv
  · cases v with
    | notANumber | zero => cases huv
    | infinity s => cases s with
      | positive => rfl
      | negative => cases huv
    | finite s n f hn => cases s with
      | positive => rfl
      | negative => cases huv

theorem zero_compare_neg {u : UnpackedFloat} :
    (zero .positive).compare u.neg = some .lt ↔ u.compare (zero .positive) = some .lt := by
  cases u with
  | notANumber => exact Iff.rfl
  | infinity s => cases s <;> decide
  | zero s => exact Iff.rfl
  | finite s m e hm => cases s <;> simp [UnpackedFloat.neg, UnpackedFloat.compare]

/-- A number is negative, or at least zero, or undefined. -/
theorem not_compare_zero_iff {u : UnpackedFloat} : ¬u.compare (zero .positive) = some .lt ↔
    ((zero .positive).compare u).any (·.isLE) = true ∨ u = .notANumber := by
  cases u with
  | notANumber => simp [UnpackedFloat.compare]
  | infinity s => cases s <;> simp [UnpackedFloat.compare]
  | zero s => simp [UnpackedFloat.compare]
  | finite s m e hm => cases s <;> simp [UnpackedFloat.compare]

/-- A number is positive, or at most zero, or undefined. -/
theorem not_zero_compare_iff {u : UnpackedFloat} : ¬(zero .positive).compare u = some .lt ↔
    (u.compare (zero .positive)).any (·.isLE) = true ∨ u = .notANumber := by
  cases u with
  | notANumber => simp [UnpackedFloat.compare]
  | infinity s => cases s <;> simp [UnpackedFloat.compare]
  | zero s => simp [UnpackedFloat.compare]
  | finite s m e hm => cases s <;> simp [UnpackedFloat.compare]

theorem compare_notANumber (u : UnpackedFloat) : u.compare .notANumber = none := by
  cases u with
  | notANumber | zero => rfl
  | infinity s | finite s => cases s <;> rfl

theorem add_undefined {u v : UnpackedFloat} (h : u = .notANumber ∨ v = .notANumber) :
    UnpackedFloat.add .binary64 u v = .notANumber := by
  obtain rfl | rfl := h
  · rfl
  · cases u <;> rfl

theorem sub_undefined {u v : UnpackedFloat} (h : u = .notANumber ∨ v = .notANumber) :
    UnpackedFloat.sub .binary64 u v = .notANumber := by
  obtain rfl | rfl := h
  · rfl
  · cases u <;> rfl

theorem mul_undefined {u v : UnpackedFloat} (h : u = .notANumber ∨ v = .notANumber) :
    UnpackedFloat.mul .binary64 u v = .notANumber := by
  obtain rfl | rfl := h
  · rfl
  · cases u <;> rfl

/-- The undefined number is stored and read as such. -/
theorem isNaN_pack {u : UnpackedFloat} (hu : u = .notANumber) :
    (⟨Float.Model.pack u⟩ : Float).isNaN = true := by
  subst hu
  rfl

end Binary64

open Binary64 in
instance Scalar.strictFloat : StrictScalar Float where
  isNaN_add h := isNaN_pack (add_undefined (h.imp isNaN_iff.mp isNaN_iff.mp))
  isNaN_sub h := isNaN_pack (sub_undefined (h.imp isNaN_iff.mp isNaN_iff.mp))
  isNaN_mul h := isNaN_pack (mul_undefined (h.imp isNaN_iff.mp isNaN_iff.mp))
  isNaN_sqrt h := isNaN_pack (congrArg (Float.Model.UnpackedFloat.sqrt .binary64) (isNaN_iff.mp h))
  defined_of_lt {a b} hlt := by
    refine Bool.eq_false_iff.mpr fun hnan => ?_
    have hcompare := lt_iff.mp hlt
    rw [isNaN_iff.mp hnan, compare_notANumber] at hcompare
    cases hcompare
  pos_trans ha hab := pos_iff.mpr (zero_compare_trans (pos_iff.mp ha) (lt_iff.mp hab))
  not_beq_zero {a} ha := by
    refine Bool.eq_false_iff.mpr fun hequal => ?_
    have hcompare := compare_eq_symm (beq_iff.mp hequal)
    have hpos := (pos_iff.mp ha).symm.trans hcompare
    cases hpos
  neg_pos_iff {a} := by
    have hneg := zero_compare_neg (u := a.toModel.unpack)
    rw [← unpack_neg] at hneg
    exact (pos_iff.trans hneg).trans neg_iff.symm
  not_neg_iff := (not_congr neg_iff).trans
    (not_compare_zero_iff.trans (or_congr nonneg_iff.symm isNaN_iff.symm))
  not_pos_iff := (not_congr pos_iff).trans
    (not_zero_compare_iff.trans (or_congr nonpos_iff.symm isNaN_iff.symm))

end Conic
