import Conic.Proofs.Arithmetic
import Conic.Vector

/-!
# Real numbers

Real numbers with their square root are numbers as well. Over them a largest value is told by its
upper bounds.

* `RootScalar.instReal` — the real numbers; `Scalar.lawfulReal`.
* `foldl_larger_le_iff`, `Vector.maxAbs_le_iff` — **the upper bounds of the largest number and of the
  largest absolute value.**
-/

set_option autoImplicit false

namespace Conic

noncomputable instance RootScalar.instReal : RootScalar ℝ where
  toZero := Real.instZero
  toOne := Real.instOne
  toAdd := Real.instAdd
  toSub := Real.instSub
  toMul := Real.instMul
  toDiv := DivInvMonoid.toDiv
  toNeg := Real.instNeg
  toBEq := instBEqOfDecidableEq
  toLT := Real.instLT
  toLE := Real.instLE
  decidableLT := Real.decidableLT
  decidableLE := Real.decidableLE
  abs a := |a|
  isNaN _ := false
  isFinite _ := true
  sqrt := Real.sqrt

instance Scalar.lawfulReal : LawfulScalar ℝ where
  zero_add a := Or.inl (beq_iff_eq.mpr (zero_add a))
  zero_add_neg_one := zero_add (-1)
  lt_zero_iff _ := not_le.symm

variable {a b t : ℝ} {l k : List ℝ}

/-! ## The largest number -/

theorem larger_le_iff : larger a b ≤ t ↔ a ≤ t ∧ b ≤ t := by
  have hlarger : larger a b = if a < b then b else a := by
    simp [larger, Scalar.isNaN]
  rw [hlarger]
  split
  · rename_i hab
    exact ⟨fun hb => ⟨hab.le.trans hb, hb⟩, And.right⟩
  · rename_i hab
    exact ⟨fun ha => ⟨ha, (not_lt.mp hab).trans ha⟩, And.left⟩

theorem foldl_larger_le_iff : l.foldl larger a ≤ t ↔ a ≤ t ∧ ∀ b ∈ l, b ≤ t := by
  induction l generalizing a with
  | nil => simp
  | cons b l ih => rw [List.foldl_cons, ih, larger_le_iff, List.forall_mem_cons, and_assoc]

namespace Vector

/-- Without undefined numbers, the largest absolute value is the largest number of the absolute
values. -/
theorem maxAbs_eq (l : List ℝ) : maxAbs l = (l.map fun a => |a|).foldl larger 0 := by
  have hnone : l.find? Scalar.isNaN = none := List.find?_eq_none.mpr fun a _ => Bool.false_ne_true
  rw [maxAbs, hnone, List.foldl_map]
  simp only [larger, Scalar.isNaN, Bool.false_or, decide_eq_true_eq]
  rfl

/-- **The upper bounds of the largest absolute value.** -/
theorem maxAbs_le_iff : maxAbs l ≤ t ↔ 0 ≤ t ∧ ∀ a ∈ l, |a| ≤ t := by
  rw [maxAbs_eq, foldl_larger_le_iff, List.forall_mem_map]

/-- The largest absolute value is the least number that bounds all of them. -/
theorem isLeast_maxAbs (l : List ℝ) : IsLeast {t | 0 ≤ t ∧ ∀ a ∈ l, |a| ≤ t} (maxAbs l) :=
  ⟨maxAbs_le_iff.mp le_rfl, fun _ ht => maxAbs_le_iff.mpr ht⟩

theorem maxAbs_eq_zero_iff : maxAbs l = 0 ↔ ∀ a ∈ l, a = 0 := by
  have hnonneg : 0 ≤ maxAbs l := (maxAbs_le_iff.mp le_rfl).1
  rw [← hnonneg.ge_iff_eq', maxAbs_le_iff]
  simp only [abs_nonpos_iff, le_refl, true_and]

/-- Signs do not count. -/
theorem maxAbs_map_neg (l : List ℝ) : maxAbs (l.map fun a => -a) = maxAbs l := by
  refine eq_of_forall_ge_iff fun t => ?_
  simp only [maxAbs_le_iff, List.forall_mem_map, abs_neg]

end Vector

end Conic
