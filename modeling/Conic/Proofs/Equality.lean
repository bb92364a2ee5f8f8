import Mathlib.Data.List.Forall2
import Conic.Proofs.Arithmetic

/-!
# Equality of numbers

Numbers are compared by `==`. Over floating-point numbers this is neither reflexive, since the
undefined number is equal to nothing, nor does it only relate a number to itself, since the two
zeros are equal.

* `EqualityScalar` — `==` is symmetric and transitive, and a number is equal to itself unless it is
  undefined.
* `EqualityScalar.zero_add_beq` — equal numbers stay equal when they are added to zero.
* `Binary64.compare_eq_iff` — which floating-point numbers are equal.
* `beq_list_iff`, `beq_array_iff` — lists and arrays are compared place by place.
-/

set_option autoImplicit false

namespace Conic

/-- Numbers whose comparison is an equality as far as they are defined. -/
class EqualityScalar (α : Type) [Scalar α] : Prop extends LawfulScalar α, PartialEquivBEq α where
  beq_self_iff : ∀ {a : α}, (a == a) = true ↔ Scalar.isNaN a = false
  isNaN_zero : Scalar.isNaN (0 : α) = false
  isNaN_neg_one : Scalar.isNaN (-1 : α) = false

namespace EqualityScalar

variable {α : Type} [Scalar α] [EqualityScalar α] {a b : α}

/-- Whatever is equal to a number is defined. -/
theorem isNaN_of_beq (h : (a == b) = true) : Scalar.isNaN b = false :=
  beq_self_iff.mp (BEq.trans (BEq.symm h) h)

/-- Adding to zero keeps what a defined number is equal to. -/
theorem zero_add_beq_self (h : Scalar.isNaN a = false) : (0 + a == a) = true := by
  rcases LawfulScalar.zero_add a with hequal | ⟨_, hnan⟩
  · exact hequal
  · rw [h] at hnan
    cases hnan

/-- Equal numbers stay equal when they are added to zero. -/
theorem zero_add_beq (h : (a == b) = true) : (0 + a == 0 + b) = true :=
  have ha : (0 + a == a) = true := zero_add_beq_self (isNaN_of_beq (BEq.symm h))
  have hb : (0 + b == b) = true := zero_add_beq_self (isNaN_of_beq h)
  BEq.trans (BEq.trans ha h) (BEq.symm hb)

end EqualityScalar

instance Scalar.equalityRat : EqualityScalar ℚ where
  symm h := beq_iff_eq.mpr (beq_iff_eq.mp h).symm
  trans hab hbc := beq_iff_eq.mpr ((beq_iff_eq.mp hab).trans (beq_iff_eq.mp hbc))
  beq_self_iff := by simp [Scalar.isNaN]
  isNaN_zero := rfl
  isNaN_neg_one := rfl

/-! ## Floating-point numbers -/

namespace Binary64

open Float.Model Float.Model.UnpackedFloat

/-- **Two numbers are equal if they are the same number, not the undefined one, or both zero.** -/
theorem compare_eq_iff {u v : UnpackedFloat} : u.compare v = some .eq ↔
    u.isNaN = false ∧ (u = v ∨ ∃ s t, u = .zero s ∧ v = .zero t) := by
  constructor
  · intro h
    cases u with
    | notANumber => cases h
    | infinity s => cases s <;> cases v with
      | infinity t => cases t <;> first | exact ⟨rfl, Or.inl rfl⟩ | cases h
      | _ => cases h
    | zero s => cases v with
      | zero t => exact ⟨rfl, Or.inr ⟨s, t, rfl, rfl⟩⟩
      | infinity t => cases t <;> cases h
      | finite t => cases t <;> cases h
      | notANumber => cases h
    | finite s m e hm => cases v with
      | finite t n f hn => cases s <;> cases t <;>
          simp_all [UnpackedFloat.compare, UnpackedFloat.isNaN, Ordering.then_eq_eq]
      | infinity t => cases s <;> cases t <;> cases h
      | zero t => cases s <;> cases h
      | notANumber => cases s <;> cases h
  · rintro ⟨hu, rfl | ⟨s, t, rfl, rfl⟩⟩
    · exact compare_self hu
    · rfl

theorem compare_eq_symm {u v : UnpackedFloat} (h : u.compare v = some .eq) :
    v.compare u = some .eq := by
  obtain ⟨hu, rfl | ⟨s, t, rfl, rfl⟩⟩ := compare_eq_iff.mp h
  · exact h
  · rfl

theorem compare_eq_trans {u v w : UnpackedFloat} (huv : u.compare v = some .eq)
    (hvw : v.compare w = some .eq) : u.compare w = some .eq := by
  obtain ⟨_, rfl | ⟨s, t, rfl, rfl⟩⟩ := compare_eq_iff.mp huv
  · exact hvw
  · obtain ⟨_, rfl | ⟨_, t', _, rfl⟩⟩ := compare_eq_iff.mp hvw <;> rfl

theorem beq_iff {a b : Float} :
    (a == b) = true ↔ a.toModel.unpack.compare b.toModel.unpack = some .eq := by
  rw [← beq_iff_eq (a := a.toModel.unpack.compare b.toModel.unpack)]
  rfl

end Binary64

instance Scalar.equalityFloat : EqualityScalar Float where
  symm h := Binary64.beq_iff.mpr (Binary64.compare_eq_symm (Binary64.beq_iff.mp h))
  trans hab hbc := Binary64.beq_iff.mpr
    (Binary64.compare_eq_trans (Binary64.beq_iff.mp hab) (Binary64.beq_iff.mp hbc))
  beq_self_iff {a} := by
    rw [Binary64.beq_iff, Binary64.compare_eq_iff]
    exact ⟨And.left, fun h => ⟨h, Or.inl rfl⟩⟩
  isNaN_zero := rfl
  isNaN_neg_one := rfl

/-! ## Lists and arrays -/

variable {α : Type} [BEq α]

theorem beq_list_iff {xs ys : List α} :
    (xs == ys) = true ↔ List.Forall₂ (fun a b => (a == b) = true) xs ys := by
  induction xs generalizing ys with
  | nil => cases ys <;> simp
  | cons a xs ih => cases ys <;> simp [ih]

theorem beq_array_iff {xs ys : Array α} :
    (xs == ys) = true ↔ List.Forall₂ (fun a b => (a == b) = true) xs.toList ys.toList := by
  rw [← beq_list_iff]
  exact iff_of_eq (congrArg (· = true) (Array.beq_toList xs ys).symm)

end Conic
