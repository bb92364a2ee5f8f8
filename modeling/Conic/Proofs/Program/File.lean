import Conic.Program.File
import Conic.Proofs.Json.Containers
import Conic.Proofs.Json.Floats
import Conic.Proofs.Program.WellFormed

/-!
# Saving and loading

A program survives being saved when its numbers do: what is loaded is the same program, with every
list in its order. How numbers are written is a parameter; a codec for them need only bring back
the finite ones and refuse what it wrote for the others.

* `Program.numbers` — all numbers that a program holds.
* `Program.Addressable` — positions fit into 64 bits.
* `Program.codec_faithful` — **a program is read from its text exactly when all its numbers are.**
-/

set_option autoImplicit false

namespace Conic

open Json Codec

variable {α : Type} {number : Codec α} {finite : α → Prop}

theorem VarId.codec_faithful : VarId.codec.Faithful fun v => v.index < 2 ^ 64 :=
  index_faithful.map fun _ => rfl

theorem ConeId.codec_faithful : ConeId.codec.Faithful fun k => k.index < 2 ^ 64 :=
  index_faithful.map fun _ => rfl

theorem ConstraintId.codec_faithful : ConstraintId.codec.Faithful fun c => c.index < 2 ^ 64 :=
  index_faithful.map fun _ => rfl

/-- A cone comes back with its kind and its members in order. -/
theorem Cone.codec_faithful : Cone.codec.Faithful fun k => ∀ v ∈ k.members, v.index < 2 ^ 64 := by
  have hvariable : Quoted.Plain "variable" := by decide
  have hvariables : Quoted.Plain "variables" := by decide
  have hsingle := single_faithful hvariable VarId.codec_faithful
  have hmany := single_faithful hvariables (list_faithful VarId.codec_faithful)
  constructor
  · intro k
    cases k <;> exact ⟨'\x7b', _, rfl, by decide, by decide⟩
  · intro k rest _
    simp only [Cone.codec]
    cases k with
    | nonneg v =>
      have plain : Quoted.Plain "NonnegativeOrthant" := by decide
      have hread := (hsingle.yields v (.curly rest)).wrap Cone.nonneg
      exact (tagged_yields plain (if_pos rfl) hread).congr (by simp [Cone.members])
    | secondOrder vs =>
      have plain : Quoted.Plain "SecondOrder" := by decide
      have hread := (hmany.yields vs (.curly rest)).wrap Cone.secondOrder
      exact (tagged_yields plain rfl hread).congr (by simp [Cone.members])

/-- What a variable needs for coming back. -/
def Variable.Kept (finite : α → Prop) (x : Variable α) : Prop :=
  x.cone.index < 2 ^ 64 ∧ finite x.cost ∧ finite x.reducedCost ∧
    ∀ c ∈ x.constraints, c.index < 2 ^ 64

theorem Variable.codec_faithful (hn : number.Faithful finite) :
    (Variable.codec number).Faithful (Variable.Kept finite) := by
  unfold Variable.codec
  refine ((record_faithful <|
    .field (by decide) (by simp [Fields.names]) ConeId.codec_faithful <|
    .field (by decide) (by simp [Fields.names]) hn <|
    .field (by decide) (by simp [Fields.names]) hn <|
    .field (by decide) (by simp [Fields.names]) (list_faithful ConstraintId.codec_faithful)
      .done).map fun _ => rfl).congr fun x => ?_
  simp [Variable.Kept]

/-- Terms come back in their order, because no variable stands twice. -/
theorem Terms.codec_faithful (hn : number.Faithful finite) :
    (Terms.codec number).Faithful fun t => ∀ u ∈ t.toList, u.1.index < 2 ^ 64 ∧ finite u.2 :=
  (list_faithful (pair_faithful VarId.codec_faithful hn)).map fun t =>
    Terms.ext (Terms.toList_ofList t.nodup)

/-- What a constraint needs for coming back. -/
def Constraint.Kept (finite : α → Prop) (row : Constraint α) : Prop :=
  (∀ u ∈ row.terms.toList, u.1.index < 2 ^ 64 ∧ finite u.2) ∧ finite row.rhs ∧
    finite row.multiplier

theorem Constraint.codec_faithful (hn : number.Faithful finite) :
    (Constraint.codec number).Faithful (Constraint.Kept finite) := by
  unfold Constraint.codec
  refine ((record_faithful <|
    .field (by decide) (by simp [Fields.names]) (Terms.codec_faithful hn) <|
    .field (by decide) (by simp [Fields.names]) hn <|
    .field (by decide) (by simp [Fields.names]) hn .done).map fun _ => rfl).congr fun row => ?_
  simp [Constraint.Kept]

namespace Program

/-- What a program needs for coming back. -/
structure Kept (finite : α → Prop) (p : Program α) : Prop where
  vars : ∀ x ∈ p.vars, x.Kept finite
  cones : ∀ k ∈ p.cones, ∀ v ∈ k.members, v.index < 2 ^ 64
  constraints : ∀ row ∈ p.constraints, row.Kept finite
  point : ∀ a ∈ p.point, finite a

/-- A program comes back exactly when its numbers and handles do. -/
theorem codec_faithful (hn : number.Faithful finite) :
    (Program.codec number).Faithful (Kept finite) := by
  unfold Program.codec
  refine ((record_faithful <|
    .field (by decide) (by simp [Fields.names]) (list_faithful (Variable.codec_faithful hn)) <|
    .field (by decide) (by simp [Fields.names]) (list_faithful Cone.codec_faithful) <|
    .field (by decide) (by simp [Fields.names]) (list_faithful (Constraint.codec_faithful hn)) <|
    .field (by decide) (by simp [Fields.names]) (list_faithful hn) .done).map
      fun _ => rfl).congr fun p => ?_
  constructor
  · rintro ⟨hvars, hcones, hconstraints, hpoint, -⟩
    exact ⟨by simpa using hvars, by simpa using hcones, by simpa using hconstraints,
      by simpa using hpoint⟩
  · rintro ⟨hvars, hcones, hconstraints, hpoint⟩
    exact ⟨by simpa using hvars, by simpa using hcones, by simpa using hconstraints,
      by simpa using hpoint, trivial⟩

/-- All numbers that a program holds. -/
def numbers (p : Program α) : List α :=
  p.vars.toList.flatMap (fun x => [x.cost, x.reducedCost]) ++
    p.constraints.toList.flatMap
      (fun row => row.terms.toList.map Prod.snd ++ [row.rhs, row.multiplier]) ++
    p.point.toList

/-- Positions of a program fit into 64 bits. -/
structure Addressable (p : Program α) : Prop where
  vars : p.vars.size ≤ 2 ^ 64
  cones : p.cones.size ≤ 2 ^ 64
  constraints : p.constraints.size ≤ 2 ^ 64

/-- A list of numbers is finite when its parts are. -/
theorem forall_mem_numbers {p : Program α} : (∀ a ∈ p.numbers, finite a) ↔
    (∀ x ∈ p.vars, finite x.cost ∧ finite x.reducedCost) ∧
    (∀ row ∈ p.constraints, (∀ u ∈ row.terms.toList, finite u.2) ∧ finite row.rhs ∧
      finite row.multiplier) ∧ ∀ a ∈ p.point, finite a := by
  simp only [numbers, List.forall_mem_append, List.forall_mem_flatMap, List.forall_mem_map,
    List.forall_mem_cons, List.not_mem_nil, Array.mem_toList_iff, and_assoc]
  simp only [false_implies, implies_true, and_true]

theorem Kept.numbers {p : Program α} (h : p.Kept finite) : ∀ a ∈ p.numbers, finite a :=
  forall_mem_numbers.mpr
    ⟨fun x hx => ⟨(h.vars x hx).2.1, (h.vars x hx).2.2.1⟩,
      fun row hrow => ⟨fun u hu => ((h.constraints row hrow).1 u hu).2, (h.constraints row hrow).2⟩,
      h.point⟩

/-- The handles of a consistent program are positions in it. -/
theorem WellFormed.kept {p : Program α} (h : p.WellFormed) (haddr : p.Addressable)
    (hfin : ∀ a ∈ p.numbers, finite a) : p.Kept finite := by
  obtain ⟨hvars, hconstraints, hpoint⟩ := forall_mem_numbers.mp hfin
  have hvar : ∀ {v : VarId}, (∃ x, p.var? v = some x) → v.index < 2 ^ 64 := fun ⟨_, hx⟩ =>
    Nat.lt_of_lt_of_le (Array.getElem?_eq_some_iff.mp hx).1 haddr.vars
  constructor
  · intro x hx
    obtain ⟨i, hi, rfl⟩ := Array.mem_iff_getElem.mp hx
    have hx : p.var? ⟨i⟩ = some p.vars[i] := Array.getElem?_eq_getElem hi
    obtain ⟨cone, hcone, -⟩ := h.listed hx
    refine ⟨Nat.lt_of_lt_of_le (Array.getElem?_eq_some_iff.mp hcone).1 haddr.cones,
      (hvars _ (Array.getElem_mem hi)).1, (hvars _ (Array.getElem_mem hi)).2, fun c hc => ?_⟩
    obtain ⟨row, hrow, -⟩ := (h.recorded c hx).mp hc
    exact Nat.lt_of_lt_of_le (Array.getElem?_eq_some_iff.mp hrow).1 haddr.constraints
  · intro k hk v hv
    obtain ⟨i, hi, rfl⟩ := Array.mem_iff_getElem.mp hk
    obtain ⟨x, hx, -⟩ := h.owned (k := ⟨i⟩) (Array.getElem?_eq_getElem hi) hv
    exact hvar ⟨x, hx⟩
  · intro row hrow
    refine ⟨fun u hu => ⟨hvar ?_, (hconstraints row hrow).1 u hu⟩, (hconstraints row hrow).2⟩
    obtain ⟨i, hi, rfl⟩ := Array.mem_iff_getElem.mp hrow
    exact h.term_var (c := ⟨i⟩) (Array.getElem?_eq_getElem hi)
      (Terms.mem_vars_iff.mpr ⟨u.2, hu⟩)
  · exact hpoint

/-! ## Files -/

theorem loadBytes_toUTF8 (number : Codec α) (text : String) :
    loadBytes number text.toUTF8 = load number text := by
  have htext : String.fromUTF8? text.toUTF8 = some text := by
    simp only [String.fromUTF8?, String.toUTF8_eq_toByteArray, dif_pos text.isValidUTF8]
    rfl
  simp only [loadBytes, htext]

/-- A consistent program is loaded as it was saved. -/
theorem load_save {p : Program α} (hn : number.Faithful finite) (hcons : p.consistent = true)
    (hkept : p.Kept finite) : load number (save number p) = .ok p := by
  have hnone : p.inconsistency? = none := Option.isNone_iff_eq_none.mp hcons
  simp only [load, save, ((codec_faithful hn).readAll p).1 hkept, hnone]

/-- A program that cannot come back is not loaded at all. -/
theorem load_save_error {p : Program α} (hn : number.Faithful finite) (hlost : ¬p.Kept finite) :
    ∃ fault, load number (save number p) = .error (.text fault) := by
  obtain ⟨fault, hfault⟩ := ((codec_faithful hn).readAll p).2 hlost
  exact ⟨fault, by simp only [load, save, hfault]⟩

/-- Whatever is loaded is the program that was saved. -/
theorem eq_of_load_save {p q : Program α} (hn : number.Faithful finite)
    (hload : load number (save number p) = .ok q) : q = p := by
  by_cases hkept : p.Kept finite
  · simp only [load, save, ((codec_faithful hn).readAll p).1 hkept] at hload
    split at hload
    · cases hload
    · cases hload
      rfl
  · obtain ⟨fault, hfault⟩ := load_save_error hn hkept
    rw [hfault] at hload
    cases hload

/-- **Saving and loading a program is lossless.** A consistent program with finite numbers is loaded
as it was saved, with every list in its order and every number to the last bit; a program that
holds another number is not loaded at all; and nothing is ever loaded but what was saved. -/
theorem loadBytes_save (p : Program Float) :
    (p.consistent = true → p.Addressable → (∀ a ∈ p.numbers, a.isFinite = true) →
      loadBytes .float (save .float p).toUTF8 = .ok p) ∧
    ((∃ a ∈ p.numbers, a.isFinite = false) →
      ∃ fault, loadBytes .float (save .float p).toUTF8 = .error (.text fault)) ∧
    ∀ q, loadBytes .float (save .float p).toUTF8 = .ok q → q = p := by
  rw [loadBytes_toUTF8]
  refine ⟨fun hcons haddr hfin => ?_, fun ⟨a, ha, hinfinite⟩ => ?_, fun q hq => ?_⟩
  · exact load_save float_faithful hcons
      ((consistent_iff_wellFormed.mp hcons).kept haddr hfin)
  · refine load_save_error float_faithful fun hkept => ?_
    have hfinite : a.isFinite = true := hkept.numbers a ha
    rw [hinfinite] at hfinite
    cases hfinite
  · exact eq_of_load_save float_faithful hq

/-- Terms, members and constraints out of order, a negative zero, and numbers far from one. -/
def unordered (x : Float) : Program Float where
  vars := #[⟨⟨1⟩, -0.0, 0.1, [⟨1⟩, ⟨0⟩]⟩, ⟨⟨0⟩, 5e-324, -2.5, []⟩, ⟨⟨0⟩, 0.0, 0.0, [⟨0⟩]⟩]
  cones := #[.secondOrder [⟨2⟩, ⟨1⟩], .nonneg ⟨0⟩]
  constraints := #[⟨Terms.ofList [(⟨2⟩, 1e300), (⟨0⟩, -1.0)], 0.3, -0.0⟩,
    ⟨Terms.ofList [(⟨0⟩, 123456789.125)], 1.0, 2.0⟩]
  point := #[x, 0.0, 1e22]

theorem loadBytes_save_unordered :
    loadBytes .float (save .float (unordered 0.5)).toUTF8 = .ok (unordered 0.5) ∧
      ∃ fault, loadBytes .float (save .float (unordered (1.0 / 0.0))).toUTF8 =
        .error (.text fault) :=
  ⟨(loadBytes_save (unordered 0.5)).1 (by decide +kernel) ⟨by decide, by decide, by decide⟩
    (by decide +kernel),
    (loadBytes_save (unordered (1.0 / 0.0))).2.1 (by decide +kernel)⟩

end Program

end Conic
