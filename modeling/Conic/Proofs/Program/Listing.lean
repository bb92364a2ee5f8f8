import Conic.Program.File
import Conic.Proofs.Json.Restating
import Conic.Proofs.Program.StandardForm
import Conic.Proofs.Program.Undoing

/-!
# What a file lists

A file lists the terms of a constraint as pairs. Reading it puts them one after another, so that a
variable that is listed again keeps its first place and gets its last coefficient, and the check
that follows sees the outcome only. Entering the same pairs by operations is declined at the first
repetition.

* `Program.Listing` — a program as a file lists it, with `Program.Listing.codec`.
* `Program.load_eq` — **a file is read as what it lists, put together, and then checked.**
* `Program.enter` — pairs entered by operations, with `Program.enter_cases`.
* `Listing.Collapsed`, `Program.load_listed` — **what is left of the pairs that a file lists, and
  when nothing is lost.**
-/

set_option autoImplicit false

namespace Conic

open Json Codec

variable {α : Type}

/-! ## Listings -/

/-- A constraint as a file lists it. -/
structure Constraint.Listed (α : Type) where
  pairs : List (VarId × α)
  rhs : α
  multiplier : α

namespace Constraint.Listed

/-- The members of a constraint. -/
def codec (number : Codec α) : Codec (Listed α) :=
  (Codec.record <|
    .field "terms" (.list (.pair VarId.codec number)) none <|
    .field "constrained_value" number none <|
    .field "lagrange" number none .done).map
    (fun (pairs, rhs, multiplier, ()) => ⟨pairs, rhs, multiplier⟩)
    (fun row => (row.pairs, row.rhs, row.multiplier, ()))

/-- The constraint with its pairs put one after another. -/
def constraint (row : Listed α) : Constraint α :=
  ⟨Terms.ofList row.pairs, row.rhs, row.multiplier⟩

theorem codec_restates (number : Codec α) :
    (codec number).Restates constraint (Constraint.codec number) := by
  unfold codec Constraint.codec
  exact (record_restates <| .field (.field (.field .done (.refl number) _) (.refl number) _)
    (restates_map _ Terms.ofList Terms.toList) _).map fun _ => rfl

end Constraint.Listed

namespace Program

/-- A program as a file lists it. -/
structure Listing (α : Type) where
  vars : List (Variable α)
  cones : List Cone
  rows : List (Constraint.Listed α)
  point : List α

namespace Listing

/-- The members of a program. -/
def codec (number : Codec α) : Codec (Listing α) :=
  (Codec.record <|
    .field "variables" (.list (Variable.codec number)) none <|
    .field "cones" (.list Cone.codec) none <|
    .field "constraints" (.list (Constraint.Listed.codec number)) none <|
    .field "x" (.list number) none .done).map
    (fun (vars, cones, rows, point, ()) => ⟨vars, cones, rows, point⟩)
    (fun l => (l.vars, l.cones, l.rows, l.point, ()))

/-- The program with the pairs of each constraint put one after another. -/
def program (l : Listing α) : Program α :=
  ⟨l.vars.toArray, l.cones.toArray, (l.rows.map (·.constraint)).toArray, l.point.toArray⟩

theorem codec_restates (number : Codec α) :
    (codec number).Restates program (Program.codec number) := by
  unfold codec Program.codec
  exact (record_restates <| .field (.field (.field (.field .done (.refl _) _)
    (list_restates (Constraint.Listed.codec_restates number)) _) (.refl _) _) (.refl _) _).map
      fun _ => rfl

end Listing

/-- **A file is read as what it lists, put together, and then checked.** -/
theorem load_eq (number : Codec α) (text : String) : load number text =
    match (Listing.codec number).ofText text with
    | .error fault => .error (.text fault)
    | .ok l =>
      match l.program.inconsistency? with
      | some error => .error (.inconsistent error)
      | none => .ok l.program := by
  rw [load, (Listing.codec_restates number).ofText]
  cases (Listing.codec number).ofText text <;> rfl

end Program

/-! ## Pairs that are put together -/

namespace Terms

theorem vars_ofList (l : List (VarId × α)) : (ofList l).vars = (l.map Prod.fst).eraseDups := by
  induction l using List.reverseRecOn with
  | nil => rfl
  | append_singleton l t ih =>
    have hmem : t.1 ∈ (ofList l).vars ↔ t.1 ∈ l.map Prod.fst := by rw [ih, List.mem_eraseDups]
    rw [ofList_concat, vars_put, List.map_append, List.map_singleton, List.eraseDups_append]
    by_cases ht : t.1 ∈ l.map Prod.fst
    · have hnone : [t.1].removeAll (l.map Prod.fst) = [] :=
        List.filter_cons_of_neg (by simpa using ht)
      rw [if_pos (hmem.mpr ht), ih, hnone, List.eraseDups_nil, List.append_nil]
    · have hone : [t.1].removeAll (l.map Prod.fst) = [t.1] :=
        List.filter_cons_of_pos (by simpa using ht)
      rw [if_neg (mt hmem.mp ht), ih, hone]
      rfl

/-- The coefficient that is put last. -/
theorem coefficient?_ofList (l : List (VarId × α)) (v : VarId) :
    (ofList l).coefficient? v = l.reverse.lookup v := by
  induction l using List.reverseRecOn with
  | nil => rfl
  | append_singleton l t ih =>
    obtain ⟨u, a⟩ := t
    rw [ofList_concat, coefficient?_put, ih, List.reverse_append]
    by_cases hv : v = u
    · simp [hv]
    · simp [List.lookup_cons, hv, beq_eq_false_iff_ne.mpr hv]

/-- Nothing is lost exactly if no variable stands twice. -/
theorem toList_ofList_eq_iff {l : List (VarId × α)} :
    (ofList l).toList = l ↔ (l.map Prod.fst).Nodup :=
  ⟨fun h => h ▸ (ofList l).nodup, toList_ofList⟩

end Terms

namespace Program

variable {p : Program α} {c : ConstraintId} {v : VarId}

namespace Listing

/-- The pairs that are listed for a constraint. -/
def pairsOf (l : Listing α) (c : ConstraintId) : List (VarId × α) :=
  (l.rows[c.index]?.map (·.pairs)).getD []

theorem constraint?_program (l : Listing α) (c : ConstraintId) :
    l.program.constraint? c = l.rows[c.index]?.map (·.constraint) := by
  simp [program, constraint?]

theorem termsOf_program (l : Listing α) (c : ConstraintId) :
    l.program.termsOf c = (Terms.ofList (l.pairsOf c)).toList := by
  unfold termsOf pairsOf
  rw [constraint?_program]
  cases l.rows[c.index]? <;> rfl

theorem coefficient?_program (l : Listing α) (c : ConstraintId) (v : VarId) :
    l.program.coefficient? c v = (l.pairsOf c).reverse.lookup v := by
  rw [← Terms.coefficient?_ofList]
  unfold coefficient? pairsOf
  rw [constraint?_program]
  cases l.rows[c.index]? <;> rfl

end Listing

/-! ## Pairs that are entered -/

/-- The program without its terms. -/
def bare (p : Program α) : Program α :=
  { p with
    vars := p.vars.map fun x => { x with constraints := [] }
    constraints := p.constraints.map fun row => { row with terms := .empty } }

theorem var?_bare (p : Program α) (v : VarId) :
    p.bare.var? v = (p.var? v).map fun x => { x with constraints := [] } := by
  simp [bare, var?]

theorem constraint?_bare (p : Program α) (c : ConstraintId) :
    p.bare.constraint? c = (p.constraint? c).map fun row => { row with terms := .empty } := by
  simp [bare, constraint?]

theorem termsOf_bare (p : Program α) (c : ConstraintId) : p.bare.termsOf c = [] := by
  unfold termsOf
  rw [constraint?_bare]
  cases p.constraint? c <;> rfl

/-- Terms entered one after another. -/
def enter (p : Program α) (terms : List (ConstraintId × VarId × α)) :
    Checked Error (Program α) :=
  terms.foldlM (fun p t => p.addTerm t.1 t.2.1 t.2.2) p

/-- What is entered in one constraint. -/
def enteredIn (c : ConstraintId) (terms : List (ConstraintId × VarId × α)) :
    List (VarId × α) :=
  (terms.filter fun t => t.1 = c).map Prod.snd

theorem termsOf_withTerm {row : Constraint α} (hrow : p.constraint? c = some row)
    (hv : v ∉ row.terms.vars) (a : α) (d : ConstraintId) (terms : List (ConstraintId × VarId × α)) :
    (p.withTerm c v a).termsOf d ++ enteredIn d terms =
      p.termsOf d ++ enteredIn d ((c, v, a) :: terms) := by
  by_cases hd : c = d
  · subst hd
    have hnew : (p.withTerm c v a).termsOf c = row.terms.toList ++ [(v, a)] := by
      rw [termsOf, constraint?_withTerm hrow, Option.map_some, Option.getD_some,
        Terms.toList_put_of_not_mem hv]
    have hold : p.termsOf c = row.terms.toList := by
      rw [termsOf, hrow, Option.map_some, Option.getD_some]
    rw [hnew, hold]
    simp [enteredIn]
  · have hsame : (p.withTerm c v a).termsOf d = p.termsOf d := by
      rw [termsOf, withTerm, constraint?_rewired]
      simp [Ne.symm hd, termsOf]
    rw [hsame]
    simp [enteredIn, hd]

/-- Terms whose constraints and variables exist go to the end of their constraints, in their order,
unless one of them is a term on a variable that its constraint has already: the first such term is
declined. -/
theorem enter_cases {terms : List (ConstraintId × VarId × α)}
    (hrange : ∀ t ∈ terms, (∃ row, p.constraint? t.1 = some row) ∧ ∃ x, p.var? t.2.1 = some x) :
    (∃ q, p.enter terms = .ok q ∧ ∀ d, q.termsOf d = p.termsOf d ++ enteredIn d terms) ∨
    ∃ c v, p.enter terms = .error (.refused (.duplicateTerm c v)) ∧
      2 ≤ ((p.termsOf c ++ enteredIn c terms).map Prod.fst).count v := by
  induction terms generalizing p with
  | nil => exact .inl ⟨p, rfl, fun d => by simp [enteredIn]⟩
  | cons t terms ih =>
    obtain ⟨c, v, a⟩ := t
    obtain ⟨⟨row, hrow⟩, x, hx⟩ := hrange _ List.mem_cons_self
    cases hv : row.terms.coefficient? v with
    | none =>
      have hadd := addTerm_eq hrow hx hv a
      have hstep : p.enter ((c, v, a) :: terms) = (p.withTerm c v a).enter terms := by
        rw [enter, List.foldlM_cons, hadd]
        rfl
      have hnew : v ∉ row.terms.vars := Terms.coefficient?_eq_none_iff.mp hv
      have hkept : ∀ u ∈ terms, (∃ row, (p.withTerm c v a).constraint? u.1 = some row) ∧
          ∃ x, (p.withTerm c v a).var? u.2.1 = some x := fun u hu => by
        obtain ⟨⟨row', hrow'⟩, x', hx'⟩ := hrange u (List.mem_cons_of_mem _ hu)
        rw [withTerm, constraint?_rewired, var?_rewired, hrow', hx']
        exact ⟨⟨_, rfl⟩, _, rfl⟩
      have hlater := ih hkept
      simp only [termsOf_withTerm hrow hnew a] at hlater
      rwa [hstep]
    | some b =>
      have hmem : v ∈ row.terms.vars := Terms.mem_vars_iff_coefficient?.mpr ⟨b, hv⟩
      refine .inr ⟨c, v, ?_, ?_⟩
      · rw [enter, List.foldlM_cons, addTerm, hrow]
        simp [hmem]
      · have hold : 1 ≤ ((p.termsOf c).map Prod.fst).count v := by
          rw [termsOf, hrow]
          exact List.one_le_count_iff.mpr hmem
        have hnew : 1 ≤ ((enteredIn c ((c, v, a) :: terms)).map Prod.fst).count v :=
          List.one_le_count_iff.mpr (by simp [enteredIn])
        rw [List.map_append, List.count_append]
        omega

/-! ## What is left of the pairs -/

namespace Listing

/-- All terms that are listed, constraint by constraint. -/
def terms (l : Listing α) : List (ConstraintId × VarId × α) :=
  l.program.constraintIds.flatMap fun c => (l.pairsOf c).map (Prod.mk c)

theorem mem_terms_iff {l : Listing α} {t : ConstraintId × VarId × α} :
    t ∈ l.terms ↔ t.1 ∈ l.program.constraintIds ∧ t.2 ∈ l.pairsOf t.1 := by
  obtain ⟨c, t⟩ := t
  simp only [terms, List.mem_flatMap, List.mem_map, Prod.mk.injEq]
  constructor
  · rintro ⟨_, hc, _, ht, rfl, rfl⟩
    exact ⟨hc, ht⟩
  · rintro ⟨hc, ht⟩
    exact ⟨c, hc, t, ht, rfl, rfl⟩

theorem enteredIn_terms (l : Listing α) (c : ConstraintId) : enteredIn c l.terms = l.pairsOf c := by
  have hother : ∀ d ∈ l.program.constraintIds, d ≠ c →
      ((l.pairsOf d).map (Prod.mk d)).filter (fun t => t.1 = c) = [] := fun d _ hd => by
    simp [List.filter_map, hd]
  have hown : ((l.pairsOf c).map (Prod.mk c)).filter (fun t => t.1 = c) =
      (l.pairsOf c).map (Prod.mk c) :=
    List.filter_eq_self.mpr fun t ht => by
      obtain ⟨_, _, rfl⟩ := List.mem_map.mp ht
      simp
  unfold enteredIn terms
  rw [List.filter_flatMap]
  by_cases hc : c ∈ l.program.constraintIds
  · rw [flatMap_of_single l.program.constraintIds_nodup hc hother, hown]
    simp
  · have hnone : l.rows[c.index]? = none := by
      have hrow := mem_constraintIds_iff.not.mp hc
      rw [constraint?_program] at hrow
      cases hl : l.rows[c.index]? with
      | none => rfl
      | some row => exact absurd ⟨_, by rw [hl, Option.map_some]⟩ hrow
    rw [List.flatMap_eq_nil_iff.mpr fun d hd => hother d hd fun he => hc (he ▸ hd), pairsOf, hnone]
    rfl

/-- Whether no variable is listed twice for a constraint. -/
def Distinct (l : Listing α) : Prop :=
  ∀ c, ((l.pairsOf c).map Prod.fst).Nodup

/-- What is left of the pairs that are listed, and how entering them goes. -/
structure Collapsed (l : Listing α) : Prop where
  vars : ∀ c, (l.program.termsOf c).map Prod.fst = ((l.pairsOf c).map Prod.fst).eraseDups
  coefficient : ∀ c v, l.program.coefficient? c v = (l.pairsOf c).reverse.lookup v
  exact : ∀ c, l.program.termsOf c = l.pairsOf c ↔ ((l.pairsOf c).map Prod.fst).Nodup
  entered : l.Distinct → ∃ q, l.program.bare.enter l.terms = .ok q ∧
    ∀ c, q.termsOf c = l.program.termsOf c
  refused : ¬l.Distinct → ∃ c v, 2 ≤ ((l.pairsOf c).map Prod.fst).count v ∧
    l.program.bare.enter l.terms = .error (.refused (.duplicateTerm c v))

/-- The constraints and variables of all terms that are listed exist. -/
theorem range_terms {l : Listing α} (h : l.program.WellFormed) {t : ConstraintId × VarId × α}
    (ht : t ∈ l.terms) : (∃ row, l.program.bare.constraint? t.1 = some row) ∧
      ∃ x, l.program.bare.var? t.2.1 = some x := by
  obtain ⟨hc, hpair⟩ := mem_terms_iff.mp ht
  obtain ⟨row, hrow⟩ := mem_constraintIds_iff.mp hc
  have hv : t.2.1 ∈ row.terms.vars := by
    have hterms : row.terms.toList = (Terms.ofList (l.pairsOf t.1)).toList := by
      rw [← termsOf_program, termsOf, hrow, Option.map_some, Option.getD_some]
    rw [Terms.ext hterms, Terms.vars_ofList, List.mem_eraseDups]
    exact List.mem_map_of_mem hpair
  obtain ⟨x, hx⟩ := h.term_var hrow hv
  rw [constraint?_bare, var?_bare, hrow, hx]
  exact ⟨⟨_, rfl⟩, _, rfl⟩

theorem collapsed {l : Listing α} (h : l.program.WellFormed) : l.Collapsed := by
  have hcases := enter_cases fun _ => range_terms h
  simp only [termsOf_bare, enteredIn_terms, List.nil_append] at hcases
  have hexact : ∀ c, l.program.termsOf c = l.pairsOf c ↔ ((l.pairsOf c).map Prod.fst).Nodup :=
    fun c => by rw [termsOf_program, Terms.toList_ofList_eq_iff]
  constructor
  case vars => exact fun c => by rw [termsOf_program, ← Terms.vars_ofList, Terms.vars]
  case coefficient => exact l.coefficient?_program
  case exact => exact hexact
  case entered =>
    intro hdistinct
    obtain ⟨q, hq, hterms⟩ | ⟨c, v, _, hcount⟩ := hcases
    · exact ⟨q, hq, fun c => (hterms c).trans ((hexact c).mpr (hdistinct c)).symm⟩
    · have := List.nodup_iff_count_le_one.mp (hdistinct c) v
      omega
  case refused =>
    intro hrepeated
    obtain ⟨q, _, hterms⟩ | ⟨c, v, hq, hcount⟩ := hcases
    · exact absurd (fun c => hterms c ▸ q.keys_termsOf_nodup c) hrepeated
    · exact ⟨c, v, hcount, hq⟩

end Listing

/-- **A file that is accepted keeps one term for each variable that it lists for a constraint**: the
variable stands where it was listed first, with the coefficient that was listed last. Nothing is
lost exactly if no variable is listed twice, and only then can the terms be entered by operations
as they are listed. -/
theorem load_listed (number : Codec α) (text : String) (p : Program α) :
    load number text = .ok p ↔ ∃ l, (Listing.codec number).ofText text = .ok l ∧
      l.program = p ∧ p.consistent = true ∧ l.Collapsed := by
  rw [load_eq]
  cases (Listing.codec number).ofText text with
  | error fault => simp
  | ok l =>
    simp only [Except.ok.injEq, exists_eq_left']
    cases hcheck : l.program.inconsistency? with
    | some error =>
      simp only [reduceCtorEq, false_iff]
      rintro ⟨rfl, hp, _⟩
      simp [consistent, hcheck] at hp
    | none =>
      have hp : l.program.consistent = true := by simp [consistent, hcheck]
      constructor
      · rintro ⟨⟩
        exact ⟨rfl, hp, Listing.collapsed (consistent_iff_wellFormed.mp hp)⟩
      · rintro ⟨rfl, _⟩
        rfl

/-- A nonnegative variable, and a constraint that lists it twice. -/
def doubledTerm : String :=
  "\x7b\"variables\":[\x7b\"cone\":0,\"objective_coefficient\":0.0,\"dual_value\":0.0," ++
  "\"constraints\":[0]\x7d],\"cones\":[\x7b\"NonnegativeOrthant\":\x7b\"variable\":0\x7d\x7d]," ++
  "\"constraints\":[\x7b\"terms\":[[0,1.0],[0,2.0]],\"constrained_value\":0.0," ++
  "\"lagrange\":0.0\x7d],\"x\":[0.0]\x7d"

/-- **A file can be accepted although it lists a variable twice for a constraint.** The first of the
two pairs is lost then, and the terms cannot be entered by operations as they are listed. -/
theorem doubledTerm_load : ∃ (l : Listing Float) (p : Program Float),
    (Listing.codec .float).ofText doubledTerm = .ok l ∧ load .float doubledTerm = .ok p ∧
      (l.pairsOf ⟨0⟩).map (fun t => (t.1, t.2.toBits)) =
        [(⟨0⟩, 0x3ff0000000000000), (⟨0⟩, 0x4000000000000000)] ∧
      (p.termsOf ⟨0⟩).map (fun t => (t.1, t.2.toBits)) = [(⟨0⟩, 0x4000000000000000)] ∧
      ∃ c v, p.bare.enter l.terms = .error (.refused (.duplicateTerm c v)) := by
  have hpairs : ((Listing.codec .float).ofText doubledTerm).toOption.map
      (fun l => (l.program.consistent, (l.pairsOf ⟨0⟩).map fun t => (t.1, t.2.toBits),
        (l.program.termsOf ⟨0⟩).map fun t => (t.1, t.2.toBits))) =
      some (true, [(⟨0⟩, 0x3ff0000000000000), (⟨0⟩, 0x4000000000000000)],
        [(⟨0⟩, 0x4000000000000000)]) := by decide +kernel
  cases hl : (Listing.codec .float).ofText doubledTerm with
  | error fault => simp [hl, Except.toOption] at hpairs
  | ok l =>
    simp only [hl, Except.toOption, Option.map_some, Option.some.injEq, Prod.mk.injEq] at hpairs
    obtain ⟨hp, hlisted, hkept⟩ := hpairs
    have hnone : l.program.inconsistency? = none := by simpa [consistent] using hp
    have hrepeated : ¬l.Distinct := fun hdistinct => by
      have hkeys : (l.pairsOf ⟨0⟩).map Prod.fst = [⟨0⟩, ⟨0⟩] := by
        simpa [Function.comp_def] using congrArg (List.map Prod.fst) hlisted
      simpa [hkeys] using hdistinct ⟨0⟩
    obtain ⟨c, v, _, hrefused⟩ :=
      (Listing.collapsed (consistent_iff_wellFormed.mp hp)).refused hrepeated
    exact ⟨l, l.program, rfl, by rw [load_eq, hl]; simp [hnone], hlisted, hkept, c, v, hrefused⟩

end Program

end Conic
