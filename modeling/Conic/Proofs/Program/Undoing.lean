import Conic.Proofs.Program.Construction
import Conic.Proofs.Program.Growth

/-!
# Terms that come and go

A term is entered in two places, and each place has its own way of removing it. Entering a term and
removing it again must nevertheless leave nothing behind, and a term that is removed and entered
again may lose its place, but no other term may.

* `MovesToEnd` — one item of a list goes to the end, the others keep their order.
* `Program.withTerm`, `Program.withoutTerm` — what the two operations come to.
* `Program.Requeued` — a term and its entry in the membership list are the last ones now.
* `Program.addTerm_removeTerm` — **the two operations undo each other.**
-/

set_option autoImplicit false

namespace Conic

/-! ## Items that move to the end -/

/-- `b` goes to the end of the list, the other items keep their order. -/
def MovesToEnd {β : Type} (b : β) (l l' : List β) : Prop :=
  ∃ before after, l = before ++ b :: after ∧ l' = before ++ after ++ [b]

/-- An item that is told from the others by its key, filtered out and put at the end. -/
theorem movesToEnd_filter {β γ : Type} [DecidableEq γ] {key : β → γ} {l : List β} {b : β}
    (hnd : (l.map key).Nodup) (hb : b ∈ l) :
    MovesToEnd b l (l.filter (fun a => key a ≠ key b) ++ [b]) := by
  obtain ⟨before, after, rfl⟩ := List.append_of_mem hb
  rw [List.map_append, List.map_cons, List.nodup_append, List.nodup_cons] at hnd
  obtain ⟨-, ⟨hafter, -⟩, hbefore⟩ := hnd
  have hkeep : ∀ {part : List β}, key b ∉ part.map key →
      part.filter (fun a => key a ≠ key b) = part := fun hpart =>
    List.filter_eq_self.mpr fun a ha => by
      simpa using fun he => hpart (List.mem_map.mpr ⟨a, ha, he⟩)
  have hfirst : key b ∉ before.map key := fun hmem => hbefore _ hmem _ List.mem_cons_self rfl
  refine ⟨before, after, rfl, ?_⟩
  rw [List.filter_append, List.filter_cons_of_neg (by simp), hkeep hfirst, hkeep hafter]

/-- An item that is put at the end and filtered out again. -/
theorem filter_ne_concat {β : Type} [DecidableEq β] {l : List β} {b : β} (hb : b ∉ l) :
    (l ++ [b]).filter (· ≠ b) = l := by
  rw [List.filter_append, List.filter_eq_self.mpr fun a ha => by
    simpa using fun he : a = b => hb (he ▸ ha)]
  simp

namespace Terms

variable {α : Type} {t : Terms α} {v : VarId} {a : α}

/-- A new term that is removed again leaves the terms as they were. -/
theorem erase_put (hv : v ∉ t.vars) : (t.put v a).erase v = t := by
  have hne : ∀ u ∈ t.toList, u.1 ≠ v := fun u hu he => hv (he ▸ List.mem_map_of_mem hu)
  refine ext ?_
  rw [toList_erase, toList_put_of_not_mem hv, List.filter_append,
    List.filter_eq_self.mpr fun u hu => by simpa using hne u hu, List.filter_cons_of_neg (by simp)]
  simp

/-- A term that is removed and put again is the last one. -/
theorem put_erase_movesToEnd (ha : t.coefficient? v = some a) :
    MovesToEnd (v, a) t.toList ((t.erase v).put v a).toList := by
  rw [toList_put_of_not_mem (t.not_mem_vars_erase v), toList_erase]
  exact movesToEnd_filter t.nodup (coefficient?_eq_some_iff.mp ha)

end Terms

namespace Program

variable {α : Type} {p q : Program α} {c : ConstraintId} {v : VarId} {row : Constraint α}
  {x : Variable α} {a : α}

/-! ## The two operations -/

/-- A program is what can be read of it. -/
theorem ext_of_reads (hvars : ∀ u, p.var? u = q.var? u)
    (hconstraints : ∀ d, p.constraint? d = q.constraint? d) (hcones : p.cones = q.cones)
    (hpoint : p.point = q.point) : p = q :=
  Program.ext (Array.ext_getElem? fun i => hvars ⟨i⟩) hcones
    (Array.ext_getElem? fun i => hconstraints ⟨i⟩) hpoint

/-- Two changes of the same places. -/
theorem rewired_rewired (f f' : Terms α → Terms α) (g g' : List ConstraintId → List ConstraintId) :
    (p.rewired c v f g).rewired c v f' g' =
      p.rewired c v (fun t => f' (f t)) (fun l => g' (g l)) := by
  refine ext_of_reads (fun u => ?_) (fun d => ?_) rfl rfl
  · rw [var?_rewired, var?_rewired, var?_rewired, Option.map_map]
    congr 1
    funext y
    by_cases hu : u = v <;> simp [hu]
  · rw [constraint?_rewired, constraint?_rewired, constraint?_rewired, Option.map_map]
    congr 1
    funext r
    by_cases hd : d = c <;> simp [hd]

/-- The program with a new term. -/
def withTerm (p : Program α) (c : ConstraintId) (v : VarId) (a : α) : Program α :=
  p.rewired c v (·.put v a) (· ++ [c])

/-- The program without a term. -/
def withoutTerm (p : Program α) (c : ConstraintId) (v : VarId) : Program α :=
  p.rewired c v (·.erase v) (·.filter (· ≠ c))

section

variable (hrow : p.constraint? c = some row) (hx : p.var? v = some x)
include hrow

theorem constraint?_withTerm (a : α) :
    (p.withTerm c v a).constraint? c = some { row with terms := row.terms.put v a } := by
  rw [withTerm, constraint?_rewired, hrow, Option.map_some, if_pos rfl]

theorem constraint?_withoutTerm :
    (p.withoutTerm c v).constraint? c = some { row with terms := row.terms.erase v } := by
  rw [withoutTerm, constraint?_rewired, hrow, Option.map_some, if_pos rfl]

omit hrow in
include hx in
theorem var?_withTerm (a : α) :
    (p.withTerm c v a).var? v = some { x with constraints := x.constraints ++ [c] } := by
  rw [withTerm, var?_rewired, hx, Option.map_some, if_pos rfl]

omit hrow in
include hx in
theorem var?_withoutTerm : (p.withoutTerm c v).var? v =
    some { x with constraints := x.constraints.filter (· ≠ c) } := by
  rw [withoutTerm, var?_rewired, hx, Option.map_some, if_pos rfl]

include hx

/-- A variable without a term gets one. -/
theorem addTerm_eq (hv : row.terms.coefficient? v = none) (a : α) :
    p.addTerm c v a = .ok (p.withTerm c v a) := by
  have hnot : v ∉ row.terms.vars := Terms.coefficient?_eq_none_iff.mp hv
  simp [addTerm, hrow, hx, hnot, withTerm, rewired]

/-- A variable with a term loses it. -/
theorem removeTerm_eq (ha : row.terms.coefficient? v = some a) :
    p.removeTerm c v = .ok (p.withoutTerm c v, a) := by
  simp [removeTerm, hrow, hx, ha, withoutTerm, rewired]

/-- Changes that leave both places as they are leave the program as it is. -/
theorem rewired_eq_self {f : Terms α → Terms α} {g : List ConstraintId → List ConstraintId}
    (hf : f row.terms = row.terms) (hg : g x.constraints = x.constraints) :
    p.rewired c v f g = p := by
  refine ext_of_reads (fun u => ?_) (fun d => ?_) rfl rfl
  · rw [var?_rewired]
    by_cases hu : u = v
    · rw [hu, hx, Option.map_some, if_pos rfl, hg]
    · simp [hu]
  · rw [constraint?_rewired]
    by_cases hd : d = c
    · rw [hd, hrow, Option.map_some, if_pos rfl, hf]
    · simp [hd]

/-- In a well-formed program both places tell whether there is a term. -/
theorem WellFormed.mem_constraints_iff (h : p.WellFormed) :
    c ∈ x.constraints ↔ v ∈ row.terms.vars := by
  rw [h.recorded c hx]
  constructor
  · rintro ⟨r, hr, hv⟩
    rw [hrow] at hr
    cases hr
    exact hv
  · exact fun hv => ⟨row, hrow, hv⟩

end

/-! ## The same in place -/

namespace InPlace

/-- An operation that was not declined has run to its end. -/
theorem run_of_outcome {m : InPlace α Unit} (h : m.outcome p = some (q, none)) :
    m.run p = .ok () q := by
  unfold outcome at h
  split at h <;> cases h
  assumption

theorem run_addTerm (hq : p.addTerm c v a = .ok q) : (addTerm c v a).run p = .ok () q := by
  have houtcome := outcome_addTerm (p := p) (c := c) (v := v) a
  rw [hq] at houtcome
  exact run_of_outcome houtcome

/-- The answer is the coefficient that was looked up at the start. -/
theorem run_removeTerm (hrow : p.constraint? c = some row) (hx : p.var? v = some x)
    (ha : row.terms.coefficient? v = some a) :
    (removeTerm c v).run p = .ok a (p.withoutTerm c v) := by
  have hvar : ∀ f, (p.modifyConstraint c f).var? v = p.var? v := fun _ => rfl
  simp [-bind_pure_comp, removeTerm, hrow, ha, hvar, hx, withoutTerm, rewired]

end InPlace

/-! ## Both operations, one after the other -/

/-- `q` is `p`, except that the term `a·v` of `c` is the last one of `c` and that `c` is the last
entry in the membership list of `v`. -/
structure Requeued (p : Program α) (c : ConstraintId) (v : VarId) (a : α) (q : Program α) :
    Prop where
  row : ∃ row terms, p.constraint? c = some row ∧
    MovesToEnd (v, a) row.terms.toList terms.toList ∧ q.constraint? c = some { row with terms }
  var : ∃ x constraints, p.var? v = some x ∧ MovesToEnd c x.constraints constraints ∧
    q.var? v = some { x with constraints }
  rows : ∀ d, d ≠ c → q.constraint? d = p.constraint? d
  vars : ∀ u, u ≠ v → q.var? u = p.var? u
  cones : q.cones = p.cones
  point : q.point = p.point

namespace WellFormed

variable (h : p.WellFormed) (hrow : p.constraint? c = some row) (hx : p.var? v = some x)
include h hrow hx

/-- A new term leaves nothing behind. -/
theorem withoutTerm_withTerm (hv : row.terms.coefficient? v = none) (a : α) :
    (p.withTerm c v a).withoutTerm c v = p := by
  have hnot : v ∉ row.terms.vars := Terms.coefficient?_eq_none_iff.mp hv
  rw [withTerm, withoutTerm, rewired_rewired]
  exact rewired_eq_self hrow hx (Terms.erase_put hnot)
    (filter_ne_concat ((h.mem_constraints_iff hrow hx).not.mpr hnot))

/-- An old term goes to the end of both lists. -/
theorem requeued (ha : row.terms.coefficient? v = some a) :
    p.Requeued c v a ((p.withoutTerm c v).withTerm c v a) := by
  have hc : c ∈ x.constraints :=
    (h.mem_constraints_iff hrow hx).mpr (Terms.mem_vars_iff_coefficient?.mpr ⟨a, ha⟩)
  have hnd : (x.constraints.map id).Nodup := by simpa using h.recorded_nodup hx
  constructor
  case row => exact ⟨row, _, hrow, Terms.put_erase_movesToEnd ha,
    constraint?_withTerm (constraint?_withoutTerm hrow) a⟩
  case var => exact ⟨x, _, hx, movesToEnd_filter hnd hc, var?_withTerm (var?_withoutTerm hx) a⟩
  case rows => exact fun d hd => by simp [withTerm, withoutTerm, constraint?_rewired, hd]
  case vars => exact fun u hu => by simp [withTerm, withoutTerm, var?_rewired, hu]
  case cones | point => rfl

end WellFormed

/-- **Entering a term and removing it again leaves nothing behind, and removing a term and entering
it again makes it the last one**, in its constraint and in the membership list of its variable, and
changes nothing else. Both orders succeed, also write after write, and the removal answers the
coefficient. -/
theorem addTerm_removeTerm (h : p.consistent = true) (hrow : p.constraint? c = some row)
    (hx : p.var? v = some x) :
    (row.terms.coefficient? v = none → ∀ a,
      (∃ q, p.addTerm c v a = .ok q ∧ q.removeTerm c v = .ok (p, a)) ∧
      (do InPlace.addTerm c v a; InPlace.removeTerm c v : InPlace α α).run p = .ok a p) ∧
    ∀ a, row.terms.coefficient? v = some a → ∃ r q,
      p.removeTerm c v = .ok (r, a) ∧ r.addTerm c v a = .ok q ∧ p.Requeued c v a q ∧
      (do let b ← InPlace.removeTerm c v; InPlace.addTerm c v a; return b : InPlace α α).run p =
        .ok a q := by
  have hwf := consistent_iff_wellFormed.mp h
  constructor
  · intro hnone a
    have hadd := addTerm_eq hrow hx hnone a
    have hself := hwf.withoutTerm_withTerm hrow hx hnone a
    have hrow₁ := constraint?_withTerm (v := v) hrow a
    have hx₁ := var?_withTerm (c := c) hx a
    have ha : (row.terms.put v a).coefficient? v = some a := by simp
    refine ⟨⟨_, hadd, by rw [removeTerm_eq hrow₁ hx₁ ha, hself]⟩, ?_⟩
    rw [EStateM.run_bind, InPlace.run_addTerm hadd]
    exact (InPlace.run_removeTerm hrow₁ hx₁ ha).trans (by rw [hself])
  · intro a ha
    have hnone : (row.terms.erase v).coefficient? v = none :=
      Terms.coefficient?_eq_none_iff.mpr (row.terms.not_mem_vars_erase v)
    have hadd := addTerm_eq (constraint?_withoutTerm hrow) (var?_withoutTerm hx) hnone a
    refine ⟨_, _, removeTerm_eq hrow hx ha, hadd, hwf.requeued hrow hx ha, ?_⟩
    rw [EStateM.run_bind, InPlace.run_removeTerm hrow hx ha]
    show (InPlace.addTerm c v a >>= fun _ => pure a : InPlace α α).run _ = _
    rw [EStateM.run_bind, InPlace.run_addTerm hadd]
    rfl

/-- A variable in two constraints, in the middle of the first, which is the first of its two entries
as well. -/
def sharedMiddle : Program ℚ where
  vars := #[⟨⟨0⟩, 1, 0, [⟨0⟩]⟩, ⟨⟨1⟩, 0, 0, [⟨0⟩, ⟨1⟩]⟩, ⟨⟨2⟩, 2, 0, [⟨0⟩]⟩]
  cones := #[.nonneg ⟨0⟩, .nonneg ⟨1⟩, .nonneg ⟨2⟩]
  constraints := #[⟨⟨[(⟨0⟩, 3), (⟨1⟩, 5), (⟨2⟩, 7)], by decide⟩, 4, 0⟩,
    ⟨⟨[(⟨1⟩, -1)], by decide⟩, 1, 0⟩]
  point := #[0, 0, 0]

/-- A term that is new to the second constraint is entered and removed, and the one in the middle of
the first is removed and entered. -/
theorem addTerm_removeTerm_sharedMiddle :
    (do InPlace.addTerm ⟨1⟩ ⟨0⟩ 6; InPlace.removeTerm ⟨1⟩ ⟨0⟩ : InPlace ℚ ℚ).run sharedMiddle =
      .ok 6 sharedMiddle ∧
    ∃ q, (do
        let b ← InPlace.removeTerm ⟨0⟩ ⟨1⟩
        InPlace.addTerm ⟨0⟩ ⟨1⟩ 5
        return b : InPlace ℚ ℚ).run sharedMiddle = .ok 5 q ∧
      sharedMiddle.Requeued ⟨0⟩ ⟨1⟩ 5 q := by
  have hp : sharedMiddle.consistent = true := by decide +kernel
  refine ⟨((addTerm_removeTerm hp (c := ⟨1⟩) (v := ⟨0⟩) rfl rfl).1 rfl 6).2, ?_⟩
  obtain ⟨_, q, _, _, hq, hrun⟩ := (addTerm_removeTerm hp (c := ⟨0⟩) (v := ⟨1⟩) rfl rfl).2 5 rfl
  exact ⟨q, hrun, hq⟩

end Program

end Conic
