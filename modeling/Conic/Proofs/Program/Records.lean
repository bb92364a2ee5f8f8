import Conic.Program.Edit
import Conic.Proofs.Program.WellFormed
import Conic.Proofs.Staging

/-!
# Records

* `Program.records` — what a program says apart from its numbers.
* `WellFormed.of_records` — **numbers have no part in well-formedness.**
* `Program.setMultiplier?_records` and its siblings — setters keep the records.
* `Program.exists_foldlM` — setters one after the other.
-/

set_option autoImplicit false

namespace Conic

namespace Program

variable {α : Type} {p q : Program α} {v u : VarId} {c d : ConstraintId}

/-! ## Records -/

/-- What a program says apart from its numbers. -/
structure Records where
  owners : List (ConeId × List ConstraintId)
  cones : Array Cone
  rows : List (List VarId)
  coordinates : Nat

/-- The owner and the membership list of each variable, the cones, the variables of each constraint
and the length of the point. -/
def records (p : Program α) : Records :=
  ⟨p.vars.toList.map fun x => (x.cone, x.constraints), p.cones,
    p.constraints.toList.map (·.terms.vars), p.point.size⟩

section

variable (hrec : q.records = p.records)
include hrec

theorem vars_size_of_records : q.vars.size = p.vars.size := by
  simpa [records] using congrArg (·.owners.length) hrec

theorem constraints_size_of_records : q.constraints.size = p.constraints.size := by
  simpa [records] using congrArg (·.rows.length) hrec

theorem cones_of_records : q.cones = p.cones :=
  congrArg (·.cones) hrec

theorem point_size_of_records : q.point.size = p.point.size :=
  congrArg (·.coordinates) hrec

theorem var?_of_records {x : Variable α} (hx : q.var? v = some x) :
    ∃ y, p.var? v = some y ∧ y.cone = x.cone ∧ y.constraints = x.constraints := by
  have howner := congrArg (fun r => r.owners[v.index]?) hrec
  rw [var?] at hx
  simp only [records, List.getElem?_map, Array.getElem?_toList, hx, Option.map_some] at howner
  obtain ⟨y, hy, he⟩ := Option.map_eq_some_iff.mp howner.symm
  obtain ⟨hcone, hconstraints⟩ := Prod.mk.inj he
  exact ⟨y, hy, hcone, hconstraints⟩

theorem constraint?_of_records {row : Constraint α} (hrow : q.constraint? c = some row) :
    ∃ row', p.constraint? c = some row' ∧ row'.terms.vars = row.terms.vars := by
  have hvars := congrArg (fun r => r.rows[c.index]?) hrec
  rw [constraint?] at hrow
  simp only [records, List.getElem?_map, Array.getElem?_toList, hrow, Option.map_some] at hvars
  exact Option.map_eq_some_iff.mp hvars.symm

end

/-- Who owns a variable decides about half of well-formedness; the other half is left. -/
theorem WellFormed.of_owners (h : p.WellFormed) (hpoint : q.point.size = p.point.size)
    (hcones : q.cones = p.cones) (hvars : q.vars.size = p.vars.size)
    (howner : ∀ v, (q.var? v).map (·.cone) = (p.var? v).map (·.cone))
    (hterm : ∀ {c row v}, q.constraint? c = some row → v ∈ row.terms.vars → ∃ x, p.var? v = some x)
    (hnodup : ∀ {v x}, q.var? v = some x → x.constraints.Nodup)
    (hrecorded : ∀ {v x} (c : ConstraintId), q.var? v = some x →
      (c ∈ x.constraints ↔ ∃ row, q.constraint? c = some row ∧ v ∈ row.terms.vars)) :
    q.WellFormed := by
  have hto : ∀ {v x}, p.var? v = some x → ∃ y, q.var? v = some y ∧ y.cone = x.cone := by
    intro v x hx
    have hv := howner v
    rw [hx, Option.map_some, Option.map_eq_some_iff] at hv
    exact hv
  have hfrom : ∀ {v y}, q.var? v = some y → ∃ x, p.var? v = some x ∧ x.cone = y.cone := by
    intro v y hy
    have hv := (howner v).symm
    rw [hy, Option.map_some, Option.map_eq_some_iff] at hv
    exact hv
  have hcone : ∀ k, q.cone? k = p.cone? k := fun k => by rw [cone?, hcones, cone?]
  exact {
    point_size := by rw [hpoint, h.point_size, hvars]
    dim := fun hk => h.dim (hcone _ ▸ hk)
    owned := by
      intro k cone v hk hv
      obtain ⟨x, hx, hxk⟩ := h.owned (hcone k ▸ hk) hv
      obtain ⟨y, hy, hyx⟩ := hto hx
      exact ⟨y, hy, hyx.trans hxk⟩
    term_var := by
      intro c row v hrow hv
      obtain ⟨x, hx⟩ := hterm hrow hv
      obtain ⟨y, hy, _⟩ := hto hx
      exact ⟨y, hy⟩
    listed := by
      intro v y hy
      obtain ⟨x, hx, hxy⟩ := hfrom hy
      rw [hcone, ← hxy]
      exact h.listed hx
    recorded_nodup := hnodup
    recorded := hrecorded }

/-- Numbers have no part in well-formedness. -/
theorem WellFormed.of_records (h : p.WellFormed) (hrec : q.records = p.records) : q.WellFormed := by
  have howner : ∀ v, (q.var? v).map (·.cone) = (p.var? v).map (·.cone) := by
    intro v
    cases hq : q.var? v with
    | some x =>
      obtain ⟨y, hy, hcone, _⟩ := var?_of_records hrec hq
      rw [hy, Option.map_some, Option.map_some, hcone]
    | none =>
      cases hp : p.var? v with
      | none => rfl
      | some y =>
        obtain ⟨x, hx, _⟩ := var?_of_records hrec.symm hp
        rw [hq] at hx
        cases hx
  refine h.of_owners (point_size_of_records hrec) (cones_of_records hrec)
    (vars_size_of_records hrec) howner ?_ ?_ ?_
  · intro c row v hrow hv
    obtain ⟨row', hrow', hvars⟩ := constraint?_of_records hrec hrow
    exact h.term_var hrow' (hvars ▸ hv)
  · intro v x hx
    obtain ⟨y, hy, _, hconstraints⟩ := var?_of_records hrec hx
    exact hconstraints ▸ h.recorded_nodup hy
  · intro v x c hx
    obtain ⟨y, hy, _, hconstraints⟩ := var?_of_records hrec hx
    rw [← hconstraints, h.recorded c hy]
    constructor
    · rintro ⟨row, hrow, hv⟩
      obtain ⟨row', hrow', hvars⟩ := constraint?_of_records hrec.symm hrow
      exact ⟨row', hrow', hvars ▸ hv⟩
    · rintro ⟨row, hrow, hv⟩
      obtain ⟨row', hrow', hvars⟩ := constraint?_of_records hrec hrow
      exact ⟨row', hrow', hvars ▸ hv⟩

/-! ## Setters -/

theorem found_eq_ok {ε β : Type} {o : Option β} {b : β} :
    (Checked.found o : Checked ε β) = .ok b ↔ o = some b := by
  cases o <;> simp

theorem map_eq_ok {ε β γ : Type} {r : Except ε β} {f : β → γ} {c : γ} :
    r.map f = .ok c ↔ ∃ b, r = .ok b ∧ f b = c := by
  cases r <;> simp [Except.map]

theorem bind_eq_ok {ε β γ : Type} {r : Except ε β} {f : β → Except ε γ} {c : γ} :
    (r >>= f) = .ok c ↔ ∃ b, r = .ok b ∧ f b = .ok c := by
  cases r <;> simp

theorem mapError_eq_ok {ε δ β : Type} {r : Except ε β} {f : ε → δ} {b : β} :
    r.mapError f = .ok b ↔ r = .ok b := by
  cases r <;> simp [Except.mapError]

theorem map_modify_of_eq {β γ : Type} {f : β → β} {g : β → γ} (hfg : ∀ b, g (f b) = g b)
    (xs : Array β) (i : Nat) : (xs.modify i f).toList.map g = xs.toList.map g := by
  apply List.ext_getElem?
  intro j
  simp only [List.getElem?_map, Array.getElem?_toList, Array.getElem?_modify]
  split
  · rw [Option.map_map]
    exact congrArg (Option.map · _) (funext hfg)
  · rfl

theorem records_modifyVariable {f : Variable α → Variable α}
    (hf : ∀ x, (f x).cone = x.cone ∧ (f x).constraints = x.constraints) :
    (p.modifyVariable v f).records = p.records := by
  have howners := map_modify_of_eq (g := fun x : Variable α => (x.cone, x.constraints))
    (fun x => by rw [(hf x).1, (hf x).2]) p.vars v.index
  simp only [records, modifyVariable, howners]

theorem records_modifyConstraint {f : Constraint α → Constraint α}
    (hf : ∀ row, (f row).terms = row.terms) : (p.modifyConstraint c f).records = p.records := by
  have hrows := map_modify_of_eq (g := fun row : Constraint α => row.terms.vars)
    (fun row => by rw [hf]) p.constraints c.index
  simp only [records, modifyConstraint, hrows]

theorem setCoordinate?_records {a : α} (hq : p.setCoordinate? v a = some q) :
    q.records = p.records := by
  unfold setCoordinate? at hq
  split at hq
  · cases hq
    simp [records]
  · cases hq

theorem setMultiplier?_records {a : α} (hq : p.setMultiplier? c a = some q) :
    q.records = p.records := by
  obtain ⟨row, _, rfl⟩ := Option.map_eq_some_iff.mp hq
  exact records_modifyConstraint fun _ => rfl

theorem setReducedCost?_records {a : α} (hq : p.setReducedCost? v a = some q) :
    q.records = p.records := by
  obtain ⟨x, _, rfl⟩ := Option.map_eq_some_iff.mp hq
  exact records_modifyVariable fun _ => ⟨rfl, rfl⟩

/-- A fold of setters succeeds when each of them would at the start. -/
theorem exists_foldlM {β : Type} {f : Program α → β → Option (Program α)} {l : List β}
    (hf : ∀ {p q b}, b ∈ l → f p b = some q → q.records = p.records)
    (hsome : ∀ {q b}, b ∈ l → q.records = p.records → ∃ r, f q b = some r) :
    ∃ q, l.foldlM f p = some q := by
  induction l generalizing p with
  | nil => exact ⟨p, rfl⟩
  | cons b l ih =>
    obtain ⟨r, hr⟩ := hsome List.mem_cons_self rfl
    obtain ⟨q, hq⟩ := ih (p := r) (fun hb => hf (List.mem_cons_of_mem _ hb))
      fun hb hrec => hsome (List.mem_cons_of_mem _ hb) (hrec.trans (hf List.mem_cons_self hr))
    exact ⟨q, by rw [List.foldlM_cons, hr]; exact hq⟩

end Program

end Conic
