import Conic.Program.Handle

/-!
# The terms of a constraint

A linear expression is a list of variables with coefficients, in the order in which they were
added, where no variable stands twice. The order never matters for equality, but it decides in
which order duals are built.

* `Terms.coefficient?`, `Terms.contains` — look-up.
* `Terms.put` — a new variable goes to the end; a known one keeps its place and changes its
  coefficient.
* `Terms.erase` — removal; the others keep their order.
-/

namespace Conic

/-- Variables with coefficients, each variable once. -/
structure Terms (α : Type) where
  toList : List (VarId × α)
  nodup : (toList.map Prod.fst).Nodup

namespace Terms

variable {α : Type}

@[ext] theorem ext {s t : Terms α} (h : s.toList = t.toList) : s = t := by
  cases s; cases t; cases h; rfl

/-- No terms. -/
def empty : Terms α := ⟨[], List.nodup_nil⟩

/-- The variables, in order. -/
def vars (t : Terms α) : List VarId :=
  t.toList.map Prod.fst

/-- The number of terms. -/
def size (t : Terms α) : Nat :=
  t.toList.length

/-- The coefficient of a variable. -/
def coefficient? (t : Terms α) (v : VarId) : Option α :=
  t.toList.lookup v

/-- Whether there is a term on the given variable. -/
def contains (t : Terms α) (v : VarId) : Bool :=
  t.vars.contains v

/-- The list with the coefficient of `v` set to `a`. -/
def putList (v : VarId) (a : α) : List (VarId × α) → List (VarId × α)
  | [] => [(v, a)]
  | (u, b) :: rest => if u = v then (v, a) :: rest else (u, b) :: putList v a rest

theorem map_fst_putList (v : VarId) (a : α) (l : List (VarId × α)) :
    (putList v a l).map Prod.fst =
      if v ∈ l.map Prod.fst then l.map Prod.fst else l.map Prod.fst ++ [v] := by
  induction l with
  | nil => simp [putList]
  | cons p rest ih =>
    obtain ⟨u, b⟩ := p
    by_cases h : u = v
    · simp [putList, h]
    · have h' : v ≠ u := fun e => h e.symm
      simp only [putList, h, if_false, List.map_cons, ih, List.mem_cons, h', false_or]
      split <;> simp

theorem nodup_putList (v : VarId) (a : α) {l : List (VarId × α)} (h : (l.map Prod.fst).Nodup) :
    ((putList v a l).map Prod.fst).Nodup := by
  rw [map_fst_putList]
  split
  · exact h
  · next hv =>
    rw [List.nodup_append]
    refine ⟨h, List.nodup_cons.2 ⟨List.not_mem_nil, List.nodup_nil⟩, ?_⟩
    intro x hx y hy
    rw [List.mem_singleton] at hy
    subst hy
    exact fun e => hv (e ▸ hx)

/-- The terms with the coefficient of `v` set to `a`: in its place if there is a term on `v`,
otherwise at the end. -/
def put (t : Terms α) (v : VarId) (a : α) : Terms α :=
  ⟨putList v a t.toList, nodup_putList v a t.nodup⟩

/-- The terms without the one on `v`. -/
def erase (t : Terms α) (v : VarId) : Terms α :=
  ⟨t.toList.eraseP (·.1 = v), (List.eraseP_sublist.map Prod.fst).nodup t.nodup⟩

/-- The terms put one after another into none. -/
def ofList (l : List (VarId × α)) : Terms α :=
  l.foldl (fun t p => t.put p.1 p.2) empty

/-! ## Look-up after a change -/

theorem mem_vars_iff {t : Terms α} {v : VarId} : v ∈ t.vars ↔ ∃ a, (v, a) ∈ t.toList := by
  simp [vars]

theorem coefficient?_eq_some_iff {t : Terms α} {v : VarId} {a : α} :
    t.coefficient? v = some a ↔ (v, a) ∈ t.toList := by
  obtain ⟨l, h⟩ := t
  simp only [coefficient?]
  induction l with
  | nil => simp
  | cons p rest ih =>
    obtain ⟨u, b⟩ := p
    rw [List.map_cons, List.nodup_cons] at h
    by_cases hv : v = u
    · subst hv
      have hrest : ∀ d, (v, d) ∉ rest := fun d hd => h.1 (List.mem_map.mpr ⟨(v, d), hd, rfl⟩)
      simp [hrest, eq_comm]
    · simp [List.lookup_cons, beq_eq_false_iff_ne.2 hv, hv, ih h.2]

theorem coefficient?_eq_none_iff {t : Terms α} {v : VarId} :
    t.coefficient? v = none ↔ v ∉ t.vars := by
  rw [mem_vars_iff, Option.eq_none_iff_forall_ne_some]
  simp [coefficient?_eq_some_iff]

theorem mem_vars_iff_coefficient? {t : Terms α} {v : VarId} :
    v ∈ t.vars ↔ ∃ a, t.coefficient? v = some a := by
  simp [mem_vars_iff, coefficient?_eq_some_iff]

@[simp] theorem contains_iff {t : Terms α} {v : VarId} : t.contains v = true ↔ v ∈ t.vars := by
  simp [contains]

theorem lookup_putList (v u : VarId) (a : α) (l : List (VarId × α)) :
    (putList v a l).lookup u = if u = v then some a else l.lookup u := by
  induction l with
  | nil =>
    by_cases h : u = v
    · simp [putList, h]
    · simp [putList, List.lookup_cons, beq_eq_false_iff_ne.2 h, h]
  | cons p rest ih =>
    obtain ⟨w, b⟩ := p
    by_cases hw : w = v
    · subst hw
      by_cases hu : u = w
      · simp [putList, hu]
      · simp [putList, List.lookup_cons, beq_eq_false_iff_ne.2 hu, hu]
    · by_cases hu : u = w
      · subst hu
        simp [putList, hw]
      · simp [putList, List.lookup_cons, hw, beq_eq_false_iff_ne.2 hu, ih]

@[simp] theorem coefficient?_put (t : Terms α) (v u : VarId) (a : α) :
    (t.put v a).coefficient? u = if u = v then some a else t.coefficient? u :=
  lookup_putList v u a t.toList

theorem putList_of_not_mem {v : VarId} {a : α} {l : List (VarId × α)}
    (h : v ∉ l.map Prod.fst) : putList v a l = l ++ [(v, a)] := by
  induction l with
  | nil => rfl
  | cons p rest ih =>
    simp only [List.map_cons, List.mem_cons, not_or] at h
    simp [putList, Ne.symm h.1, ih h.2]

/-- A new variable goes to the end. -/
theorem toList_put_of_not_mem {t : Terms α} {v : VarId} (h : v ∉ t.vars) (a : α) :
    (t.put v a).toList = t.toList ++ [(v, a)] :=
  putList_of_not_mem h

theorem vars_put (t : Terms α) (v : VarId) (a : α) :
    (t.put v a).vars = if v ∈ t.vars then t.vars else t.vars ++ [v] :=
  map_fst_putList v a t.toList

theorem vars_erase (t : Terms α) (v : VarId) : (t.erase v).vars = t.vars.erase v := by
  obtain ⟨l, h⟩ := t
  simp only [vars, erase]
  clear h
  induction l with
  | nil => rfl
  | cons p rest ih => by_cases h : p.1 = v <;> simp_all

theorem not_mem_vars_erase (t : Terms α) (v : VarId) : v ∉ (t.erase v).vars := by
  rw [vars_erase]
  exact t.nodup.not_mem_erase

theorem toList_erase (t : Terms α) (v : VarId) :
    (t.erase v).toList = t.toList.filter fun u => u.1 ≠ v := by
  obtain ⟨l, hl⟩ := t
  simp only [erase]
  induction l with
  | nil => rfl
  | cons u l ih =>
    rw [List.map_cons, List.nodup_cons] at hl
    by_cases hu : u.1 = v
    · have hne : ∀ w ∈ l, w.1 ≠ v := fun w hw he =>
        hl.1 (List.mem_map.mpr ⟨w, hw, he.trans hu.symm⟩)
      rw [List.eraseP_cons_of_pos (by simpa using hu), List.filter_cons_of_neg (by simpa using hu),
        List.filter_eq_self.mpr fun w hw => by simpa using hne w hw]
    · rw [List.eraseP_cons_of_neg (by simpa using hu), List.filter_cons_of_pos (by simpa using hu),
        ih hl.2]

theorem ofList_concat (l : List (VarId × α)) (v : VarId) (a : α) :
    ofList (l ++ [(v, a)]) = (ofList l).put v a := by
  simp [ofList]

/-- Distinct variables keep the order in which they are put. -/
theorem toList_foldl_put {l : List (VarId × α)} {t : Terms α}
    (h : ((t.toList ++ l).map Prod.fst).Nodup) :
    (l.foldl (fun t p => t.put p.1 p.2) t).toList = t.toList ++ l := by
  induction l generalizing t with
  | nil => simp
  | cons p l ih =>
    have hp : p.1 ∉ t.vars := by
      rw [List.map_append, List.nodup_append] at h
      exact fun hp => h.2.2 _ hp _ (by simp) rfl
    have hput : (t.put p.1 p.2).toList = t.toList ++ [p] := toList_put_of_not_mem hp p.2
    rw [List.foldl_cons, ih (by rw [hput]; simpa using h), hput]
    simp

theorem toList_ofList {l : List (VarId × α)} (h : (l.map Prod.fst).Nodup) :
    (ofList l).toList = l := by
  unfold ofList
  rw [toList_foldl_put (by simpa [empty] using h)]
  rfl

/-- Equal terms in any order. -/
instance [BEq α] : BEq (Terms α) where
  beq s t := s.size == t.size && s.toList.all fun p =>
    match t.coefficient? p.1 with
    | some a => p.2 == a
    | none => false

end Terms

end Conic
