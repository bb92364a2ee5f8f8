import Conic.Traced

/-!
# What a computation reports

Of the events of a computation only those of one sort may be of interest.

* `Traced.reported` — the events of one sort, in order; `Traced.Silent` — there are none.
* `Traced.reported_bind_of_ok`, `Traced.Silent.bind` — sequencing.
* `Traced.Silent.foldlM`, `Traced.reported_foldlM` — **a fold that ends well reports what its steps
  report.**
-/

set_option autoImplicit false

namespace Conic.Traced

variable {ν μ ε δ α β γ : Type} {g : ν → Option γ}

/-- What `g` reads from the events that it can read, in order. -/
def reported (g : ν → Option γ) (x : Traced ν ε α) : List γ :=
  x.events.filterMap g

/-- There is no event that `g` can read. -/
def Silent (g : ν → Option γ) (x : Traced ν ε α) : Prop :=
  x.reported g = []

theorem reported_bind_of_ok {x : Traced ν ε α} {a : α} (hx : x.result = .ok a)
    (f : α → Traced ν ε β) : (x >>= f).reported g = x.reported g ++ (f a).reported g := by
  rw [reported, events_bind, hx, List.filterMap_append]
  rfl

@[simp] theorem reported_map (f : α → β) (x : Traced ν ε α) :
    (f <$> x).reported g = x.reported g := by
  rw [reported, events_map, reported]

theorem reported_translate (onEvent : ν → μ) (onError : ε → δ) (x : Traced ν ε α)
    (g : μ → Option γ) : (x.translate onEvent onError).reported g = x.reported (g ∘ onEvent) :=
  List.filterMap_map

/-! ## Silence -/

theorem silent_pure (a : α) : (pure a : Traced ν ε α).Silent g := rfl

theorem silent_quiet (r : Except ε α) : (quiet r).Silent g := rfl

theorem silent_report {event : ν} (h : g event = none) :
    (report event : Traced ν ε Unit).Silent g := by
  simp [Silent, reported, h]

theorem Silent.bind {x : Traced ν ε α} {f : α → Traced ν ε β} (hx : x.Silent g)
    (hf : ∀ a, (f a).Silent g) : (x >>= f).Silent g := by
  cases hresult : x.result with
  | ok a =>
    rw [Silent, reported_bind_of_ok hresult, hx, hf a]
    rfl
  | error e =>
    rw [Silent, reported, events_bind, hresult, List.append_nil]
    exact hx

theorem Silent.foldlM {f : β → α → Traced ν ε β} (h : ∀ b a, (f b a).Silent g) (l : List α)
    (b : β) : (l.foldlM f b).Silent g := by
  induction l generalizing b with
  | nil => rfl
  | cons a l ih => exact (h b a).bind ih

/-! ## Folds -/

/-- **A fold that ends well reports what its steps report**, if that does not depend on how far the
fold has got. -/
theorem reported_foldlM {f : β → α → Traced ν ε β} {l : List α} {b b' : β} {k : α → Option γ}
    (hend : (l.foldlM f b).result = .ok b')
    (hstep : ∀ b, ∀ a ∈ l, (f b a).reported g = (k a).toList) :
    (l.foldlM f b).reported g = l.filterMap k := by
  induction l generalizing b with
  | nil => rfl
  | cons a l ih =>
    rw [List.foldlM_cons] at hend ⊢
    cases hfirst : (f b a).result with
    | error e =>
      rw [result_bind, hfirst] at hend
      cases hend
    | ok c =>
      rw [result_bind, hfirst] at hend
      rw [reported_bind_of_ok hfirst, hstep b a List.mem_cons_self,
        ih hend fun b u hu => hstep b u (List.mem_cons_of_mem a hu), List.filterMap_cons]
      cases k a <;> rfl

end Conic.Traced
