/-!
# Computations that leave a trace

`Traced ν ε α` is a computation that reports events of type `ν` while it runs and ends in a
value or an error. The events reported before an error are kept: whoever watches the computation
has seen them already.

* `events_bind` and `result_bind` say what sequencing does to the two components.
* `result_foldlM` — how a fold ends does not depend on what its steps report.
-/

namespace Conic

/-- The events reported, in order, and how the computation ended. -/
structure Traced (ν ε α : Type) where
  events : List ν
  result : Except ε α

namespace Traced

variable {ν μ ε δ α β : Type}

instance : Monad (Traced ν ε) where
  pure a := ⟨[], .ok a⟩
  bind x f :=
    match x.result with
    | .error e => ⟨x.events, .error e⟩
    | .ok a => ⟨x.events ++ (f a).events, (f a).result⟩

/-- Reports one event. -/
def report (event : ν) : Traced ν ε Unit := ⟨[event], .ok ()⟩

/-- A computation that reports nothing. -/
def quiet (result : Except ε α) : Traced ν ε α := ⟨[], result⟩

/-- The same computation, each event and each error restated. -/
def translate (onEvent : ν → μ) (onError : ε → δ) (x : Traced ν ε α) : Traced μ δ α :=
  ⟨x.events.map onEvent, x.result.mapError onError⟩

@[simp] theorem result_pure (a : α) : (pure a : Traced ν ε α).result = .ok a := rfl

@[simp] theorem events_pure (a : α) : (pure a : Traced ν ε α).events = [] := rfl

@[simp] theorem result_report (event : ν) : (report event : Traced ν ε Unit).result = .ok () := rfl

@[simp] theorem events_report (event : ν) : (report event : Traced ν ε Unit).events = [event] := rfl

@[simp] theorem result_quiet (r : Except ε α) : (quiet r : Traced ν ε α).result = r := rfl

@[simp] theorem events_quiet (r : Except ε α) : (quiet r : Traced ν ε α).events = [] := rfl

@[simp] theorem result_bind (x : Traced ν ε α) (f : α → Traced ν ε β) :
    (x >>= f).result = x.result >>= fun a => (f a).result := by
  obtain ⟨events, result⟩ := x
  cases result <;> rfl

@[simp] theorem result_map (f : α → β) (x : Traced ν ε α) : (f <$> x).result = f <$> x.result := by
  obtain ⟨events, result⟩ := x
  cases result <;> rfl

@[simp] theorem events_map (f : α → β) (x : Traced ν ε α) : (f <$> x).events = x.events := by
  obtain ⟨events, result⟩ := x
  cases result <;> simp [Functor.map]

theorem events_bind (x : Traced ν ε α) (f : α → Traced ν ε β) :
    (x >>= f).events = x.events ++ match x.result with
      | .ok a => (f a).events
      | .error _ => [] := by
  obtain ⟨events, result⟩ := x
  cases result <;> simp [bind]

@[simp] theorem result_translate (onEvent : ν → μ) (onError : ε → δ) (x : Traced ν ε α) :
    (x.translate onEvent onError).result = x.result.mapError onError := rfl

@[simp] theorem events_translate (onEvent : ν → μ) (onError : ε → δ) (x : Traced ν ε α) :
    (x.translate onEvent onError).events = x.events.map onEvent := rfl

@[ext] theorem ext {x y : Traced ν ε α} (events : x.events = y.events)
    (result : x.result = y.result) : x = y := by
  cases x; cases y; cases events; cases result; rfl

theorem id_map (x : Traced ν ε α) : id <$> x = x := by
  obtain ⟨events, result⟩ := x
  cases result <;> simp [Functor.map]

theorem bind_assoc (x : Traced ν ε α) (f : α → Traced ν ε β) {γ : Type} (g : β → Traced ν ε γ) :
    x >>= f >>= g = x >>= fun a => f a >>= g := by
  obtain ⟨events, result⟩ := x
  cases result with
  | error e => rfl
  | ok a =>
    simp only [bind]
    cases (f a).result <;> simp [List.append_assoc]

instance : LawfulMonad (Traced ν ε) :=
  LawfulMonad.mk' _ id_map (fun _ _ => rfl) fun x f g => bind_assoc x f g

theorem result_foldlM (f : β → α → Traced ν ε β) (b : β) (l : List α) :
    (l.foldlM f b).result = l.foldlM (fun b a => (f b a).result) b := by
  induction l generalizing b with
  | nil => rfl
  | cons a l ih => simp only [List.foldlM_cons, result_bind, ih]

end Traced

end Conic
