import Conic.Json.Codec

/-!
# What a reader makes of a text

A codec is faithful when what it writes is read back, whatever comes after it in the file. Not
every value has to come back: an infinite number is written as a word that no number is read from.
`Reader.Yields` therefore speaks of both outcomes at once, and a reader that is put together from
others yields what its parts yield.

* `Reader.Yields` — the reader takes a value off a text if a condition holds, and fails otherwise.
* `Yields.bind`, `Yields.iterate` — readers one after the other, and the loop.
* `Delimits` — the marks that may follow a value.
* `Codec.Faithful` — what is written is read back exactly when it is worth keeping.
-/

set_option autoImplicit false

namespace Conic.Json

variable {α β σ : Type}

namespace Reader

/-- The reader takes `a` off the text and leaves `rest` if `kept` holds; otherwise it fails. -/
structure Yields (x : Reader α) (text : List Char) (kept : Prop) (a : α) (rest : List Char) :
    Prop where
  ok : kept → x.run text = .ok (a, rest)
  error : ¬kept → ∃ fault, x.run text = .error fault

variable {text mid rest : List Char} {kept kept' : Prop} {a : α} {b : β}

theorem Yields.of_ok {x : Reader α} (h : x.run text = .ok (a, rest)) :
    x.Yields text True a rest :=
  ⟨fun _ => h, fun hn => absurd trivial hn⟩

theorem Yields.congr {x : Reader α} (h : x.Yields text kept a rest) (hk : kept ↔ kept') :
    x.Yields text kept' a rest :=
  ⟨fun hk' => h.ok (hk.mpr hk'), fun hk' => h.error fun hkept => hk' (hk.mp hkept)⟩

theorem run_bind_of_error {x : Reader α} {fault : TextFault} (h : x.run text = .error fault)
    (f : α → Reader β) : (x >>= f).run text = .error fault := by
  rw [run_bind, h]

/-- Two readers, one after the other. -/
theorem Yields.bind {x : Reader α} {f : α → Reader β} (hx : x.Yields text kept a mid)
    (hf : (f a).Yields mid kept' b rest) : (x >>= f).Yields text (kept ∧ kept') b rest := by
  constructor
  · rintro ⟨h, h'⟩
    rw [run_bind_of_ok (hx.ok h), hf.ok h']
  · intro hn
    by_cases h : kept
    · obtain ⟨fault, hfault⟩ := hf.error fun h' => hn ⟨h, h'⟩
      exact ⟨fault, by rw [run_bind_of_ok (hx.ok h), hfault]⟩
    · obtain ⟨fault, hfault⟩ := hx.error h
      exact ⟨fault, run_bind_of_error hfault f⟩

/-- After a reader that is known to succeed. -/
theorem Yields.after {x : Reader α} {f : α → Reader β} (hx : x.run text = .ok (a, mid))
    (hf : (f a).Yields mid kept b rest) : (x >>= f).Yields text kept b rest :=
  ((Yields.of_ok hx).bind hf).congr (by rw [true_and])

/-- A reader, the value of which is only wrapped. -/
theorem Yields.wrap {x : Reader α} (hx : x.Yields text kept a rest) (f : α → β) :
    (x >>= fun a => pure (f a)).Yields text kept (f a) rest :=
  (hx.bind (Yields.of_ok (run_pure (f a) rest))).congr (by rw [and_true])

/-! ## The loop -/

theorem run_iterate_of_error {step : σ → Reader (σ ⊕ α)} {consumes : ∀ s, (step s).Consumes}
    {state : σ} {fault : TextFault} (h : (step state).run text = .error fault) :
    (iterate step consumes state).run text = .error fault := by
  rw [run_iterate, h]

/-- One step of the loop, and what the loop makes of the rest. -/
theorem Yields.iterate {step : σ → Reader (σ ⊕ α)} {consumes : ∀ s, (step s).Consumes}
    {state next : σ} (hstep : (step state).Yields text kept (.inl next) mid)
    (hloop : (iterate step consumes next).Yields mid kept' a rest) :
    (iterate step consumes state).Yields text (kept ∧ kept') a rest := by
  constructor
  · rintro ⟨h, h'⟩
    rw [run_iterate_of_next (hstep.ok h), hloop.ok h']
  · intro hn
    by_cases h : kept
    · obtain ⟨fault, hfault⟩ := hloop.error fun h' => hn ⟨h, h'⟩
      exact ⟨fault, by rw [run_iterate_of_next (hstep.ok h), hfault]⟩
    · obtain ⟨fault, hfault⟩ := hstep.error h
      exact ⟨fault, run_iterate_of_error hfault⟩

/-! ## Single characters -/

theorem run_mark_cons {c : Char} (hc : isBlank c = false) (s : List Char) :
    (mark c).run (c :: s) = .ok ((), s) := by
  simp [mark, run_bind, run_token_cons hc]

/-- Nothing is ever read from a value of the wrong kind. -/
theorem run_refuse (c : Char) (text : List Char) :
    ∃ fault, (refuse c : Reader α).run text = .error fault := by
  have hend : ∀ {γ : Type} (x : Reader γ), ∃ fault,
      (x >>= fun _ => (malformed : Reader α)).run text = .error fault := by
    intro γ x
    cases h : x.run text with
    | error fault => exact ⟨fault, run_bind_of_error h _⟩
    | ok p => exact ⟨.malformed, by rw [run_bind_of_ok h]; rfl⟩
  unfold refuse
  cases wordRest? c with
  | some word => exact hend (expect word)
  | none =>
    by_cases hs : Numeral.starts c = true
    · simp only [hs, if_true]
      exact hend (Numeral.read .truncated c)
    · simp only [hs]
      by_cases hq : (c == '"') = true
      · simp only [hq, if_true]
        exact hend Quoted.body
      · simp only [hq]
        exact ⟨.malformed, rfl⟩

end Reader

/-- The text stops, or goes on with a mark that may follow a value. -/
inductive Delimits : List Char → Prop where
  | done : Delimits []
  | comma (rest : List Char) : Delimits (',' :: rest)
  | square (rest : List Char) : Delimits (']' :: rest)
  | curly (rest : List Char) : Delimits ('\x7d' :: rest)

/-- What the codec writes is read back if it is worth keeping, and refused otherwise. -/
structure Codec.Faithful (c : Codec α) (keeps : α → Prop) : Prop where
  /-- No text begins with a blank or with the mark that closes a list. -/
  opens : ∀ a, ∃ d more, c.write a = d :: more ∧ Reader.isBlank d = false ∧ d ≠ ']'
  yields : ∀ a {rest : List Char}, Delimits rest →
    c.read.Yields (c.write a ++ rest) (keeps a) a rest

namespace Codec.Faithful

variable {c : Codec α} {keeps keeps' : α → Prop}

theorem congr (hc : c.Faithful keeps) (hk : ∀ a, keeps a ↔ keeps' a) : c.Faithful keeps' :=
  ⟨hc.opens, fun a _ hrest => (hc.yields a hrest).congr (hk a)⟩

/-- The same text for another type. -/
theorem map (hc : c.Faithful keeps) {make : α → β} {part : β → α}
    (hmake : ∀ b, make (part b) = b) : (c.map make part).Faithful fun b => keeps (part b) := by
  refine ⟨fun b => hc.opens (part b), fun b rest hrest => ?_⟩
  have h := (hc.yields (part b) hrest).wrap make
  rwa [hmake] at h

/-- A text that holds one value is read exactly when the value is worth keeping. -/
theorem readAll (hc : c.Faithful keeps) (a : α) :
    (keeps a → c.ofText (c.toText a) = .ok a) ∧
      (¬keeps a → ∃ fault, c.ofText (c.toText a) = .error fault) := by
  have h := hc.yields a Delimits.done
  rw [List.append_nil] at h
  simp only [Codec.ofText, Codec.toText, String.toList_ofList, Reader.readAll]
  constructor
  · intro hk
    rw [h.ok hk]
    rfl
  · intro hk
    obtain ⟨fault, hfault⟩ := h.error hk
    exact ⟨fault, by rw [hfault]⟩

end Codec.Faithful

end Conic.Json
