/-!
# Readers

A `Reader α` takes a value of type `α` off the front of a text and hands on the rest. Reading is
one pass: the first problem in the order of the text decides how it fails.

* `Reader.run` — the value and the rest of the text, which is never longer than the text.
* `Reader.Consumes` — the reader always takes at least one character.
* `Reader.iterate` — repeats a consuming step until it yields a result; the only loop.
* `Reader.token`, `Reader.peekToken` — the next character that is not blank.
-/

namespace Conic.Json

/-- What is wrong with a text: it stops too early, or it goes on in a way it must not. -/
inductive TextFault where
  | truncated
  | malformed
  deriving DecidableEq, Repr

/-- Takes a value off the front of a text. -/
structure Reader (α : Type) where
  run : List Char → Except TextFault (α × List Char)
  length_le : ∀ {s a rest}, run s = .ok (a, rest) → rest.length ≤ s.length

namespace Reader

variable {α β σ : Type}

instance : Monad Reader where
  pure a := ⟨fun s => .ok (a, s), by intro s b rest h; cases h; exact Nat.le_refl _⟩
  bind x f :=
    { run := fun s =>
        match x.run s with
        | .error fault => .error fault
        | .ok (a, rest) => (f a).run rest
      length_le := by
        intro s b rest h
        split at h
        · cases h
        · next a mid hx => exact Nat.le_trans ((f a).length_le h) (x.length_le hx) }

/-- Gives up. -/
def fail (fault : TextFault) : Reader α :=
  ⟨fun _ => .error fault, by intro s a rest h; cases h⟩

/-- Refuses what was read. -/
def malformed : Reader α := fail .malformed

@[simp] theorem run_pure (a : α) (s : List Char) : (pure a : Reader α).run s = .ok (a, s) := rfl

@[simp] theorem run_fail (fault : TextFault) (s : List Char) :
    (fail fault : Reader α).run s = .error fault := rfl

theorem run_bind (x : Reader α) (f : α → Reader β) (s : List Char) :
    (x >>= f).run s = match x.run s with
      | .error fault => .error fault
      | .ok (a, rest) => (f a).run rest := rfl

theorem run_bind_of_ok {x : Reader α} {s rest : List Char} {a : α} (h : x.run s = .ok (a, rest))
    (f : α → Reader β) : (x >>= f).run s = (f a).run rest := by
  rw [run_bind, h]

/-! ## Single characters -/

/-- The reader takes at least one character whenever it succeeds. -/
def Consumes (x : Reader α) : Prop :=
  ∀ {s a rest}, x.run s = .ok (a, rest) → rest.length < s.length

theorem Consumes.bind {x : Reader α} (hx : x.Consumes) (f : α → Reader β) :
    (x >>= f).Consumes := by
  intro s b rest h
  rw [run_bind] at h
  split at h
  · cases h
  · next a mid hm => exact Nat.lt_of_le_of_lt ((f a).length_le h) (hx hm)

/-- The next character, whatever it is. -/
def anyChar : Reader Char where
  run
    | [] => .error .truncated
    | c :: rest => .ok (c, rest)
  length_le := by
    intro s c rest h
    cases s with
    | nil => cases h
    | cons d tail => cases h; exact Nat.le_succ _

theorem anyChar_consumes : anyChar.Consumes := by
  intro s c rest h
  cases s with
  | nil => cases h
  | cons d tail => cases h; exact Nat.lt_succ_self _

@[simp] theorem run_anyChar_cons (c : Char) (s : List Char) : anyChar.run (c :: s) = .ok (c, s) :=
  rfl

@[simp] theorem run_anyChar_nil : anyChar.run [] = .error .truncated := rfl

/-- The next character, left where it is; `none` at the end. -/
def peek : Reader (Option Char) :=
  ⟨fun s => .ok (s.head?, s), by intro s a rest h; cases h; exact Nat.le_refl _⟩

@[simp] theorem run_peek (s : List Char) : peek.run s = .ok (s.head?, s) := rfl

/-- The longest run of characters that pass the test. -/
def takeWhile (test : Char → Bool) : Reader (List Char) where
  run s := .ok (s.takeWhile test, s.dropWhile test)
  length_le := by
    intro s a rest h
    cases h
    exact (List.dropWhile_suffix test).length_le

@[simp] theorem run_takeWhile (test : Char → Bool) (s : List Char) :
    (takeWhile test).run s = .ok (s.takeWhile test, s.dropWhile test) := rfl

/-- Space, tab, line feed and carriage return may stand around every value and mark. -/
def isBlank (c : Char) : Bool :=
  c == ' ' || c == '\t' || c == '\n' || c == '\r'

/-- Passes over blanks. -/
def skipBlanks : Reader (List Char) := takeWhile isBlank

/-- The next character that is not blank. -/
def token : Reader Char := do
  let _ ← skipBlanks
  anyChar

/-- The next character that is not blank, left where it is; `none` at the end. -/
def peekToken : Reader (Option Char) := do
  let _ ← skipBlanks
  peek

theorem token_consumes : token.Consumes := by
  intro s c rest h
  rw [token, run_bind, skipBlanks, run_takeWhile] at h
  exact Nat.lt_of_lt_of_le (anyChar_consumes h) (List.dropWhile_suffix isBlank).length_le

theorem run_token_cons {c : Char} (hc : isBlank c = false) (s : List Char) :
    token.run (c :: s) = .ok (c, s) := by
  simp [token, skipBlanks, run_bind, hc]

theorem run_peekToken_cons {c : Char} (hc : isBlank c = false) (s : List Char) :
    peekToken.run (c :: s) = .ok (some c, c :: s) := by
  simp [peekToken, skipBlanks, run_bind, hc]

/-- The given characters, one by one. -/
def expect : List Char → Reader Unit
  | [] => pure ()
  | c :: cs => do
    let d ← anyChar
    if d = c then expect cs else malformed

/-- The given mark, after blanks. -/
def mark (c : Char) : Reader Unit := do
  let d ← token
  if d = c then pure () else malformed

/-! ## The loop -/

/-- Repeats `step`, which takes at least one character each time, until it yields a result. -/
def runIterate (step : σ → Reader (σ ⊕ α)) (consumes : ∀ s, (step s).Consumes) (state : σ)
    (text : List Char) : Except TextFault (α × List Char) :=
  match h : (step state).run text with
  | .error fault => .error fault
  | .ok (.inr a, rest) => .ok (a, rest)
  | .ok (.inl next, rest) =>
    have : rest.length < text.length := consumes state h
    runIterate step consumes next rest
termination_by text.length

theorem runIterate_length_le (step : σ → Reader (σ ⊕ α)) (consumes : ∀ s, (step s).Consumes)
    (state : σ) (text : List Char) {a : α} {rest : List Char}
    (h : runIterate step consumes state text = .ok (a, rest)) : rest.length ≤ text.length := by
  fun_induction runIterate step consumes state text with
  | case1 => cases h
  | case2 state text b mid hs => cases h; exact (step state).length_le hs
  | case3 state text next mid hs hlt ih => exact Nat.le_trans (ih h) (Nat.le_of_lt hlt)

/-- Repeats `step`, which takes at least one character each time, until it yields a result. -/
def iterate (step : σ → Reader (σ ⊕ α)) (consumes : ∀ s, (step s).Consumes) (state : σ) :
    Reader α :=
  ⟨runIterate step consumes state, runIterate_length_le step consumes state _⟩

/-- One step of the loop. -/
theorem run_iterate (step : σ → Reader (σ ⊕ α)) (consumes : ∀ s, (step s).Consumes) (state : σ)
    (text : List Char) : (iterate step consumes state).run text =
      match (step state).run text with
      | .error fault => .error fault
      | .ok (.inr a, rest) => .ok (a, rest)
      | .ok (.inl next, rest) => (iterate step consumes next).run rest := by
  simp only [iterate]
  rw [runIterate]
  split <;> rename_i h <;> simp only [h]

theorem run_iterate_of_done {step : σ → Reader (σ ⊕ α)} {consumes : ∀ s, (step s).Consumes}
    {state : σ} {text rest : List Char} {a : α}
    (h : (step state).run text = .ok (.inr a, rest)) :
    (iterate step consumes state).run text = .ok (a, rest) := by
  rw [run_iterate, h]

theorem run_iterate_of_next {step : σ → Reader (σ ⊕ α)} {consumes : ∀ s, (step s).Consumes}
    {state next : σ} {text rest : List Char}
    (h : (step state).run text = .ok (.inl next, rest)) :
    (iterate step consumes state).run text = (iterate step consumes next).run rest := by
  rw [run_iterate, h]

/-! ## Whole texts -/

/-- Reads a value that fills the text, blanks aside. -/
def readAll (x : Reader α) (text : List Char) : Except TextFault α :=
  match x.run text with
  | .error fault => .error fault
  | .ok (a, rest) => if rest.all isBlank then .ok a else .error .malformed

end Reader

end Conic.Json
