import Conic.Json.Reader

/-!
# Quoted texts

A quoted text runs to the next quotation mark. Control characters may not stand in it, and a
backslash begins an escape: one of eight letters and marks, or `u` with four hexadecimal digits.
A number from the first half of the surrogates must be followed by an escape for one from the
second half, and the two stand for one character.

* `Quoted.body` — what follows the opening quotation mark, decoded.
* `Quoted.skip` — the same without looking at surrogates, for texts that nobody reads.
* `Quoted.write` — a text of plain characters in its quotation marks.
-/

namespace Conic.Json.Quoted

/-- Where reading stands inside a quoted text. -/
inductive State where
  /-- Between characters. -/
  | plain
  /-- After a backslash. -/
  | escape
  /-- Among the digits of an escape: a first surrogate read before, digits to come, and the
  number so far. -/
  | digits (high : Option Nat) (left : Nat) (number : Nat)
  /-- After a first surrogate. -/
  | lowEscape (high : Nat)
  /-- After a first surrogate and a backslash. -/
  | lowDigits (high : Nat)

/-- The value of a hexadecimal digit. -/
def hexValue? (c : Char) : Option Nat :=
  if '0' ≤ c ∧ c ≤ '9' then some (c.toNat - '0'.toNat)
  else if 'a' ≤ c ∧ c ≤ 'f' then some (c.toNat - 'a'.toNat + 10)
  else if 'A' ≤ c ∧ c ≤ 'F' then some (c.toNat - 'A'.toNat + 10)
  else none

/-- The character that a letter or mark after a backslash stands for. -/
def escaped? : Char → Option Char
  | '"' => some '"'
  | '\\' => some '\\'
  | '/' => some '/'
  | 'b' => some '\x08'
  | 'f' => some '\x0c'
  | 'n' => some '\n'
  | 'r' => some '\r'
  | 't' => some '\t'
  | _ => none

/-- Does the text still hold the four bytes that the digits of an escape need? -/
def roomForDigits (text : List Char) : Bool :=
  4 ≤ (text.take 4).foldl (fun bytes c => bytes + c.utf8Size) 0

/-- Is the number a first surrogate? -/
def isHigh (number : Nat) : Bool := 0xD800 ≤ number && number ≤ 0xDBFF

/-- Is the number a second surrogate? -/
def isLow (number : Nat) : Bool := 0xDC00 ≤ number && number ≤ 0xDFFF

/-- The character that two surrogates stand for. -/
def joined (high low : Nat) : Char :=
  Char.ofNat (0x10000 + (high - 0xD800) * 0x400 + (low - 0xDC00))

/-- What a complete escape adds: a character, or a first surrogate that waits for its second. -/
def ofNumber (high : Option Nat) (number : Nat) : Except TextFault (Sum Char Nat) :=
  match high with
  | none =>
    if isLow number then .error .malformed
    else if isHigh number then .ok (.inr number)
    else .ok (.inl (Char.ofNat number))
  | some first => if isLow number then .ok (.inl (joined first number)) else .error .malformed

/-- Reads to the closing quotation mark. `paired` asks for surrogates to come in pairs; without it
escapes are checked for their digits only and leave no character. -/
def scan (paired : Bool) : State → List Char → List Char → Except TextFault (List Char × List Char)
  | _, _, [] => .error .truncated
  | .plain, done, c :: rest =>
    if c = '"' then .ok (done.reverse, rest)
    else if c = '\\' then scan paired .escape done rest
    else if c.toNat < 0x20 then .error .malformed
    else scan paired .plain (c :: done) rest
  | .escape, done, c :: rest =>
    if c = 'u' then
      if roomForDigits rest then scan paired (.digits none 4 0) done rest else .error .truncated
    else match escaped? c with
      | some d => scan paired .plain (d :: done) rest
      | none => .error .malformed
  | .digits high left number, done, c :: rest =>
    match hexValue? c with
    | none => .error .malformed
    | some digit =>
      let number := number * 16 + digit
      if left > 1 then scan paired (.digits high (left - 1) number) done rest
      else if !paired then scan paired .plain done rest
      else match ofNumber high number with
        | .error fault => .error fault
        | .ok (.inl d) => scan paired .plain (d :: done) rest
        | .ok (.inr first) => scan paired (.lowEscape first) done rest
  | .lowEscape high, done, c :: rest =>
    if c = '\\' then scan paired (.lowDigits high) done rest else .error .malformed
  | .lowDigits high, done, c :: rest =>
    if c = 'u' then
      if roomForDigits rest then scan paired (.digits (some high) 4 0) done rest
      else .error .truncated
    else .error .malformed

theorem scan_length_le (paired : Bool) (state : State) (done text : List Char) {a rest : List Char}
    (h : scan paired state done text = .ok (a, rest)) : rest.length ≤ text.length := by
  fun_induction scan paired state done text <;> first
    | (cases h; exact Nat.le_succ _)
    | cases h
    | (next ih => exact Nat.le_succ_of_le (ih h))

/-- What follows the opening quotation mark, up to the closing one. -/
def body : Reader String :=
  ⟨fun text => (scan true .plain [] text).map fun (cs, rest) => (String.ofList cs, rest), by
    intro text a rest h
    cases hs : scan true .plain [] text with
    | error => rw [hs] at h; cases h
    | ok p =>
      obtain ⟨cs, mid⟩ := p
      rw [hs] at h
      cases h
      exact scan_length_le true .plain [] text hs⟩

/-- Passes over what follows the opening quotation mark. -/
def skip : Reader (List Char) :=
  ⟨scan false .plain [], scan_length_le false .plain [] _⟩

/-- A text in its quotation marks. Only texts without marks, backslashes and control characters
are ever written. -/
def write (text : String) : List Char :=
  '"' :: text.toList ++ ['"']

end Conic.Json.Quoted
