import Conic.Json.Skip
import Conic.Decimal.Layout

/-!
# Codecs

A `Codec` writes values of a type as compact text and reads them back. Reading is more generous
than writing: blanks may stand anywhere, members of an object in any order, members that nobody
knows are passed over, and an object may be given as the list of its members.

* `index`, `bool`, `float` — positions, truth values and numbers.
* `list`, `pair` — lists of one kind, lists of exactly two.
* `Fields` — the members of an object with their names, in the order in which they are written.
* `record` — an object with these members.
* `tagged` — an object whose only member says by its name which case its content belongs to.
-/

namespace Conic.Json

open Reader

/-- Writes values of a type and reads them back. -/
structure Codec (α : Type) where
  write : α → List Char
  read : Reader α

namespace Codec

variable {α β : Type}

/-- The same text for another type. -/
def map (c : Codec α) (make : α → β) (part : β → α) : Codec β :=
  ⟨fun b => c.write (part b), do return make (← c.read)⟩

/-! ## Numbers and words -/

/-- The numeral that begins with the next character; a value of another kind is refused. -/
def numeral : Reader Numeral := do
  let c ← token
  if Numeral.starts c then Numeral.read .truncated c else refuse c

/-- What the numeral stands for, if it is acceptable. -/
def numeralAs (accept : Numeral → Option α) : Reader α := do
  match accept (← numeral) with
  | some a => return a
  | none => malformed

/-- Positions below `2 ^ 64`. -/
def index : Codec Nat :=
  ⟨Decimal.digitsOf, numeralAs Numeral.index?⟩

/-- Numbers: the fewest digits that read back, a point in every number without an exponent, and an
exponent from ten to the sixteenth on and below a hundred-thousandth. -/
def numberLayout : Decimal.Layout :=
  ⟨.toEven, fun power => -5 ≤ power && power ≤ 15, true⟩

/-- Numbers. An infinite or undefined one is written as `null`, which is not read as a number. -/
def float : Codec Float :=
  ⟨fun x => (numberLayout.text? x).getD ['n', 'u', 'l', 'l'], numeralAs Numeral.toFloat?⟩

/-- Truth values. -/
def bool : Codec Bool where
  write b := if b then ['t', 'r', 'u', 'e'] else ['f', 'a', 'l', 's', 'e']
  read := do
    let c ← token
    if c == 't' then
      expect ['r', 'u', 'e']
      return true
    else if c == 'f' then
      expect ['a', 'l', 's', 'e']
      return false
    else refuse c

/-! ## Lists -/

/-- Texts with commas between them. -/
def separated : List (List Char) → List Char
  | [] => []
  | [t] => t
  | t :: ts => t ++ ',' :: separated ts

/-- After an item: the closing mark, or a comma and the next item. The items so far are held in
reverse. -/
def nextItem (item : Reader α) (done : List α) : Reader (List α ⊕ List α) :=
  token >>= fun c =>
    if c == ']' then pure (.inr done.reverse)
    else if c == ',' then item >>= fun a => pure (.inl (a :: done))
    else malformed

theorem nextItem_consumes (item : Reader α) (done : List α) : (nextItem item done).Consumes :=
  token_consumes.bind _

/-- What follows the opening mark of a list. -/
def items (item : Reader α) : Reader (List α) := do
  if (← peekToken) == some ']' then
    let _ ← token
    return []
  else
    iterate (nextItem item) (nextItem_consumes item) [← item]

/-- Lists of one kind. -/
def list (c : Codec α) : Codec (List α) where
  write as := '[' :: separated (as.map c.write) ++ [']']
  read := do
    let m ← token
    if m == '[' then items c.read else refuse m

/-! ## Objects -/

end Codec

/-- The name of a member or of a case, the first character of which is `c`. What is not a quoted
text is refused without being read. -/
def nameFrom (c : Char) : Reader String :=
  if c == '"' then Quoted.body else malformed

/-- The members of an object, in order: name, codec and, for one that may be missing, the value it
then has. -/
inductive Fields : Type → Type 1 where
  | done : Fields Unit
  | field {α ρ : Type} (name : String) (codec : Codec α) (default? : Option α) (rest : Fields ρ) :
      Fields (α × ρ)

namespace Fields

/-- The members read so far. -/
def Slots : {ρ : Type} → Fields ρ → Type
  | _, .done => Unit
  | _, .field (α := α) _ _ _ rest => Option α × rest.Slots

/-- Nothing read so far. -/
def empty : {ρ : Type} → (f : Fields ρ) → f.Slots
  | _, .done => ()
  | _, .field _ _ _ rest => (none, rest.empty)

/-- What becomes of a member with a given name: nobody knows it, it was there before, or it is
read into its slot. -/
inductive Member (σ : Type) where
  | unknown
  | repeated
  | value (read : Reader σ)

/-- The member with the given name. -/
def member : {ρ : Type} → (f : Fields ρ) → String → f.Slots → Member f.Slots
  | _, .done, _ => fun _ => .unknown
  | _, .field name codec _ rest, key => fun (slot, slots) =>
    if key = name then
      if slot.isSome then .repeated
      else .value (codec.read >>= fun a => pure (some a, slots))
    else match rest.member key slots with
      | .unknown => .unknown
      | .repeated => .repeated
      | .value read => .value (read >>= fun slots => pure (slot, slots))

/-- The object, if every member that may not be missing has been read. -/
def collect? : {ρ : Type} → (f : Fields ρ) → f.Slots → Option ρ
  | _, .done => fun _ => some ()
  | _, .field _ _ default? rest => fun (slot, slots) =>
    match slot <|> default?, rest.collect? slots with
    | some a, some b => some (a, b)
    | _, _ => none

/-- The member with the given name: refused at once when it is there before, otherwise its colon and
its value. -/
def readMember {ρ : Type} (f : Fields ρ) (slots : f.Slots) (name : String) : Reader f.Slots :=
  match f.member name slots with
  | .repeated => malformed
  | .value read => mark ':' >>= fun _ => read
  | .unknown => mark ':' >>= fun _ => skipValue >>= fun _ => pure slots

/-- The next member, or the closing mark. `fresh` says that no member has been seen yet. -/
def nextMember {ρ : Type} (f : Fields ρ) (state : Bool × f.Slots) :
    Reader ((Bool × f.Slots) ⊕ f.Slots) :=
  token >>= fun c =>
    if c == '\x7d' then pure (.inr state.2)
    else
      (if state.1 then nameFrom c
        else if c == ',' then token >>= nameFrom
        else malformed) >>= fun name =>
      f.readMember state.2 name >>= fun slots => pure (.inl (false, slots))

theorem nextMember_consumes {ρ : Type} (f : Fields ρ) (state : Bool × f.Slots) :
    (f.nextMember state).Consumes :=
  token_consumes.bind _

/-- What follows the opening mark of an object. -/
def readObject {ρ : Type} (f : Fields ρ) : Reader ρ := do
  let slots ← iterate f.nextMember f.nextMember_consumes (true, f.empty)
  match f.collect? slots with
  | some object => return object
  | none => malformed

/-- What follows the opening mark of an object that is given as the list of its members. A list that
ends early leaves out the last ones. -/
def readList : {ρ : Type} → (f : Fields ρ) → (fresh : Bool) → Reader ρ
  | _, .done, _ => mark ']'
  | _, .field _ codec default? rest, fresh => do
    if (← peekToken) == some ']' then
      match default? with
      | some a => return (a, ← rest.readList fresh)
      | none => malformed
    else
      if !fresh then mark ','
      let a ← codec.read
      return (a, ← rest.readList false)

/-- The members, each with its name. -/
def writeMembers : {ρ : Type} → Fields ρ → ρ → List (List Char)
  | _, .done, () => []
  | _, .field name codec _ rest, (a, more) =>
    (Quoted.write name ++ ':' :: codec.write a) :: rest.writeMembers more

end Fields

namespace Codec

variable {α β ρ : Type}

/-- An object with these members. -/
def record (f : Fields ρ) : Codec ρ where
  write object := '\x7b' :: separated (f.writeMembers object) ++ ['\x7d']
  read := do
    let c ← token
    if c == '\x7b' then f.readObject
    else if c == '[' then f.readList true
    else refuse c

/-- A list of exactly two. -/
def pair (a : Codec α) (b : Codec β) : Codec (α × β) where
  write p := '[' :: a.write p.1 ++ ',' :: b.write p.2 ++ [']']
  read := do
    let c ← token
    if c == '[' then
      let x ← a.read
      mark ','
      let y ← b.read
      mark ']'
      return (x, y)
    else refuse c

/-- The text of one case with its content. -/
def writeTagged (name : String) (content : List Char) : List Char :=
  '\x7b' :: Quoted.write name ++ ':' :: content ++ ['\x7d']

/-- An object with one member that names a case, or the bare name of a case without content. -/
def tagged (content : String → Option (Reader α)) (bare : String → Option α) : Reader α := do
  let c ← token
  if c == '\x7b' then
    match content (← nameFrom (← token)) with
    | some read =>
      mark ':'
      let a ← read
      mark '\x7d'
      return a
    | none => malformed
  else if c == '"' then
    match bare (← Quoted.body) with
    | some a => return a
    | none => malformed
  else malformed

/-- The word for the absence of content. -/
def null : Reader Unit := do
  let c ← token
  if c == 'n' then expect ['u', 'l', 'l'] else refuse c

/-- Writes a value as text. -/
def toText (c : Codec α) (a : α) : String :=
  String.ofList (c.write a)

/-- Reads a text that holds one value and nothing else. -/
def ofText (c : Codec α) (text : String) : Except TextFault α :=
  c.read.readAll text.toList

end Codec

end Conic.Json
