/-!
# Where text is printed

* `Writer` — a writer supplied by the caller. It may take only a part of what it is given and say
  why, and it may fail when it is asked to flush.
* `Target` — the console, a buffer, a supplied writer, or nowhere.
* `Target.print` — prints pieces of text one after another and flushes; the first failure ends it.
-/

namespace Conic

/-- A writer supplied by the caller. Its answers may differ from request to request. -/
structure Writer where
  /-- What it has taken so far. -/
  text : String
  /-- How often it was flushed. -/
  flushes : Nat
  /-- The number of requests so far. -/
  requests : Nat
  /-- How it answers a piece of text, given the number of requests and the text taken before: `none`
  if it takes it all, otherwise the number of characters that it takes and why it stops. -/
  refusal? : Nat → String → String → Option (Nat × String)
  /-- How it answers a flush, given the same: `none` if it succeeds, otherwise why it fails. -/
  flushRefusal? : Nat → String → Option String

namespace Writer

/-- A fresh writer that takes everything. -/
def unlimited : Writer :=
  ⟨"", 0, 0, fun _ _ _ => none, fun _ _ => none⟩

/-- A fresh writer that takes `room` characters in all and then has the given reason to stop. -/
def limited (room : Nat) (reason : String) : Writer :=
  { unlimited with
    refusal? := fun _ taken piece =>
      if taken.length + piece.length ≤ room then none else some (room - taken.length, reason) }

/-- The writer after a piece of text, and why it stopped if it did. -/
def put (w : Writer) (piece : String) : Writer × Option String :=
  let next := { w with requests := w.requests + 1 }
  match w.refusal? w.requests w.text piece with
  | none => ({ next with text := w.text ++ piece }, none)
  | some (taken, reason) =>
    ({ next with text := w.text ++ String.ofList (piece.toList.take taken) }, some reason)

/-- The writer after a flush, and why it failed if it did. -/
def flush (w : Writer) : Writer × Option String :=
  let next := { w with requests := w.requests + 1 }
  match w.flushRefusal? w.requests w.text with
  | none => ({ next with flushes := w.flushes + 1 }, none)
  | some reason => (next, some reason)

/-- The writer after pieces of text and a flush; the first failure ends it. -/
def print (w : Writer) : List String → Writer × Option String
  | [] => w.flush
  | piece :: rest =>
    match w.put piece with
    | (w, none) => w.print rest
    | (w, some reason) => (w, some reason)

end Writer

/-- Where text is printed. -/
inductive Target where
  | console
  | buffer (text : String)
  | stream (writer : Writer)
  | sink

namespace Target

/-- The name of a target in messages. -/
def name : Target → String
  | .console => "Stdout"
  | .buffer _ => "Buffer"
  | .stream _ => "Stream"
  | .sink => "Sink"

/-- What printing came to: the target afterwards, the text that went to the console, and why it
failed if it did. -/
structure Printed where
  target : Target
  console : String
  failure : Option String

/-- Prints pieces of text and flushes. -/
def print (pieces : List String) : Target → Printed
  | .console => ⟨.console, String.join pieces, none⟩
  | .buffer text => ⟨.buffer (text ++ String.join pieces), "", none⟩
  | .stream writer =>
    let (writer, failure) := writer.print pieces
    ⟨.stream writer, "", failure⟩
  | .sink => ⟨.sink, "", none⟩

/-- The text in the buffer, or why there is none. -/
def bufferText (t : Target) : Except String String :=
  match t with
  | .buffer text => .ok text
  | _ => .error s!"output is not buffered (target is {t.name})"

end Target

end Conic
