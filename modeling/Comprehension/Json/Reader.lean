import Comprehension.Json.Token

/-!
Reading JSON. The tokens are taken one at a time; the arrays and objects that are still open stand
on a stack, so that values may nest to any depth.
-/

namespace Comprehension.Json

/-- An array or object that is not closed yet, with what it holds so far, the last first. -/
inductive Opened where
  | items (done : List Json)
  | entries (done : List (Option String × Json))
  /-- An object whose last key waits for its value. -/
  | entry (done : List (Option String × Json)) (key : Option String)

/-- What may come next. -/
inductive Want where
  | value
  | firstItem
  | firstKey
  | key
  | colon
  | separator
  deriving DecidableEq, Repr

inductive ReaderState where
  | reading (stack : List Opened) (want : Want)
  | finished (v : Json)

namespace ReaderState

/-- A value is complete: it goes to what is open around it. -/
def deliver (v : Json) : List Opened → Option ReaderState
  | [] => some (finished v)
  | .items done :: stack => some (reading (.items (v :: done) :: stack) .separator)
  | .entry done k :: stack => some (reading (.entries ((k, v) :: done) :: stack) .separator)
  | .entries _ :: _ => none

def beginValue (stack : List Opened) : Token → Option ReaderState
  | .null => deliver .null stack
  | .bool b => deliver (.bool b) stack
  | .number t => deliver (.number t) stack
  | .string t => deliver (.string t) stack
  | .openArray => some (reading (.items [] :: stack) .firstItem)
  | .openObject => some (reading (.entries [] :: stack) .firstKey)
  | _ => none

def step : ReaderState → Token → Option ReaderState
  | reading stack .value, t => beginValue stack t
  | reading (.items vs :: stack) .firstItem, .closeArray => deliver (.array vs.reverse) stack
  | reading stack .firstItem, t => beginValue stack t
  | reading (.entries es :: stack) .firstKey, .closeObject => deliver (.object es.reverse) stack
  | reading (.entries es :: stack) .firstKey, .string k
  | reading (.entries es :: stack) .key, .string k => some (reading (.entry es k :: stack) .colon)
  | reading stack .colon, .colon => some (reading stack .value)
  | reading (.items vs :: stack) .separator, .comma => some (reading (.items vs :: stack) .value)
  | reading (.items vs :: stack) .separator, .closeArray => deliver (.array vs.reverse) stack
  | reading (.entries es :: stack) .separator, .comma => some (reading (.entries es :: stack) .key)
  | reading (.entries es :: stack) .separator, .closeObject => deliver (.object es.reverse) stack
  | _, _ => none

end ReaderState

/-- The value of a text, if it is exactly one value. -/
def read? (s : String) : Option Json := do
  let ts ← tokens s
  match ← ts.foldlM ReaderState.step (.reading [] .value) with
  | .finished v => some v
  | .reading _ _ => none

end Comprehension.Json
