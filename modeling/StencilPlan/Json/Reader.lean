import StencilPlan.Json.Token

/-!
# Reading JSON texts

Tokens are put together by a machine with a stack of the arrays and objects that are still open.
A text is one value and nothing else.
-/

namespace StencilPlan.Json

/-- An array or object that is still open; its parts are in reverse order. -/
inductive Frame where
  | items (done : List Json)
  | fields (done : List (Option String × Json))
  /-- An object that waits for the value of a field. -/
  | field (done : List (Option String × Json)) (key : Option String)

/-- What may come next. -/
inductive Expect where
  /-- A value. -/
  | value
  /-- A value or the end of the array that was just opened. -/
  | firstItem
  /-- A key or the end of the object that was just opened. -/
  | firstKey
  | key
  | colon
  /-- A comma or the end of what is open. -/
  | more
  /-- Nothing: the value is complete. -/
  | finished (v : Json)

/-- The open arrays and objects, innermost first, and what may come next. -/
structure Build where
  stack : List Frame
  expect : Expect

/-- Adds a complete value to what is open. -/
def Build.put (v : Json) : List Frame → Option Build
  | [] => some ⟨[], .finished v⟩
  | .items done :: rest => some ⟨.items (v :: done) :: rest, .more⟩
  | .field done k :: rest => some ⟨.fields ((k, v) :: done) :: rest, .more⟩
  | .fields _ :: _ => none

/-- Starts a value with a token. -/
def Build.begin (frames : List Frame) : Token → Option Build
  | .leaf v => Build.put v frames
  | .mark '[' => some ⟨.items [] :: frames, .firstItem⟩
  | .mark '\x7b' => some ⟨.fields [] :: frames, .firstKey⟩
  | .mark _ => none

/-- Closes the innermost array or object. -/
def Build.close : List Frame → Char → Option Build
  | .items done :: rest, ']' => Build.put (.array done.reverse) rest
  | .fields done :: rest, '\x7d' => Build.put (.object done.reverse) rest
  | _, _ => none

/-- Takes one token. -/
def Build.step (b : Build) (t : Token) : Option Build :=
  match b.expect, b.stack, t with
  | .finished _, _, _ => none
  | .value, frames, t => Build.begin frames t
  | .firstItem, frames, .mark ']' => Build.close frames ']'
  | .firstItem, frames, t => Build.begin frames t
  | .firstKey, frames, .mark c => Build.close frames c
  | .firstKey, .fields done :: rest, .leaf (.text k) => some ⟨.field done k :: rest, .colon⟩
  | .key, .fields done :: rest, .leaf (.text k) => some ⟨.field done k :: rest, .colon⟩
  | .colon, frames, .mark ':' => some ⟨frames, .value⟩
  | .more, .items done :: rest, .mark ',' => some ⟨.items done :: rest, .value⟩
  | .more, .fields done :: rest, .mark ',' => some ⟨.fields done :: rest, .key⟩
  | .more, frames, .mark c => Build.close frames c
  | _, _, _ => none

/-- The value a text stands for. -/
def parse? (s : String) : Option Json := do
  let tokens ← tokens? s.toList
  match ← tokens.foldlM Build.step ⟨[], .value⟩ with
  | ⟨_, .finished v⟩ => some v
  | _ => none

end StencilPlan.Json
