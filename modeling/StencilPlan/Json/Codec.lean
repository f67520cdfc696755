import StencilPlan.Json.Reader
import StencilPlan.Number.Shortest

/-!
# Records and maps as JSON values

A record is read from an object that has each of its fields exactly once, whatever else it has, or
from an array of exactly the fields in order. A map becomes an object, whose keys are strings: what
a key of the map is called is worked out from the value that the key becomes.
-/

namespace StencilPlan.Json

/-- The values of the named fields, in that order. -/
def fields? (names : List String) : Json → Option (List Json)
  | .array items => if items.length = names.length then some items else none
  | .object fields =>
    if fields.all (·.1.isSome) then
      names.mapM fun n =>
        match fields.filter (·.1 = some n) with
        | [f] => some f.2
        | _ => none
    else none
  | _ => none

def text? : Json → Option String
  | .text s => s
  | _ => none

def bool? : Json → Option Bool
  | .bool b => some b
  | _ => none

/-- The number a value is. -/
def number? : Json → Option NumberText
  | .number ds => NumberText.parse? ds
  | _ => none

/-- An integer between two bounds. -/
def between? (low high : Int) (v : Json) : Option Int :=
  (v.number?.bind NumberText.int?).filter fun n => low ≤ n ∧ n ≤ high

/-- A signed 64-bit integer. -/
def idx? : Json → Option Int := between? Idx.min Idx.max

/-- A signed 32-bit integer. -/
def int32? : Json → Option Int := between? (-2147483648) 2147483647

/-- A count. -/
def word? (v : Json) : Option Nat := (between? 0 Word.max v).map Int.toNat

def real? (v : Json) : Option Binary64 := v.number?.bind NumberText.real?

/-- The items of an array, each read by `item?`. -/
def list? {α : Type} (item? : Json → Option α) : Json → Option (List α)
  | .array items => items.mapM item?
  | _ => none

/-- What a value is called as the key of a field. A string stands for itself, truth values and
numbers are written out, and nothing else can be a key. -/
def key? : Json → Option String
  | .text s => s
  | .bool b => some (render (.bool b))
  | .number ds => some (render (.number ds))
  | .null | .array _ | .object _ => none

/-- A map as an object, with its entries in order. -/
def ofEntries? {κ α : Type} (key : κ → Json) (value? : α → Option Json) (es : List (κ × α)) :
    Option Json := do
  return record (← es.mapM fun e => do return ((← (key e.1).key?), (← value? e.2)))

/-- The entries of an object in order. A key is read as the string that it is. -/
def entries? {κ α : Type} (key? : Json → Option κ) (value? : Json → Option α) :
    Json → Option (List (κ × α))
  | .object fields => fields.mapM fun f => do return ((← key? (.text f.1)), (← value? f.2))
  | _ => none

/-- A finite real; others have no text and become `null`. -/
def real (x : Binary64) : Json := if x.isFinite then .number x.render.toList else .null

end StencilPlan.Json
