import StencilPlan.Arith.Checked

/-!
# Dimension vectors

A `DimVec` gives a value to each of some named dimensions, in order. Sizes of tiles, counts of
ranks, offsets between neighbors and points of the domain are all dimension vectors. The order is
significant: it is the order of storage, with the last dimension having unit stride.

Every operation here keeps names apart, so a vector built by them never repeats a name. One read
from a text may; then the first entry of a name is the one that is looked up and set.
-/

namespace StencilPlan

/-- An ordered list of named values. -/
structure DimVec where
  entries : List (String × Int)
  deriving DecidableEq, Repr, Inhabited

namespace DimVec

/-- The vector without dimensions. -/
def empty : DimVec := ⟨[]⟩

/-- How many dimensions there are. -/
def length (t : DimVec) : Nat := t.entries.length

def isEmpty (t : DimVec) : Bool := t.entries.isEmpty

/-- The names, in order. -/
def names (t : DimVec) : List String := t.entries.map (·.1)

/-- The values, in order. -/
def values (t : DimVec) : List Int := t.entries.map (·.2)

/-- The name at a position. -/
def name? (t : DimVec) (i : Nat) : Option String := t.names[i]?

/-- The value of a dimension. -/
def get? (t : DimVec) (dim : String) : Option Int := t.entries.lookup dim

/-- The value of a dimension, or `default` where it is absent. -/
def getD (t : DimVec) (dim : String) (default : Int) : Int := (t.get? dim).getD default

/-- The position of a dimension. -/
def indexOf? (t : DimVec) (dim : String) : Option Nat := t.names.idxOf? dim

def contains (t : DimVec) (dim : String) : Bool := (t.indexOf? dim).isSome

/-- The value at a position; a position past the end is a fault. -/
def nth (t : DimVec) (i : Nat) : Checked Int :=
  match t.values[i]? with
  | some v => .ok v
  | none => .error (.position t.length i)

/-- Replaces the value of the first entry called `dim`. -/
def replaceFirst (dim : String) (v : Int) : List (String × Int) → List (String × Int)
  | [] => []
  | e :: es => if e.1 = dim then (e.1, v) :: es else e :: replaceFirst dim v es

/-- Sets the value of a dimension; a vector without it stays as it is. -/
def set (t : DimVec) (dim : String) (v : Int) : DimVec := ⟨replaceFirst dim v t.entries⟩

/-- Sets the value at a position; a position past the end is a fault. -/
def setAt (t : DimVec) (i : Nat) (v : Int) : Checked DimVec :=
  match t.entries[i]? with
  | some e => .ok ⟨t.entries.set i (e.1, v)⟩
  | none => .error (.position t.length i)

/-- Replaces every value. -/
def map (f : String → Int → Int) (t : DimVec) : DimVec :=
  ⟨t.entries.map fun e => (e.1, f e.1 e.2)⟩

/-- Gives every dimension the same value. -/
def fill (t : DimVec) (v : Int) : DimVec := t.map fun _ _ => v

/-- Replaces the values in order, leaving what is past the end of `vs`. -/
def withValues (t : DimVec) (vs : List Int) : DimVec :=
  ⟨(t.entries.zip vs).map (fun p => (p.1.1, p.2)) ++ t.entries.drop vs.length⟩

/-- Adds a dimension after the others, or sets it if it is there. -/
def append (t : DimVec) (dim : String) (v : Int) : DimVec :=
  if t.contains dim then t.set dim v else ⟨t.entries ++ [(dim, v)]⟩

/-- Adds a dimension before the others, or sets it if it is there. -/
def prepend (t : DimVec) (dim : String) (v : Int) : DimVec :=
  if t.contains dim then t.set dim v else ⟨(dim, v) :: t.entries⟩

/-- The vector of some named values; a repeated name only sets its value again. -/
def ofPairs (es : List (String × Int)) : DimVec :=
  es.foldl (fun t e => t.append e.1 e.2) empty

/-- The vector that gives each name the same value. -/
def ofNames (ns : List String) (v : Int) : DimVec := ofPairs (ns.map (·, v))

/-- Product of the values, from the left; one without dimensions. -/
def product (t : DimVec) : Checked Int := Idx.product t.values

/-- Sum of the values, from the left. -/
def sum (t : DimVec) : Checked Int := Idx.sum t.values

/-- The vector without the dimension at a position. -/
def eraseAt (t : DimVec) (i : Nat) : DimVec := ⟨t.entries.eraseIdx i⟩

/-- The greater value in each dimension that both vectors have; else the own value. -/
def sup (t other : DimVec) : DimVec :=
  t.map fun dim v => match other.get? dim with
    | some o => max v o
    | none => v

/-- The own dimensions followed by those of `other` that are missing. -/
def union (t other : DimVec) : DimVec :=
  other.entries.foldl (fun t e => if t.contains e.1 then t else ⟨t.entries ++ [e]⟩) t

/-- Text of the form `x=3, y=4`, with any separator. -/
def renderWith (sep : String) (t : DimVec) : String :=
  sep.intercalate (t.entries.map fun e => s!"{e.1}={e.2}")

/-- Text of the values alone. -/
def renderValues (sep : String) (t : DimVec) : String :=
  sep.intercalate (t.values.map toString)

/-- The usual text of a vector. -/
def render (t : DimVec) : String := t.renderWith ", "

instance : ToString DimVec := ⟨render⟩

@[simp] theorem values_map (f : String → Int → Int) (t : DimVec) :
    (t.map f).values = t.entries.map fun e => f e.1 e.2 := by
  simp [map, values]

@[simp] theorem names_map (f : String → Int → Int) (t : DimVec) : (t.map f).names = t.names := by
  simp [map, names]

@[simp] theorem names_fill (t : DimVec) (v : Int) : (t.fill v).names = t.names := names_map _ t

theorem names_replaceFirst (dim : String) (v : Int) (es : List (String × Int)) :
    (replaceFirst dim v es).map (·.1) = es.map (·.1) := by
  induction es with
  | nil => rfl
  | cons e es ih =>
    by_cases h : e.1 = dim
    · simp [replaceFirst, h]
    · simp [replaceFirst, h, ih]

/-- Setting a value never renames, adds or drops a dimension. -/
@[simp] theorem names_set (t : DimVec) (dim : String) (v : Int) :
    (t.set dim v).names = t.names := names_replaceFirst dim v t.entries

end DimVec

end StencilPlan
