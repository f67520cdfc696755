import StencilPlan.Dim.RowMajor
import StencilPlan.Arith.Rounding

/-!
# Shapes of variables

A variable has an extent in each of its dimensions and a layout that numbers its storage elements:
a single element, plain row-major order, or folds. In a folded layout the points of one fold are
neighbors in storage, and the folds are in row-major order; folds that stick out leave padding.
-/

namespace StencilPlan

/-- How the elements of a variable are ordered in storage. -/
inductive StorageOrder where
  /-- One element, no dimensions. -/
  | scalar
  /-- Vectors of `fold` points each. -/
  | folded (fold : DimVec)
  /-- Row-major order. -/
  | traditional
  deriving DecidableEq, Repr

/-- The shape of a variable. -/
structure Variable where
  name : String
  dims : DimVec
  layout : StorageOrder
  /-- Folds per dimension. -/
  folds : DimVec
  /-- Points of a fold per dimension, one where the variable is not folded. -/
  foldPoints : DimVec
  deriving DecidableEq, Repr

namespace Variable

/-- Refuses the first extent below one. -/
def checkExtents (name : String) (dims : DimVec) : Except PlanError Unit :=
  match dims.entries.find? (·.2 < 1) with
  | some (d, v) => .error (.invalidDims (.extentNotPositive name d v))
  | none => .ok ()

/-- A single element. -/
def scalar (name : String) : Variable :=
  { name, dims := .empty, layout := .scalar, folds := .empty, foldPoints := .empty }

/-- A variable in row-major order. -/
def traditional (name : String) (dims : DimVec) : Except PlanError Variable := do
  checkExtents name dims
  return { name, dims, layout := .traditional, folds := dims, foldPoints := dims.fill 1 }

/-- Sets the points of a fold in the dimensions that are folded. -/
def foldExtents (name : String) (points : DimVec) :
    List (String × Int) → Except PlanError DimVec
  | [] => .ok points
  | (d, v) :: rest =>
    if v < 1 then .error (.invalidDims (.foldNotPositive name d v))
    else if points.contains d then foldExtents name (points.set d v) rest
    else .error (.unknownDim "VarShape::folded" d)

/-- A variable in folds. Every folded dimension must be one of the variable's. -/
def folded (name : String) (dims fold : DimVec) : Outcome Variable := do
  checkExtents name dims
  let foldPoints ← foldExtents name (dims.fill 1) fold.entries
  let counts ← ((dims.values.zip foldPoints.values).mapM fun (n, f) => ceilDiv n f : Checked _)
  return { name, dims, layout := .folded fold, folds := dims.withValues counts, foldPoints }

/-- Storage elements, padding included. -/
def elementCount (s : Variable) : Checked Nat :=
  match s.layout with
  | .scalar => return 1
  | _ => do
    let folds ← s.folds.product
    let points ← s.foldPoints.product
    let all ← Idx.mul folds points
    return Word.ofIdx all

/-- The fold a point is in and its place there, position by position; `index` is that of the first
value of `fold`. -/
def splitPoint (point : DimVec) (index : Nat) :
    List Int → Checked (List Int × List Int)
  | [] => return ([], [])
  | f :: fs => do
    let v ← point.nth index
    let outer ← Idx.div v f
    let inner ← Idx.rem v f
    let (outers, inners) ← splitPoint point (index + 1) fs
    return (outer :: outers, inner :: inners)

/-- The storage element of a point, if the point is inside the variable. -/
def elementOf (s : Variable) (point : DimVec) : Checked (Option Nat) :=
  match s.layout with
  | .scalar => return if point.isEmpty then some 0 else none
  | .traditional => s.dims.layout point
  | .folded _ => do
    match ← s.dims.layout point with
    | none => return none
    | some _ =>
      let (outers, inners) ← splitPoint point 0 s.foldPoints.values
      match ← s.folds.layout (point.withValues outers) with
      | none => return none
      | some outer =>
        match ← s.foldPoints.layout (point.withValues inners) with
        | none => return none
        | some inner =>
          let points ← s.foldPoints.product
          let before ← Word.mul outer (Word.ofIdx points)
          let element ← Word.add before inner
          return some element

/-- The point of a fold and a place in it, position by position from `index` on. -/
def joinPoint (point inner : DimVec) (index : Nat) : List Int → Checked DimVec
  | [] => return point
  | f :: fs => do
    let v ← point.nth index
    let first ← Idx.mul v f
    let place ← inner.nth index
    let here ← Idx.add first place
    let point ← point.setAt index here
    joinPoint point inner (index + 1) fs

/-- The point in a storage element; none in padding or past the end. -/
def pointAt (s : Variable) (element : Nat) : Checked (Option DimVec) := do
  let n ← s.elementCount
  if element ≥ n then
    return none
  match s.layout with
  | .scalar => return some .empty
  | .traditional => return some (s.dims.unlayout element)
  | .folded _ => do
    let product ← s.foldPoints.product
    let points := Word.ofIdx product
    if points = 0 then
      throw .arithmetic
    let fold := s.folds.unlayout (element / points)
    let inner := s.foldPoints.unlayout (element % points)
    let point ← joinPoint fold inner 0 s.foldPoints.values
    match ← s.dims.layout point with
    | some _ => return some point
    | none => return none

end Variable

end StencilPlan
