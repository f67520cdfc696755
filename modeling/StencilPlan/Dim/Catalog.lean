import StencilPlan.Dim.RowMajor

/-!
# The dimension catalog

The catalog classifies the dimensions of a stencil and holds the shape in which points are
vectorised: a fold is one vector, a cluster is the few folds one pass of the innermost loop
consumes. It is fixed by whoever writes the stencil and never changes while a solution runs.
-/

namespace StencilPlan

/-- The dimensions of a stencil and the shape of its clusters. -/
structure Catalog where
  stepDim : String
  /-- The domain dimensions, outer to inner, all zero. -/
  domain : DimVec
  /-- The step dimension followed by the domain dimensions, all zero. -/
  stencil : DimVec
  misc : DimVec
  /-- The last domain dimension, which has unit stride. -/
  innerDim : String
  /-- The first domain dimension. -/
  outerDim : String
  /-- Points of one fold, per domain dimension. -/
  fold : DimVec
  /-- Folds of one cluster, per domain dimension. -/
  clusterFolds : DimVec
  /-- Points of one cluster, per domain dimension. -/
  cluster : DimVec
  deriving DecidableEq, Repr, Inhabited

/-- A domain dimension with its positions. -/
structure DimPlace where
  /-- Position after the step dimension, counting that one as zero. -/
  stencilIndex : Nat
  /-- Position among the domain dimensions. -/
  domainIndex : Nat
  name : String
  deriving DecidableEq, Repr

namespace Catalog

/-- Refuses the first name that is empty or among those `seen` before it. -/
def checkNames (seen : List String) : List String → Except PlanError Unit
  | [] => .ok ()
  | n :: ns =>
    if n.isEmpty ∨ n ∈ seen then
      .error (.invalidDims (.unusableName n))
    else
      checkNames (seen ++ [n]) ns

/-- Declares the step dimension, the domain dimensions from outer to inner and the misc
dimensions. Fold and cluster are single points. -/
def declare (step : String) (domain misc : List String) : Except PlanError Catalog :=
  if step.isEmpty then
    .error (.invalidDims .emptyStepName)
  else
    match domain.head?, domain.getLast? with
    | some outer, some inner => do
      checkNames [step] (domain ++ misc)
      let zeros := DimVec.ofNames domain 0
      let ones := DimVec.ofNames domain 1
      return {
        stepDim := step
        domain := zeros
        stencil := zeros.prepend step 0
        misc := DimVec.ofNames misc 0
        innerDim := inner
        outerDim := outer
        fold := ones
        clusterFolds := ones
        cluster := ones }
    | _, _ => .error (.invalidDims .noDomainDims)

/-- How many domain dimensions there are. -/
def domainCount (c : Catalog) : Nat := c.domain.length

/-- The domain dimensions with the given values, all of which must be positive. -/
def shape (c : Catalog) (what : String) (values : List Int) : Except PlanError DimVec :=
  if values.length ≠ c.domainCount then
    .error (.invalidDims (.shapeLength what values.length c.domainCount))
  else
    match values.find? (· < 1) with
    | some v => .error (.invalidDims (.shapeValue what v))
    | none => .ok (c.domain.withValues values)

/-- Products of values at equal positions. -/
def multiplyValues : List Int → List Int → Checked (List Int)
  | a :: as, b :: bs => do
    let p ← Idx.mul a b
    let ps ← multiplyValues as bs
    return p :: ps
  | _, _ => .ok []

/-- Works out the cluster from the fold and the multipliers. -/
def updateCluster (c : Catalog) : Checked Catalog := do
  let points ← multiplyValues c.fold.values c.clusterFolds.values
  return { c with cluster := c.fold.withValues points }

/-- Sets the points of a fold. -/
def foldedBy (c : Catalog) (values : List Int) : Outcome Catalog := do
  let fold ← c.shape "fold" values
  updateCluster { c with fold := fold }

/-- Sets how many folds make a cluster. -/
def withClusterFolds (c : Catalog) (values : List Int) : Outcome Catalog := do
  let mults ← c.shape "cluster" values
  updateCluster { c with clusterFolds := mults }

/-- The step and domain dimensions, all with one value. -/
def stencilVec (c : Catalog) (v : Int) : DimVec := c.stencil.fill v

/-- The domain dimensions, all with one value. -/
def domainVec (c : Catalog) (v : Int) : DimVec := c.domain.fill v

/-- The kind of a dimension. -/
def kind? (c : Catalog) (dim : String) : Option DimKind :=
  if dim = c.stepDim then some .step
  else if c.domain.contains dim then some .domain
  else if c.misc.contains dim then some .misc
  else none

/-- Which kinds of dimension a caller accepts. -/
structure Accepts where
  step : Bool
  domain : Bool
  misc : Bool

/-- Domain dimensions only. -/
def Accepts.domainOnly : Accepts := ⟨false, true, false⟩

/-- Domain dimensions, and the step dimension if `step` says so. -/
def Accepts.tile (step : Bool) : Accepts := ⟨step, true, false⟩

def Accepts.accepts (a : Accepts) : DimKind → Bool
  | .step => a.step
  | .domain => a.domain
  | .misc => a.misc

/-- The kind of `dim` if it is an accepted one; otherwise an error that names `func`. -/
def check (c : Catalog) (dim func : String) (a : Accepts) : Except PlanError DimKind :=
  match c.kind? dim with
  | none => .error (.unknownDim func dim)
  | some k => if a.accepts k then .ok k else .error (.wrongDimKind func dim k)

/-- The domain dimensions in order, with their positions. -/
def dimPlaces (c : Catalog) : List DimPlace :=
  c.domain.names.zipIdx.map fun (name, j) => ⟨j + 1, j, name⟩

end Catalog

end StencilPlan
