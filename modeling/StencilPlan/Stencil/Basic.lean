import StencilPlan.Dim.Catalog
import StencilPlan.Journal

/-!
# Stencils

A stencil is a catalog of dimensions with the variables it updates and, for each variable, how
wide a halo each stage needs on each side at each step offset.
-/

namespace StencilPlan

/-- Which requirement a halo belongs to. -/
structure HaloNeed where
  stage : String
  /-- The side of smaller indices. -/
  left : Bool
  stepOffset : Int
  deriving DecidableEq, Repr

/-- Puts a value at a key: in place of the old one, or at the end. -/
def putKey {κ α : Type} [DecidableEq κ] (k : κ) (v : α) : List (κ × α) → List (κ × α)
  | [] => [(k, v)]
  | e :: es => if e.1 = k then (k, v) :: es else e :: putKey k v es

/-- The constants of a stencil. -/
structure Stencil where
  name : String
  catalog : Catalog
  elementBytes : Nat
  /-- Floating-point operations per point. -/
  flopsPerPoint : Nat
  /-- The variables in order of declaration. -/
  vars : List String
  /-- The requirements of each variable. -/
  halos : List (String × List (HaloNeed × DimVec))
  deriving Repr

namespace Stencil

/-- Bytes of a real. -/
def realBytes : Nat := 8

/-- A stencil without variables. -/
def new (name : String) (catalog : Catalog) : Stencil :=
  { name, catalog, elementBytes := realBytes, flopsPerPoint := 0, vars := [], halos := [] }

/-- Declares the width of an element, of which only one is supported. -/
def withElementBytes (s : Stencil) (bytes : Nat) : Except PlanError Stencil :=
  if bytes ≠ realBytes then .error (.invalidStencil (.elementWidth bytes))
  else .ok { s with elementBytes := bytes }

/-- Declares a variable, without a halo if it is a new one. -/
def withVar (s : Stencil) (var : String) : Stencil :=
  if var ∈ s.vars then s
  else { s with vars := s.vars ++ [var], halos := putKey var [] s.halos }

/-- What is wrong with the sizes of a halo: there must be one for each domain dimension, and none of
them may be negative. -/
def haloFlaw? (s : Stencil) (var : String) (sizes : List Int) : Option StencilFlaw :=
  if sizes.length ≠ s.catalog.domainCount then
    some (.haloLength var sizes.length s.catalog.domainCount)
  else
    (sizes.find? (· < 0)).map (.negativeHalo var)

/-- Puts the sizes down for a requirement of a variable that is declared. -/
def putSizes (var : String) (need : HaloNeed) (sizes : List Int) (s : Stencil) : Stencil :=
  match s.halos.lookup var with
  | none => s
  | some halos =>
    let widths := (s.catalog.domainVec 0).withValues sizes
    { s with halos := putKey var (putKey need widths halos) s.halos }

/-- Declares a variable in place. -/
def addVar (var : String) : Task Stencil Unit := modify (·.withVar var)

/-- Records in place the halo that a stage needs on one side of a variable, one size per domain
dimension in order: the sizes are looked at first, then the variable is declared, and then its
requirement is put down. -/
def addHalo (var : String) (need : HaloNeed) (sizes : List Int) : Task Stencil Unit := do
  match (← get).haloFlaw? var sizes with
  | some flaw => .reject (.invalidStencil flaw)
  | none =>
    addVar var
    modify (putSizes var need sizes)

/-- The stencil with the halo that a stage needs on one side of a variable. -/
def withHalo (s : Stencil) (var stage : String) (left : Bool) (stepOffset : Int)
    (sizes : List Int) : Except PlanError Stencil :=
  match s.haloFlaw? var sizes with
  | some flaw => .error (.invalidStencil flaw)
  | none => .ok ((addHalo var ⟨stage, left, stepOffset⟩ sizes).run none s).state

/-- Halo width on one side of a variable: the greatest over the step offsets, of one stage or of
all. Unknown variables need none. -/
def haloWidths (s : Stencil) (var : String) (stage : Option String) (left : Bool) : DimVec :=
  let matching := ((s.halos.lookup var).getD []).filter fun e =>
    e.1.left = left ∧ stage.all (· = e.1.stage)
  matching.foldl (fun t e => t.sup e.2) (s.catalog.domainVec 0)

end Stencil

end StencilPlan
