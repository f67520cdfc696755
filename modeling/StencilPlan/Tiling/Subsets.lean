import StencilPlan.Dim.Vec
import StencilPlan.Arith.Rounding
import StencilPlan.Journal

/-!
# Cutting a tile into smaller ones

A child size is resolved against the size of its parent, dimension by dimension: a size that is
not positive is that of the parent, and every size is rounded up to a multiple. The report says
how many children cover the parent and whether the last one is a partial one.
-/

namespace StencilPlan

/-- What the resolution of one dimension came to. -/
structure DimCut where
  dim : String
  parentExtent : Int
  childExtent : Int
  /-- Full and partial children. -/
  pieces : Int
  wholePieces : Int
  /-- Size of the partial child at the end, zero if there is none. -/
  remainder : Int
  deriving DecidableEq, Repr

/-- Whether there is a partial child. -/
def DimCut.hasPartial (d : DimCut) : Bool := d.remainder ≠ 0

/-- What the resolution of a level came to. -/
structure CutReport where
  parentLabel : String
  childLabel : String
  cuts : List DimCut
  /-- Product of the numbers of children. -/
  total : Int
  deriving DecidableEq, Repr

namespace CutReport

/-- The part of the report on one dimension. -/
def dim? (r : CutReport) (name : String) : Option DimCut :=
  r.cuts.find? (·.dim = name)

/-- One line of the report. -/
def line (r : CutReport) (d : DimCut) : String :=
  let head := s!" In '{d.dim}' dimension, {r.parentLabel} of size {d.parentExtent} contains " ++
    s!"{d.wholePieces} {r.childLabel}(s) of size {d.childExtent}"
  let tail :=
    if d.hasPartial then s!" plus 1 remainder {r.childLabel} of size {d.remainder}" else ""
  head ++ tail ++ ".\n"

/-- The report in words, without the dimensions in which there is nothing to cut. -/
def render (r : CutReport) : String :=
  String.join ((r.cuts.filter (·.parentExtent > 0)).map r.line)

end CutReport

/-- How many children of a size cover a parent, and the size of the partial one. -/
def coverCount (parentExtent childExtent : Int) : Checked (Int × Int) :=
  if childExtent ≤ 0 then
    return (0, 0)
  else do
    let above ← Idx.add parentExtent childExtent
    let last ← Idx.sub above 1
    let count ← Idx.div last childExtent
    let remainder ← Idx.rem parentExtent childExtent
    return (count, remainder)

/-- Resolves one dimension: the size asked for against the size of the parent. -/
def resolveDim (dim : String) (parentExtent asked mult : Int) : Checked DimCut := do
  let childExtent ← roundUp (if asked ≤ 0 then parentExtent else asked) mult
  let (pieces, remainder) ← coverCount parentExtent childExtent
  let wholePieces ← if remainder ≠ 0 then Idx.sub pieces 1 else pure pieces
  return { dim, parentExtent, childExtent, pieces, wholePieces, remainder }

/-- Resolves the entries of a child in order, leaving the step dimension alone. Yields the
resolved entries, the reports and the number of children, which starts at `total`. -/
def resolveEntries (parent mults : DimVec) (stepDim : String) (total : Int) :
    List (String × Int) → Checked (List (String × Int) × List DimCut × Int)
  | [] => return ([], [], total)
  | (dim, asked) :: rest =>
    if dim = stepDim then do
      let (es, ds, n) ← resolveEntries parent mults stepDim total rest
      return ((dim, asked) :: es, ds, n)
    else do
      let d ← resolveDim dim (parent.getD dim 0) asked (mults.getD dim 1)
      let total ← Idx.mul total d.pieces
      let (es, ds, n) ← resolveEntries parent mults stepDim total rest
      return ((dim, d.childExtent) :: es, d :: ds, n)

/-- The resolved child and the report, without a record in the journal. -/
def cutInto (parent : DimVec) (parentLabel : String) (child : DimVec) (childLabel : String)
    (mults : DimVec) (stepDim : String) : Checked (DimVec × CutReport) := do
  let (es, ds, total) ← resolveEntries parent mults stepDim 1 child.entries
  return (⟨es⟩, { parentLabel, childLabel, cuts := ds, total })

/-- Resolves `child` against `parent` in every dimension but the step dimension. -/
def cutTiles (parent : DimVec) (parentLabel : String) (child : DimVec) (childLabel : String)
    (mults : DimVec) (stepDim : String) : Task Unit (DimVec × CutReport) := do
  let (child, report) ← (cutInto parent parentLabel child childLabel mults stepDim : Checked _)
  Task.note .debug s!"{childLabel}s per {parentLabel}: {report.total}\n{report.render}"
  return (child, report)

end StencilPlan
