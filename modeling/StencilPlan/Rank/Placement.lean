import StencilPlan.Settings.Basic
import StencilPlan.Rank.Grid
import StencilPlan.Rank.Topology

/-!
# Placing a rank

Each rank works out by itself where it stands in the rank grid and which part of the domain is its
own. Given the overall size, a dimension is divided evenly and the last rank takes what is left
over; given the size of a local domain, every rank has that size.
-/

namespace StencilPlan

/-- Where a rank stands. -/
structure Placement where
  topology : Topology
  /-- Global index of the first point of this rank, per domain dimension. -/
  offsets : DimVec
  deriving DecidableEq, Repr

/-- The size of a local domain and where it starts, if the overall size is to be divided. -/
def shareOfGlobal (dim : String) (global ranks index : Int) : Outcome (Int × Int) := do
  if global ≤ 0 then
    throw (.tiling (.domainSizeMissing dim))
  let base ← (Idx.div global ranks : Checked _)
  if base = 0 then
    throw (.tiling (.unresolvedSize .localDomain dim 0))
  let last ← (Idx.sub ranks 1 : Checked _)
  let size ←
    if index = last then do
      let before ← (Idx.mul base last : Checked _)
      (Idx.sub global before : Checked _)
    else pure base
  let offset ← (Idx.mul base index : Checked _)
  return (size, offset)

/-- Sizes the local domain in one dimension and finds where it starts. -/
def placeDim (c : Catalog) (topology : Topology) (offsets : DimVec) (d : DimPlace) :
    Task Settings DimVec := do
  let s ← get
  let ranks := s.numRanks.getD d.name 1
  let index := topology.indices.getD d.name 0
  let global ← (s.global.nth d.domainIndex : Checked _)
  let asked ← (s.localDomain.nth d.domainIndex : Checked _)
  let (size, offset) ←
    if asked ≤ 0 then
      (shareOfGlobal d.name global ranks index : Outcome _)
    else do
      let all ← (Idx.mul asked ranks : Checked _)
      if global ≤ 0 then
        let g ← (s.global.setAt d.domainIndex all : Checked _)
        modify fun s => { s with global := g }
      else if global ≠ all then
        Task.note .warn
          s!"global size {global} in '{d.name}' dimension differs from {ranks} ranks of {asked}"
      let offset ← (Idx.mul asked index : Checked _)
      pure (asked, offset)
  let offsets ← (offsets.setAt d.domainIndex offset : Checked _)
  let points := c.cluster.getD d.name 1
  let excess ← (Idx.rem size points : Checked _)
  if excess ≠ 0 then
    .reject (.notMultiple .localDomain d.name size points)
  let l ← (s.localDomain.setAt d.domainIndex size : Checked _)
  modify fun s => { s with localDomain := l }
  return offsets

/-- Sizes the local domain in every dimension. -/
def placeDims (c : Catalog) (topology : Topology) (offsets : DimVec) :
    List DimPlace → Task Settings DimVec
  | [] => return offsets
  | d :: ds => do
    let offsets ← placeDim c topology offsets d
    placeDims c topology offsets ds

/-- Places rank `me` of `ranks` and sizes its local domain. What is found is put into the
settings as soon as it is known. -/
def placeRank (c : Catalog) (me ranks : Nat) : Task Settings Placement := do
  Task.zoom (·.numRanks) (fun g s => { s with numRanks := g }) (fillGrid ranks)
  let s ← get
  if ¬ s.explicitRankIndices then
    modify fun s => { s with rankIndices := s.numRanks.unlayout me }
  let s ← get
  let topology ← Topology.build s.numRanks s.rankIndices
  if topology.rank ≠ me then
    .reject (.rankIndexMismatch (s.rankIndices.renderWith "=") me topology.rank)
  let offsets ← placeDims c topology (c.domainVec 0) c.dimPlaces
  modify fun s => { s with rankIndices := topology.indices }
  let s ← get
  Task.note .info (s!"rank {me}: indices ({s.rankIndices}), local domain " ++
    s.localDomain.renderWith " * " ++ s!" at offset ({offsets})")
  return { topology, offsets }

end StencilPlan
