import StencilPlan.Dim.RowMajor
import StencilPlan.Journal

/-!
# Neighbors in the rank grid

Ranks are numbered in row-major order of their indices. The neighborhood of a rank is the set of
offsets of minus one, zero or one in each dimension, in the same order, so that every rank gives
the same number to the same offset. The grid has an edge: where an offset leads out of it there is
no neighbor. The whole neighborhood is kept in one table, for which there must be room.
-/

namespace StencilPlan

/-- One place of the neighborhood; the rank itself is one of them. -/
structure Neighbor where
  /-- Number of the offset. -/
  index : Nat
  /-- Minus one, zero or one in each dimension. -/
  offset : DimVec
  /-- The rank there, if the grid reaches that far. -/
  rank : Option Nat
  deriving DecidableEq, Repr

namespace Neighbor

/-- What an entry takes in a table: its number, its offset and a rank that may be missing. -/
def entryBytes : Nat := 48

def isSelf (n : Neighbor) : Bool := n.offset.values.all (· = 0)

/-- Steps along the grid to get there: one for a face, two for an edge, and so on. -/
def distance (n : Neighbor) : Checked Int := do
  let steps ← n.offset.values.mapM Idx.abs
  Idx.sum steps

end Neighbor

/-- A rank's place in the grid and its neighborhood. -/
structure Topology where
  /-- Ranks per dimension. -/
  grid : DimVec
  /-- Place of this rank, in the order of the grid. -/
  indices : DimVec
  /-- Number of this rank. -/
  rank : Nat
  /-- Three in each dimension. -/
  box : DimVec
  /-- Number of the offset zero. -/
  center : Nat
  neighbors : List Neighbor
  deriving DecidableEq, Repr

namespace Topology

/-- Refuses the first dimension without ranks, or in which the index is missing or outside. -/
def checkPlace (indices : DimVec) : List (String × Int) → Except PlanError Unit
  | [] => .ok ()
  | (dim, count) :: rest =>
    if count < 1 then
      .error (.invalidRankCount dim count)
    else
      match indices.get? dim with
      | none => .error (.unknownDim "RankTopology::build" dim)
      | some index =>
        if index < 0 ∨ index ≥ count then
          .error (.invalidRankIndex dim index count)
        else
          checkPlace indices rest

/-- Whether an index lies inside a grid with some counts. -/
def inside (counts index : List Int) : Bool :=
  (counts.zip index).all fun (n, i) => 0 ≤ i ∧ i < n

/-- The neighbor at a point of the box, which is the offset plus one everywhere. -/
def neighborAt (grid indices point : DimVec) (index : Nat) : Checked Neighbor := do
  let steps ← point.values.mapM (Idx.sub · 1)
  let place ← (indices.values.zip steps).mapM fun (i, o) => Idx.add i o
  let rank ←
    if inside grid.values place then grid.layout (grid.withValues place) else pure none
  return { index, offset := point.withValues steps, rank }

/-- The neighborhood of the rank at `indices`. -/
def neighborhood (grid indices box : DimVec) : Checked (List Neighbor) :=
  ((box.sweep (fun point index (found : Checked (List Neighbor)) =>
      match found, neighborAt grid indices point index with
      | .ok ns, .ok n => (true, .ok (n :: ns))
      | .error f, _ => (false, .error f)
      | .ok _, .error f => (false, .error f))
    (.ok [])).2).map List.reverse

/-- How many places the neighborhood has, the rank itself included. -/
def size (t : Topology) : Nat := t.neighbors.length

/-- The place with a number. -/
def neighbor? (t : Topology) (index : Nat) : Option Neighbor := t.neighbors[index]?

/-- The neighbors that exist, the rank itself left out, in the order of their offsets. -/
def existing (t : Topology) : List Neighbor :=
  t.neighbors.filter fun n => n.index ≠ t.center ∧ n.rank.isSome

/-- Calls `f` on the neighbors that exist, one after the other in the order of their offsets. -/
def visit {σ : Type} (t : Topology) (f : Neighbor → σ → σ) (s : σ) : σ :=
  t.existing.foldl (fun s n => f n s) s

/-- Checks one place: only the own offset leads to the own rank, others to another one. -/
def validNeighbor (t : Topology) (total : Nat) (n : Neighbor) : Bool :=
  match n.rank with
  | some r => if n.isSelf then r = t.rank else r < total ∧ r ≠ t.rank
  | none => !n.isSelf

/-- Text of a rank that may be missing. -/
def showRank : Option Nat → String
  | some r => s!"Some({r})"
  | none => "None"

/-- Checks that the parts of a topology belong together. -/
def validate (t : Topology) : Outcome Unit := do
  let what := "rank topology"
  let ranks ← (t.grid.product : Checked _)
  let total := Word.ofIdx ranks
  let expected ← (Word.pow 3 t.grid.length : Checked _)
  ensure (t.rank < total) what s!"rank {t.rank} of {total}"
  ensure (t.size = expected) what
    s!"{t.size} neighborhood entries, expected {expected}"
  let number ← (t.grid.layout t.indices : Checked _)
  ensure (number = some t.rank) what s!"indices ({t.indices}) do not give rank {t.rank}"
  let central ←
    if t.center = expected / 2 then
      match t.neighbor? t.center with
      | some n => pure (decide (n.rank = some t.rank))
      | none => throw (.fault (.position t.size t.center))
    else pure false
  ensure central what s!"self entry {t.center} is not the center of the neighborhood"
  t.neighbors.forM fun n => do
    ensure (t.validNeighbor total n) what
      s!"neighbor at offset ({n.offset}) has rank {showRank n.rank}"

/-- The check as an assertion: what it finds is a fault. -/
def assertValid (t : Topology) : Checked Unit :=
  match t.validate with
  | .ok () => .ok ()
  | .error (.tiling e) => .error (.broken "RankTopology" e)
  | .error (.fault f) => .error f

/-- The topology of the rank at `indices` in a grid. The indices may come in any order. -/
def build (grid indices : DimVec) : Task Unit Topology := do
  if grid.isEmpty then
    .reject (.invalidDims .emptyGrid)
  checkPlace indices grid.entries
  let indices := grid.map fun dim _ => indices.getD dim 0
  let rank ← (grid.layout indices : Checked _)
  match rank with
  | none =>
    let count ← (grid.product : Checked _)
    .reject (.invalidRankIndex (",".intercalate grid.names) (-1) count)
  | some rank =>
    let box := grid.fill 3
    let places ← (box.product : Checked _)
    (reserve (Word.ofIdx places) Neighbor.entryBytes : Checked _)
    let neighbors ← (neighborhood grid indices box : Checked _)
    let center := ((neighbors.filter (·.isSelf)).getLast?.map (·.index)).getD 0
    let t : Topology := { grid, indices, rank, box, center, neighbors }
    (t.assertValid : Checked _)
    Task.note .debug (s!"rank {t.rank} at ({t.indices}) of ({t.grid}) " ++
      s!"has {t.existing.length} neighbor(s)")
    return t

/-- The values of an offset, each plus one, in the order of the box. -/
def shifted? (offset : DimVec) : List String → Checked (Option (List Int))
  | [] => return some []
  | dim :: dims =>
    match offset.get? dim with
    | none => return none
    | some o => do
      let v ← Idx.add o 1
      match ← shifted? offset dims with
      | some vs => return some (v :: vs)
      | none => return none

/-- The number of an offset, if each of its values is minus one, zero or one. -/
def numberOf (t : Topology) (offset : DimVec) : Checked (Option Nat) := do
  match ← shifted? offset t.box.names with
  | some vs => t.box.layout (t.box.withValues vs)
  | none => return none

/-- The rank at an offset, if the grid reaches that far. -/
def rankAt (t : Topology) (offset : DimVec) : Checked (Option Nat) := do
  let index ← t.numberOf offset
  return index.bind fun i => (t.neighbor? i).bind (·.rank)

/-- The number of the opposite offset: how the neighbor sees this rank. Counting the points of a
box from the other end negates every coordinate around its center. -/
def oppositeIndex? (t : Topology) (index : Nat) : Option Nat :=
  if index < t.size then some (t.size - 1 - index) else none

end Topology

end StencilPlan
