import StencilPlan.Dim.Vec
import StencilPlan.Journal
import StencilPlan.Rank.Factors

/-!
# Filling the rank grid

Dimensions without a number of ranks share the prime factors of what the others leave: each
factor, the greatest first, goes to the dimension with the fewest ranks so far, and of several
such dimensions to the outermost.
-/

namespace StencilPlan

/-- The position of the least count among `best` and `rest`; the earliest one wins a tie. -/
def leastPosn (counts : List Int) (best : Nat) : List Nat → Nat
  | [] => best
  | i :: is =>
    if counts.getD i 0 < counts.getD best 0 then leastPosn counts i is
    else leastPosn counts best is

/-- Hands out the factors to the dimensions at the unset positions. -/
def handOut (unset : List Nat) : List Nat → List Int → Checked (List Int)
  | [], counts => return counts
  | f :: fs, counts => do
    match unset with
    | [] => return counts
    | first :: rest =>
      let best := leastPosn counts first rest
      let count ← Idx.mul (counts.getD best 0) (Idx.ofWord f)
      handOut unset fs (counts.set best count)

/-- The positions of the entries that are zero. -/
def zeroPosns (counts : List Int) : List Nat :=
  (counts.zipIdx.filter (·.1 = 0)).map (·.2)

/-- Fills the zero entries of the grid so that it holds `ranks` ranks. The grid changes only if
that is possible. -/
def fillGrid (ranks : Nat) : Task DimVec Unit := do
  let grid ← get
  match grid.entries.find? (·.2 < 0) with
  | some (dim, count) => .reject (.invalidRankCount dim count)
  | none =>
    let counts := grid.values
    let unset := zeroPosns counts
    let fixed ← (Idx.product (counts.filter (· > 0)) : Checked _)
    if unset.isEmpty then
      if Word.ofIdx fixed ≠ ranks then
        .reject (.rankCountMismatch fixed ranks)
    else
      if fixed ≤ 0 ∨ ranks % fixed.toNat ≠ 0 then
        .reject (.rankCountMismatch fixed ranks)
      let ones := counts.map fun n => if n = 0 then 1 else n
      set (grid.withValues ones)
      let factors ← (primeFactors (ranks / fixed.toNat) : Checked _)
      let filled ← (handOut unset factors ones : Checked _)
      let grid := grid.withValues filled
      set grid
      Task.note .debug ("rank grid filled to " ++ grid.renderWith " * ")

end StencilPlan
