import StencilPlan.Dim.Vec

/-!
# Row-major order

The sizes of a `DimVec` span a box. Its points are numbered from zero with the last dimension
running fastest. `layout` gives the number of a point, `unlayout` the point with a number, and
`sweep` visits the points in that order, stopping early if it is told to.
-/

namespace StencilPlan.DimVec

/-- The number of a point: `index` counts what lies before in the dimensions already seen. -/
def layoutFrom (index : Nat) : List (Int × Int) → Checked (Option Nat)
  | [] => .ok (some index)
  | (size, offset) :: rest =>
    if offset < 0 ∨ offset ≥ size then
      .ok none
    else do
      let before ← Word.mul index (Word.ofIdx size)
      let here ← Word.add before (Word.ofIdx offset)
      layoutFrom here rest

/-- The number of the point `offsets` in the box of sizes `t`, if it lies inside. Only the
positions of the offsets count, not their names. -/
def layout (t offsets : DimVec) : Checked (Option Nat) :=
  if offsets.length ≠ t.length then
    .ok none
  else
    layoutFrom 0 (t.values.zip offsets.values)

/-- The coordinates of a numbered point, and how often the box was passed over. A size below one
counts as one. -/
def unlayoutValues : List Int → Nat → List Int × Nat
  | [], index => ([], index)
  | v :: vs, index =>
    let (rest, passes) := unlayoutValues vs index
    let size := (max v 1).toNat
    (((passes % size : Nat) : Int) :: rest, passes / size)

/-- The point with a number in the box of sizes `t`. -/
def unlayout (t : DimVec) (index : Nat) : DimVec :=
  t.withValues (unlayoutValues t.values index).1

/-- Calls `body` on `first`, `first + 1`, … for `count` numbers while it answers `true`. -/
def upward {σ : Type} (body : Nat → σ → Bool × σ) (first : Nat) : Nat → σ → Bool × σ
  | 0, s => (true, s)
  | count + 1, s =>
    match body first s with
    | (true, s') => upward body (first + 1) count s'
    | (false, s') => (false, s')

/-- Calls `visit` on every combination of one number below each size, the last running fastest,
while it answers `true`. -/
def sweepValues {σ : Type} : List Int → (List Int → σ → Bool × σ) → σ → Bool × σ
  | [], visit, s => visit [] s
  | v :: vs, visit, s =>
    upward (fun i s => sweepValues vs (fun rest => visit ((i : Int) :: rest)) s) 0 v.toNat s

/-- Visits the points of the box of sizes `t` in row-major order, with their numbers, until the
visitor answers `false`; tells whether it never did. A box with a size below one has no points,
and the box without dimensions has one. -/
def sweep {σ : Type} (t : DimVec) (visit : DimVec → Nat → σ → Bool × σ) (s : σ) : Bool × σ :=
  if t.values.any (· ≤ 0) then
    (true, s)
  else
    let (finished, final) := sweepValues t.values
      (fun vs (st : Nat × σ) =>
        let (more, s') := visit (t.withValues vs) st.1 st.2
        (more, st.1 + 1, s'))
      (0, s)
    (finished, final.2)

/-- All points of a box in row-major order. -/
def points (t : DimVec) : List DimVec :=
  ((t.sweep (fun p _ ps => (true, p :: ps)) []).2).reverse

end StencilPlan.DimVec
