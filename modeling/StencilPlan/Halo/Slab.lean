import StencilPlan.Arith.Checked

/-!
# Slabs

In one dimension the points exchanged with a neighbor form a slab at the side where the neighbor
is. Received points lie outside the local domain, right next to it. Sent points are counted from
the same side inward and are as many as the neighbor's halo is wide, which is not compared with the
local domain: a wider halo reaches over its other end. A neighbor on the left needs points for its
right halo and fills the own left halo.
-/

namespace StencilPlan

/-- Which way the points of a buffer travel. -/
inductive Direction where
  | send
  | recv
  deriving DecidableEq, Repr

def Direction.name : Direction → String
  | send => "send"
  | recv => "recv"

/-- Start and width of a slab, for a local domain of `size` points. -/
def slab (d : Direction) (offset size left right : Int) : Checked (Int × Int) :=
  if offset = 0 then
    return (0, size)
  else if offset < 0 then
    match d with
    | .send => return (0, right)
    | .recv => do return (← Idx.neg left, left)
  else
    match d with
    | .send => do return (← Idx.sub size left, left)
    | .recv => return (size, right)

end StencilPlan
