import StencilPlan.Network.Transport

/-!
# A network of one rank

There is nobody to talk to: what is sent is lost, receives are complete at once without data, and
no segment is ever found.
-/

namespace StencilPlan

/-- The network of a single rank. -/
inductive Solo where
  | solo
  deriving DecidableEq, Repr

namespace Solo

instance : Transport Solo where
  Handle := Unit
  size _ := 1
  sharesNode _ _ _ := false
  send _ _ _ _ n := n
  post _ _ _ _ n := ((), n)
  test h n := (true, h, n)
  wait _ n := some ([], n)
  publish _ seg w := { w with heap := w.heap.letGo seg.pool }
  claim _ := pure none
  barrier n := n

end Solo

end StencilPlan
