import StencilPlan.Arith.Checked

/-!
# Rounding to multiples

Tiles are counted by a division that rounds up and sized by rounding up to a multiple. Both
first add the divisor, so they fault where that sum leaves the 64-bit range even if the result
itself would fit.
-/

namespace StencilPlan

/-- The least integer not below `n / d`; zero if `d` is not positive. -/
def ceilDiv (n d : Int) : Checked Int :=
  if d ≤ 0 then
    return 0
  else do
    let above ← Idx.add n d
    let last ← Idx.sub above 1
    Idx.euclidDiv last d

/-- The least multiple of `mult` not below `n`; `n` itself if `mult` is at most one. -/
def roundUp (n mult : Int) : Checked Int :=
  if mult ≤ 1 then
    return n
  else do
    let count ← ceilDiv n mult
    Idx.mul count mult

end StencilPlan
