import StencilPlan.Arith.Checked

/-!
# Prime factors

The factors of a count, found by trial division. The trial divisor is squared in 64 bits, which
faults for numbers close to 2 ^ 64 that have no small factor.
-/

namespace StencilPlan

/-- The prime factors of `n` in increasing order, given that none is below `p`. -/
def factorsFrom (n p : Nat) (hp : 2 ≤ p) : Checked (List Nat) :=
  match Word.mul p p with
  | .error f => .error f
  | .ok _ =>
    if h : p * p ≤ n then
      if n % p = 0 then
        match factorsFrom (n / p) p hp with
        | .error f => .error f
        | .ok ps => .ok (p :: ps)
      else
        factorsFrom n (p + 1) (by omega)
    else
      .ok (if n > 1 then [n] else [])
termination_by n + 1 - p
decreasing_by
  · have hle : p ≤ n := Nat.le_trans (Nat.le_mul_of_pos_left p (by omega)) h
    have hlt : n / p < n := Nat.div_lt_self (by omega) (by omega)
    omega
  · have hle : p ≤ n := Nat.le_trans (Nat.le_mul_of_pos_left p (by omega)) h
    omega

/-- The prime factors of a number, the greatest first. -/
def primeFactors (n : Nat) : Checked (List Nat) := do
  let ps ← factorsFrom n 2 (Nat.le_refl 2)
  return ps.reverse

end StencilPlan
