import Mathlib.Data.Rat.Floor
import StencilPlan.Proofs.Arith.Rounding

/-!
# Rounding at the edge of 64 bits

Counting tiles and rounding their sizes begin with the sum of a number and a divisor. Where both fit
into 64 bits, this sum alone decides whether there is a result: nothing that comes after it leaves
the range. A result is exact, for numbers below zero too: the count is the ceiling of the quotient,
and the size is the least multiple.
-/

namespace StencilPlan

variable {n m : Int}

/-- The quotient that is rounded up by adding to the number is the ceiling. -/
theorem ediv_eq_ceil (hm : 1 ≤ m) : (n + m - 1) / m = ⌈(n : ℚ) / m⌉ := by
  -- Without fractions: the count times the divisor reaches the number, and one less does not.
  have hle : n ≤ (n + m - 1) / m * m := le_multipleAbove hm
  have hlt : ((n + m - 1) / m - 1) * m < n := by
    have := Int.ediv_mul_le (n + m - 1) (show m ≠ 0 by omega)
    rw [Int.sub_mul, Int.one_mul]
    omega
  have hpos : (0 : ℚ) < m := by exact_mod_cast hm
  refine (Int.ceil_eq_iff.mpr ⟨?_, ?_⟩).symm
  · rw [lt_div_iff₀ hpos]
    exact_mod_cast hlt
  · rw [div_le_iff₀ hpos]
    exact_mod_cast hle

/-- For a number of 64 bits: a divisor that is not positive counts nothing, and one of at most one
leaves the number as it is. For any other divisor both operations overflow exactly where the number
and the divisor together are above the greatest integer of 64 bits. Elsewhere the count is the
ceiling of the quotient, and rounding up gives the least multiple that is not below the number. -/
theorem rounding_exact (hn : Idx.InRange n) (m : Int) :
    (m ≤ 0 → ceilDiv n m = .ok 0) ∧
    (m ≤ 1 → roundUp n m = .ok n) ∧
    (1 ≤ m → (ceilDiv n m = .error .arithmetic ↔ 2 ^ 63 - 1 < n + m) ∧
      (n + m ≤ 2 ^ 63 - 1 → ceilDiv n m = .ok ⌈(n : ℚ) / m⌉)) ∧
    (2 ≤ m → (roundUp n m = .error .arithmetic ↔ 2 ^ 63 - 1 < n + m) ∧
      (n + m ≤ 2 ^ 63 - 1 → ∃ k, roundUp n m = .ok k ∧ IsLeast {k | n ≤ k ∧ m ∣ k} k)) := by
  -- Both operations add the divisor to the number first, which is where they can overflow.
  have hedge : Idx.max = 2 ^ 63 - 1 := by decide
  refine ⟨fun h => if_pos h, fun h => if_pos h, fun hm => ?count, fun hm => ?round⟩
  case count =>
    refine ⟨⟨fun herror => ?_, fun h => ceilDiv_of_lt_add hm (by omega)⟩, fun h => ?_⟩
    · by_contra hle
      rw [ceilDiv_of_add_le hn hm (by omega)] at herror
      cases herror
    · rw [← ediv_eq_ceil hm]
      exact ceilDiv_of_add_le hn hm (by omega)
  case round =>
    have hpos : 1 ≤ m := by omega
    refine ⟨⟨fun herror => ?_, fun h => roundUp_of_lt_add hm (by omega)⟩, fun h => ?_⟩
    · by_contra hle
      rw [roundUp_of_add_le hn hpos (by omega)] at herror
      cases herror
    · exact ⟨_, roundUp_of_add_le hn hpos (by omega), isLeast_multipleAbove hpos⟩

/-- The least number is counted and rounded exactly. Just below the edge a number can be rounded by
eight, but no longer by nine. -/
theorem rounding_exact_edges :
    Idx.InRange Idx.min ∧ ceilDiv Idx.min 3 = .ok ⌈(Idx.min : ℚ) / 3⌉ ∧
      (∃ k, roundUp Idx.min 3 = .ok k ∧ IsLeast {k | Idx.min ≤ k ∧ 3 ∣ k} k) ∧
      Idx.InRange (Idx.max - 8) ∧ roundUp (Idx.max - 8) 9 = .error .arithmetic ∧
      ∃ k, roundUp (Idx.max - 8) 8 = .ok k ∧ IsLeast {k | Idx.max - 8 ≤ k ∧ 8 ∣ k} k := by
  have hmin : Idx.InRange Idx.min := by decide
  have hmax : Idx.InRange (Idx.max - 8) := by decide
  obtain ⟨-, -, hcount, hround⟩ := rounding_exact hmin 3
  obtain ⟨-, -, -, hover⟩ := rounding_exact hmax 9
  obtain ⟨-, -, -, hedge⟩ := rounding_exact hmax 8
  refine ⟨hmin, (hcount (by decide)).2 (by decide), (hround (by decide)).2 (by decide), hmax,
    (hover (by decide)).1.mpr (by decide), (hedge (by decide)).2 (by decide)⟩

end StencilPlan
