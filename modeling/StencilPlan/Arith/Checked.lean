import StencilPlan.Error

/-!
# Checked 64-bit arithmetic

Sizes, offsets and indices are integers of mathematics that must fit into 64 bits: `Idx` for
signed values and `Word` for counts. Each operation computes exactly and then checks its range,
so what an operation yields is always the exact result, and the lemmas below say when it yields
one. Conversions between the two wrap modulo 2 ^ 64. An array is bounded in the same way: it has no
more bytes than the greatest signed integer.
-/

namespace StencilPlan

namespace Idx

/-- The least signed 64-bit integer. -/
def min : Int := -9223372036854775808

/-- The greatest signed 64-bit integer. -/
def max : Int := 9223372036854775807

/-- An integer that fits into 64 bits with a sign. -/
def InRange (n : Int) : Prop := min ≤ n ∧ n ≤ max

instance (n : Int) : Decidable (InRange n) := inferInstanceAs (Decidable (_ ∧ _))

/-- The integer itself if it is in range. -/
def check (n : Int) : Checked Int :=
  if InRange n then .ok n else .error .arithmetic

def add (a b : Int) : Checked Int := check (a + b)

def sub (a b : Int) : Checked Int := check (a - b)

def mul (a b : Int) : Checked Int := check (a * b)

def neg (a : Int) : Checked Int := check (-a)

/-- Distance from zero. -/
def abs (a : Int) : Checked Int := check a.natAbs

/-- Quotient, rounded toward zero. -/
def div (a b : Int) : Checked Int :=
  if b = 0 then .error .arithmetic else check (a.tdiv b)

/-- Remainder of `div`; it has the sign of `a`. It faults exactly where `div` does. -/
def rem (a b : Int) : Checked Int := do
  let _ ← div a b
  return a.tmod b

/-- Quotient, rounded so that the remainder is never negative. -/
def euclidDiv (a b : Int) : Checked Int :=
  if b = 0 then .error .arithmetic else check (a / b)

/-- Product from the left, starting at one: an early zero hides a later large factor. -/
def product (ns : List Int) : Checked Int := ns.foldlM mul 1

/-- Sum from the left, starting at zero. -/
def sum (ns : List Int) : Checked Int := ns.foldlM add 0

/-- The signed integer with the same 64 bits as the count `n`. -/
def ofWord (n : Nat) : Int := Int.bmod n 18446744073709551616

theorem check_eq_ok_iff {n m : Int} : check n = .ok m ↔ InRange n ∧ m = n := by
  unfold check
  split <;> simp_all [eq_comm]

theorem check_of_inRange {n : Int} (h : InRange n) : check n = .ok n := if_pos h

theorem add_eq_ok_iff {a b c : Int} : add a b = .ok c ↔ InRange (a + b) ∧ c = a + b :=
  check_eq_ok_iff

theorem sub_eq_ok_iff {a b c : Int} : sub a b = .ok c ↔ InRange (a - b) ∧ c = a - b :=
  check_eq_ok_iff

theorem mul_eq_ok_iff {a b c : Int} : mul a b = .ok c ↔ InRange (a * b) ∧ c = a * b :=
  check_eq_ok_iff

theorem neg_eq_ok_iff {a c : Int} : neg a = .ok c ↔ InRange (-a) ∧ c = -a :=
  check_eq_ok_iff

theorem div_eq_ok_iff {a b c : Int} :
    div a b = .ok c ↔ b ≠ 0 ∧ InRange (a.tdiv b) ∧ c = a.tdiv b := by
  unfold div
  split <;> simp_all [check_eq_ok_iff]

theorem euclidDiv_eq_ok_iff {a b c : Int} :
    euclidDiv a b = .ok c ↔ b ≠ 0 ∧ InRange (a / b) ∧ c = a / b := by
  unfold euclidDiv
  split <;> simp_all [check_eq_ok_iff]

end Idx

namespace Word

/-- One above the greatest count. -/
def bound : Nat := 18446744073709551616

/-- The greatest count. -/
def max : Nat := 18446744073709551615

/-- The count itself if it is in range. -/
def check (n : Nat) : Checked Nat :=
  if n < bound then .ok n else .error .arithmetic

def add (a b : Nat) : Checked Nat := check (a + b)

def mul (a b : Nat) : Checked Nat := check (a * b)

/-- Quotient of two counts. -/
def div (a b : Nat) : Checked Nat :=
  if b = 0 then .error .arithmetic else .ok (a / b)

def pow (a b : Nat) : Checked Nat := (List.replicate b a).foldlM mul 1

/-- The sum, or the greatest count where the sum is above it. -/
def saturatingAdd (a b : Nat) : Nat := Nat.min (a + b) max

/-- The count with the same 64 bits as `n`. -/
def ofIdx (n : Int) : Nat := (n % 18446744073709551616).toNat

theorem check_eq_ok_iff {n m : Nat} : check n = .ok m ↔ n < bound ∧ m = n := by
  unfold check
  split
  · simp_all [eq_comm]
  · simp only [reduceCtorEq, false_iff]
    omega

theorem div_of_pos {a b : Nat} (h : 1 ≤ b) : div a b = .ok (a / b) := if_neg (by omega)

theorem ofIdx_of_nonneg {n : Int} (h₀ : 0 ≤ n) (h₁ : n ≤ Idx.max) : ofIdx n = n.toNat := by
  simp only [Idx.max] at h₁
  unfold ofIdx
  omega

end Word

/-- The most bytes that an array may have. -/
def arrayBytes : Nat := 9223372036854775807

/-- Room in an array for so many entries of so many bytes each. Memory is taken to be there; what
may be missing is an array that is long enough. -/
def reserve (entries bytes : Nat) : Checked Unit :=
  if entries * bytes ≤ arrayBytes then .ok () else .error .capacity

theorem reserve_eq_ok_iff {entries bytes : Nat} {u : Unit} :
    reserve entries bytes = .ok u ↔ entries * bytes ≤ arrayBytes := by
  unfold reserve
  split <;> simp_all

theorem reserve_of_lt {entries bytes : Nat} (h : arrayBytes < entries * bytes) :
    reserve entries bytes = .error .capacity := if_neg (by omega)

end StencilPlan
