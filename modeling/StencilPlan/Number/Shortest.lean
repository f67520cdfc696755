import StencilPlan.Number.Binary64

/-!
# Shortest decimal text

The text of a finite number has as few digits as possible such that no other number lies nearer to
it; among those the digits nearest to the number itself, and of two equally near the even ones.
The digits are found on grids of ever finer powers of ten, in exact arithmetic: if a point of a
grid reads back as the number, so does one of the two neighbors of the number on that grid.
-/

namespace StencilPlan.Binary64

/-- Digits and power of ten of a decimal number. -/
structure Decimal where
  digits : Nat
  power : Int
  deriving DecidableEq, Repr

/-- Drops up to `steps` zeros at the end of the digits. -/
def Decimal.trim : Nat → Decimal → Decimal
  | 0, d => d
  | steps + 1, d =>
    if d.digits ≠ 0 ∧ d.digits % 10 = 0 then Decimal.trim steps ⟨d.digits / 10, d.power + 1⟩ else d

/-- The power of ten of the first digit of a positive finite number. -/
def decimalExponent (x : Binary64) : Int :=
  ((Nat.toDigits 10 (x.numerator * tenPow 400 / x.denominator)).length : Int) - 401

/-- The point of the grid of multiples of `10 ^ power` that reads back as `x`, if there is one.
Everything is scaled so that `x` becomes `4 * m * v` and one step of the grid becomes `u`; the
numbers that round to `x` reach down by `below * v` and up by `2 * v`. -/
def onGrid? (x : Binary64) (power : Int) : Option Decimal :=
  let m := x.significand
  let p := x.scale - 2
  let v := twoPow p.toNat * tenPow (-power).toNat
  let u := tenPow power.toNat * twoPow (-p).toNat
  let below := if x.fraction = 0 ∧ x.exponent > 1 then 1 else 2
  let value := 4 * m * v
  let low := (4 * m - below) * v
  let high := (4 * m + 2) * v
  let reads (c : Nat) : Bool :=
    if m % 2 = 0 then low ≤ c * u ∧ c * u ≤ high else low < c * u ∧ c * u < high
  let c := value / u
  let down := value - c * u
  let up := (c + 1) * u - value
  let downFirst : Bool := down < up ∨ (down = up ∧ c % 2 = 0)
  if reads c ∧ (downFirst ∨ ¬ reads (c + 1)) ∧ c ≠ 0 then some ⟨c, power⟩
  else if reads (c + 1) then some ⟨c + 1, power⟩
  else none

/-- The shortest decimal number that reads back as a positive finite number. -/
def shortest (x : Binary64) : Decimal :=
  let e := x.decimalExponent
  match (List.range 17).findSome? fun n : Nat => x.onGrid? (e - (n : Int)) with
  | some d => d.trim 20
  | none => ⟨0, 0⟩

/-- Text of digits with `point` of them before the decimal point. Powers of ten from -5 to 15 are
written out, others with an exponent that always has a sign. -/
def place (ds : List Char) (point : Int) : String :=
  let n := ds.length
  if 0 < point ∧ point ≤ 16 then
    if (n : Int) ≤ point then
      String.ofList (ds ++ List.replicate (point - n).toNat '0') ++ ".0"
    else
      String.ofList (ds.take point.toNat) ++ "." ++ String.ofList (ds.drop point.toNat)
  else if -5 < point ∧ point ≤ 0 then
    "0." ++ String.ofList (List.replicate (-point).toNat '0' ++ ds)
  else
    let e := point - 1
    let tail := ds.drop 1
    String.ofList (ds.take 1) ++ (if tail.isEmpty then "" else "." ++ String.ofList tail) ++ "e" ++
      (if e < 0 then "-" else "+") ++ toString e.natAbs

/-- Text of a finite number. -/
def render (x : Binary64) : String :=
  let body :=
    if x.significand = 0 then "0.0"
    else
      let d := x.shortest
      let ds := Nat.toDigits 10 d.digits
      place ds (ds.length + d.power)
  if x.negative then "-" ++ body else body

end StencilPlan.Binary64
