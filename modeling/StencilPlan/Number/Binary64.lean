import StencilPlan.Error

/-!
# 64-bit binary floating point

Reals are stored and exchanged as IEEE 754 words of 64 bits. The few operations needed on them are
done exactly, on natural numbers: a word is taken apart into `m * 2 ^ q`, and a ratio of two
naturals is rounded to the nearest word, a tie going to the word with an even last bit.
-/

namespace StencilPlan

/-- The power of two with a natural exponent. -/
def twoPow (n : Nat) : Nat := Nat.pow 2 n

/-- The power of ten with a natural exponent. -/
def tenPow (n : Nat) : Nat := Nat.pow 10 n

/-- The natural number nearest to `num / den`; a tie goes to the even one. -/
def nearestEven (num den : Nat) : Nat :=
  let q := num / den
  let r := num % den
  if 2 * r > den ∨ (2 * r = den ∧ q % 2 = 1) then q + 1 else q

/-- A 64-bit floating-point number, as its word. -/
structure Binary64 where
  bits : UInt64
  deriving DecidableEq, Repr, Inhabited

namespace Binary64

/-- The word of zero. -/
def zero : Binary64 := ⟨0⟩

/-- Whether the sign bit is set. -/
def negative (x : Binary64) : Bool := x.bits.toNat / twoPow 63 = 1

/-- The exponent field. -/
def exponent (x : Binary64) : Nat := x.bits.toNat / twoPow 52 % twoPow 11

/-- The fraction field. -/
def fraction (x : Binary64) : Nat := x.bits.toNat % twoPow 52

/-- Neither infinite nor a NaN. -/
def isFinite (x : Binary64) : Bool := x.exponent ≠ 2047

def isNaN (x : Binary64) : Bool := x.exponent = 2047 ∧ x.fraction ≠ 0

/-- The integer factor of a finite number's magnitude. -/
def significand (x : Binary64) : Nat :=
  if x.exponent = 0 then x.fraction else twoPow 52 + x.fraction

/-- The power of two that goes with `significand`. -/
def scale (x : Binary64) : Int :=
  if x.exponent = 0 then -1074 else (x.exponent : Int) - 1075

/-- Numerator of the magnitude of a finite number. -/
def numerator (x : Binary64) : Nat := x.significand * twoPow x.scale.toNat

/-- Denominator of the magnitude of a finite number. -/
def denominator (x : Binary64) : Nat := twoPow (-x.scale).toNat

/-- The word with a sign and the other 63 bits. -/
def ofSignBits (negative : Bool) (magnitude : Nat) : Binary64 :=
  ⟨UInt64.ofNat ((if negative then twoPow 63 else 0) + magnitude)⟩

/-- The 63 bits of infinity. -/
def infinityBits : Nat := 2047 * twoPow 52

def infinity (negative : Bool) : Binary64 := ofSignBits negative infinityBits

/-- A NaN. -/
def nan : Binary64 := ofSignBits false (infinityBits + twoPow 51)

/-- The power of two that the last bit of the word nearest to `num / den` stands for. -/
def lastPlace (num den : Nat) : Int :=
  let e := (num.log2 : Int) - den.log2 - 53
  let e := if num * twoPow (-e).toNat < den * twoPow e.toNat * twoPow 53 then e else e + 1
  max e (-1074)

/-- The word nearest to a ratio, or infinity where no finite word is near. -/
def ofRatio (negative : Bool) (num den : Nat) : Binary64 :=
  if num = 0 then
    ofSignBits negative 0
  else
    let e := lastPlace num den
    let m := nearestEven (num * twoPow (-e).toNat) (den * twoPow e.toNat)
    ofSignBits negative (min ((e + 1074).toNat * twoPow 52 + m) infinityBits)

/-- The word nearest to `digits * 10 ^ power`. -/
def ofDecimal (negative : Bool) (digits : Nat) (power : Int) : Binary64 :=
  if digits = 0 then
    ofSignBits negative 0
  else if power > 400 then
    infinity negative
  else if (digits.log2 / 3 : Nat) + power < -400 then
    ofSignBits negative 0
  else
    ofRatio negative (digits * tenPow power.toNat) (tenPow (-power).toNat)

/-- The word nearest to an integer. -/
def ofInt (n : Int) : Binary64 := ofRatio (n < 0) n.natAbs 1

/-- The integer part of a number, clamped to 64 bits; zero for a NaN. -/
def toIdx (x : Binary64) : Int :=
  if x.isNaN then 0
  else if ¬ x.isFinite then
    if x.negative then -9223372036854775808 else 9223372036854775807
  else
    let n : Int := (x.numerator / x.denominator : Nat)
    max (-9223372036854775808) (min 9223372036854775807 (if x.negative then -n else n))

/-- Product of two finite numbers, rounded. -/
def mul (x y : Binary64) : Binary64 :=
  ofRatio (x.negative != y.negative) (x.numerator * y.numerator) (x.denominator * y.denominator)

/-- Quotient of a finite number by one other than zero, rounded. -/
def div (x y : Binary64) : Binary64 :=
  ofRatio (x.negative != y.negative) (x.numerator * y.denominator) (x.denominator * y.numerator)

/-- The number with the other sign. -/
def neg (x : Binary64) : Binary64 :=
  ofSignBits (!x.negative) (x.bits.toNat % twoPow 63)

/-- The nanoseconds nearest to a number of seconds, a tie going to the even count. Less than
nothing, and a NaN, is no time at all; 2 ^ 64 seconds or more are a fault. -/
def nanoseconds (x : Binary64) : Checked Nat :=
  if x.isNaN ∨ x.negative then .ok 0
  else if ¬ x.isFinite ∨ x.numerator ≥ twoPow 64 * x.denominator then .error .duration
  else .ok (nearestEven (x.numerator * 1000000000) x.denominator)

/-- The sixteen hexadecimal digits of a word, highest first. -/
def hexDigits (x : Binary64) : String :=
  String.ofList ((List.range 16).reverse.map fun i =>
    Nat.digitChar (x.bits.toNat / twoPow (4 * i) % 16))

/-- The eight bytes of a word, lowest first. -/
def bytes (x : Binary64) : List UInt8 :=
  (List.range 8).map fun i => UInt8.ofNat (x.bits.toNat / twoPow (8 * i))

/-- The word with the given bytes, lowest first. -/
def ofBytes (bs : List UInt8) : Binary64 :=
  ⟨UInt64.ofNat (bs.foldr (fun b n => b.toNat + 256 * n) 0)⟩

end Binary64

end StencilPlan
