import StencilPlan.Text.Blank
import StencilPlan.Arith.Checked
import StencilPlan.Number.Binary64

/-!
# Numbers in texts

Integers are an optional sign and ASCII digits; a minus sign is refused where only counts are
allowed. Reals are digits with at most one point, an optional power of ten, or the names of
infinity and NaN in any case; they are read to the nearest word. Blanks around a number do not
count.
-/

namespace StencilPlan.Text

/-- The value of an ASCII digit. -/
def digit? (c : Char) : Option Nat :=
  if '0' ≤ c ∧ c ≤ '9' then some (c.toNat - '0'.toNat) else none

def isDigit (c : Char) : Bool := (digit? c).isSome

/-- The number written by some digits, of which those that are none count as zero. -/
def digitsValue (ds : List Char) : Nat := ds.foldl (fun n c => 10 * n + (digit? c).getD 0) 0

/-- A number of at least one digit. -/
def natural? (s : List Char) : Option Nat :=
  if s ≠ [] ∧ s.all isDigit then some (digitsValue s) else none

/-- An integer with an optional sign. -/
def integer? : List Char → Option Int
  | '-' :: ds => (natural? ds).map fun n => -(n : Int)
  | '+' :: ds => (natural? ds).map fun n => (n : Int)
  | ds => (natural? ds).map fun n => (n : Int)

/-- An integer between two bounds. -/
def between? (low high : Int) (s : String) : Option Int :=
  (integer? (trim s)).filter fun n => low ≤ n ∧ n ≤ high

/-- A signed 64-bit integer. -/
def idx? (s : String) : Option Int := between? Idx.min Idx.max s

/-- A signed 32-bit integer. -/
def int32? (s : String) : Option Int := between? (-2147483648) 2147483647 s

/-- A count; a minus sign is refused even before a zero. -/
def word? (s : String) : Option Nat :=
  let digits? := match trim s with
    | '+' :: ds => natural? ds
    | ds => natural? ds
  digits?.filter (· < Word.bound)

/-- A truth value: `1`, `true`, `on` or `yes`, or their opposites. -/
def bool? (s : String) : Option Bool :=
  match String.ofList (trim s) with
  | "1" | "true" | "on" | "yes" => some true
  | "0" | "false" | "off" | "no" => some false
  | _ => none

/-- The power of ten after an `e`. -/
def exponent? : List Char → Option Int
  | [] => some 0
  | 'e' :: s | 'E' :: s => integer? s
  | _ => none

/-- A real without a sign. -/
def magnitude? (negative : Bool) (s : List Char) : Option Binary64 :=
  match (String.ofList s).toLower with
  | "inf" | "infinity" => some (.infinity negative)
  | "nan" => some .nan
  | _ =>
    let whole := s.takeWhile isDigit
    let rest := s.dropWhile isDigit
    let (part, rest) := match rest with
      | '.' :: r => (r.takeWhile isDigit, r.dropWhile isDigit)
      | r => ([], r)
    if whole = [] ∧ part = [] then
      none
    else
      (exponent? rest).map fun e =>
        .ofDecimal negative (digitsValue (whole ++ part)) (e - part.length)

/-- A real, read to the nearest word. -/
def real? (s : String) : Option Binary64 :=
  match trim s with
  | '-' :: r => magnitude? true r
  | '+' :: r => magnitude? false r
  | r => magnitude? false r

end StencilPlan.Text
