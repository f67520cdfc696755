import StencilPlan.Text.Numeral

/-!
# Numbers in JSON texts

A number is read as an integer where it is written like one; minus zero and integers beyond 64
bits count as reals. A real keeps as many digits as fit into 64 bits and is then scaled by one
power of ten, each step rounded, so it may differ from the nearest word in its last bit.
-/

namespace StencilPlan.Json

open Text

/-- A number taken apart. -/
structure NumberText where
  negative : Bool
  whole : List Char
  /-- Digits after the point, if there is one. -/
  part : Option (List Char)
  /-- Sign and digits of the power of ten, if there is one. -/
  power : Option (Bool × List Char)

/-- The digits of a power of ten, with an optional sign. -/
def powerText? : List Char → Option (Option (Bool × List Char))
  | [] => some none
  | c :: s =>
    if c = 'e' ∨ c = 'E' then
      let (negative, ds) := match s with
        | '-' :: r => (true, r)
        | '+' :: r => (false, r)
        | r => (false, r)
      if ds ≠ [] ∧ ds.all isDigit then some (some (negative, ds)) else none
    else none

/-- Takes a number without its sign apart: no leading zeros, and digits on both sides of a point. -/
def NumberText.unsigned? (negative : Bool) (s : List Char) : Option NumberText :=
  let whole := s.takeWhile isDigit
  let rest := s.dropWhile isDigit
  if whole = [] ∨ (whole.head? = some '0' ∧ whole.length > 1) then
    none
  else
    match rest with
    | '.' :: r =>
      let part := r.takeWhile isDigit
      if part = [] then none
      else (powerText? (r.dropWhile isDigit)).map fun p => ⟨negative, whole, some part, p⟩
    | r => (powerText? r).map fun p => ⟨negative, whole, none, p⟩

/-- Takes a number apart. -/
def NumberText.parse? : List Char → Option NumberText
  | '-' :: s => unsigned? true s
  | s => unsigned? false s

namespace NumberText

/-- The integer that is written, unless it is written as a real or as minus zero. -/
def int? (n : NumberText) : Option Int :=
  if n.part.isSome ∨ n.power.isSome then none
  else
    let v := digitsValue n.whole
    if n.negative then (if v = 0 then none else some (-(v : Int))) else some v

/-- Takes digits while the number they spell fits into 64 bits; also the digits left over. -/
def takeFitting (v : Nat) : List Char → Nat × List Char
  | [] => (v, [])
  | c :: cs =>
    let w := 10 * v + (digit? c).getD 0
    if w < Word.bound then takeFitting w cs else (v, c :: cs)

/-- Ten to a power that a finite number can be. -/
def tenTo (n : Nat) : Binary64 := .ofDecimal false 1 n

/-- Scales by a power of ten below -308 in several divisions. -/
def scaleDown (x : Binary64) (power : Int) : Binary64 × Int :=
  if h : power < -308 then
    if x.significand = 0 then (x, 0)
    else scaleDown (x.div (tenTo 308)) (power + 308)
  else (x, power)
termination_by (-power).toNat
decreasing_by omega

/-- Scales by a power of ten; infinity is refused. -/
def scaled? (negative : Bool) (significand : Nat) (power : Int) : Option Binary64 :=
  let (x, power) := scaleDown (.ofInt significand) power
  let magnitude? :=
    if power ≤ 0 then some (x.div (tenTo (-power).toNat))
    else if x.significand = 0 then some x
    else if power > 308 then none
    else
      let y := x.mul (tenTo power.toNat)
      if y.isFinite then some y else none
  magnitude?.map fun y => if negative then y.neg else y

/-- The greatest power of ten that is counted. -/
def powerLimit : Int := 2147483647

/-- The real that is written. -/
def real? (n : NumberText) : Option Binary64 :=
  match n.int? with
  | some v =>
    if Idx.min ≤ v ∧ v < Word.bound then some (.ofInt v) else beyond? n
  | none => beyond? n
where
  /-- A real that is not an integer of 64 bits. -/
  beyond? (n : NumberText) : Option Binary64 :=
    let (v, dropped) := takeFitting 0 n.whole
    let part := n.part.getD []
    let (v, cut) := takeFitting v part
    let power : Int := dropped.length - ((part.length - cut.length : Nat) : Int)
    match n.power with
    | none => scaled? n.negative v power
    | some (negativePower, ds) =>
      let e : Int := digitsValue ds
      if e > powerLimit then
        if v ≠ 0 ∧ ¬ negativePower then none
        else some (if n.negative then Binary64.zero.neg else Binary64.zero)
      else
        let total := if negativePower then power - e else power + e
        scaled? n.negative v (max (-2147483648) (min powerLimit total))

end NumberText

end StencilPlan.Json
