import StencilPlan.Json.Basic
import StencilPlan.Json.Number

/-!
# Tokens of JSON texts

A text is cut into tokens by a machine that reads one character at a time: a token is a
punctuation mark or a value that has no parts.
-/

namespace StencilPlan.Json

/-- A punctuation mark or a value without parts. -/
inductive Token where
  | mark (c : Char)
  | leaf (v : Json)

/-- A piece of a string: a character, or the number after `\u`. -/
inductive Piece where
  | char (c : Char)
  | unit (n : Nat)

/-- The characters that pieces spell. A number from 0xD800 on must be followed by its second half
from 0xDC00 on, and such a half cannot stand alone. -/
def spell : List Piece → Option (List Char)
  | [] => some []
  | .char c :: ps => (spell ps).map (c :: ·)
  | .unit n :: ps =>
    if 0xD800 ≤ n ∧ n < 0xDC00 then
      match ps with
      | .unit m :: ps' =>
        if 0xDC00 ≤ m ∧ m < 0xE000 then
          (spell ps').map (Char.ofNat (0x10000 + (n - 0xD800) * 0x400 + (m - 0xDC00)) :: ·)
        else none
      | _ => none
    else if 0xDC00 ≤ n ∧ n < 0xE000 then none
    else (spell ps).map (Char.ofNat n :: ·)

/-- What the machine is in the middle of; what it has collected is in reverse order. -/
inductive Mode where
  | between
  | word (read : List Char)
  | number (read : List Char)
  | string (read : List Piece)
  | escape (read : List Piece)
  | unit (read : List Piece) (value digitsLeft : Nat)

/-- The value of a word. -/
def keyword? (w : String) : Option Json :=
  match w with
  | "null" => some .null
  | "true" => some (.bool true)
  | "false" => some (.bool false)
  | _ => none

/-- The token that ends with the current character, if one was being read. -/
def Mode.finish? : Mode → Option (List Token)
  | .between => some []
  | .word read => (keyword? (String.ofList read.reverse)).map fun v => [.leaf v]
  | .number read =>
    (NumberText.parse? read.reverse).map fun _ => [.leaf (.number read.reverse)]
  | _ => none

/-- The value of a hexadecimal digit. -/
def hexValue? (c : Char) : Option Nat :=
  if '0' ≤ c ∧ c ≤ '9' then some (c.toNat - 48)
  else if 'a' ≤ c ∧ c ≤ 'f' then some (c.toNat - 87)
  else if 'A' ≤ c ∧ c ≤ 'F' then some (c.toNat - 55)
  else none

/-- The character that follows a backslash, other than `u`. -/
def escaped? : Char → Option Char
  | '"' => some '"'
  | '\\' => some '\\'
  | '/' => some '/'
  | 'b' => some '\x08'
  | 'f' => some '\x0c'
  | 'n' => some '\n'
  | 'r' => some '\r'
  | 't' => some '\t'
  | _ => none

/-- Starts on a character that belongs to no token yet. -/
def start? (c : Char) (tokens : List Token) : Option (Mode × List Token) :=
  if c = ' ' ∨ c = '\n' ∨ c = '\t' ∨ c = '\r' then some (.between, tokens)
  else if c ∈ ['[', ']', '\x7b', '\x7d', ',', ':'] then some (.between, .mark c :: tokens)
  else if c = '"' then some (.string [], tokens)
  else if c = '-' ∨ Text.isDigit c then some (.number [c], tokens)
  else if 'a' ≤ c ∧ c ≤ 'z' then some (.word [c], tokens)
  else none

/-- Reads one character; the tokens so far are in reverse order. -/
def advance? (st : Mode × List Token) (c : Char) : Option (Mode × List Token) :=
  match st.1 with
  | .between => start? c st.2
  | .word read =>
    if 'a' ≤ c ∧ c ≤ 'z' then some (.word (c :: read), st.2)
    else do start? c ((← st.1.finish?) ++ st.2)
  | .number read =>
    if Text.isDigit c ∨ c ∈ ['+', '-', '.', 'e', 'E'] then some (.number (c :: read), st.2)
    else do start? c ((← st.1.finish?) ++ st.2)
  | .string read =>
    if c = '"' then
      some (.between, .leaf (.text ((spell read.reverse).map String.ofList)) :: st.2)
    else if c = '\\' then some (.escape read, st.2)
    else if c.toNat < 32 then none
    else some (.string (.char c :: read), st.2)
  | .escape read =>
    if c = 'u' then some (.unit read 0 4, st.2)
    else (escaped? c).map fun e => (.string (.char e :: read), st.2)
  | .unit read value left =>
    (hexValue? c).map fun h =>
      if left ≤ 1 then (.string (.unit (16 * value + h) :: read), st.2)
      else (.unit read (16 * value + h) (left - 1), st.2)

/-- The tokens of a text. -/
def tokens? (s : List Char) : Option (List Token) := do
  let (mode, tokens) ← s.foldlM advance? (.between, [])
  return ((← mode.finish?) ++ tokens).reverse

end StencilPlan.Json
