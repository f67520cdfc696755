/-!
# JSON values

A value as it stands in a text: numbers keep their digits, and a string whose escapes name half a
surrogate pair is kept as an unreadable one, because it only matters if somebody asks for it.
Values are written in the compact form, without blanks.
-/

namespace StencilPlan

/-- A JSON value. -/
inductive Json where
  | null
  | bool (b : Bool)
  /-- A number as written. -/
  | number (digits : List Char)
  /-- A string; `none` if its escapes do not spell characters. -/
  | text (s : Option String)
  | array (items : List Json)
  /-- An object with its fields in order; keys are strings like any other. -/
  | object (fields : List (Option String × Json))
  deriving Inhabited

namespace Json

def str (s : String) : Json := text (some s)

def int (n : Int) : Json := number (toString n).toList

def nat (n : Nat) : Json := number (toString n).toList

/-- An object with readable keys. -/
def record (fields : List (String × Json)) : Json :=
  object (fields.map fun f => (some f.1, f.2))

/-- The hexadecimal digit of a number below 16. -/
def hexDigit (n : Nat) : Char := Nat.digitChar n

/-- A character inside a string: quotes, backslashes and control characters are escaped. -/
def escape (c : Char) : List Char :=
  if c = '"' then ['\\', '"']
  else if c = '\\' then ['\\', '\\']
  else if c = '\x08' then ['\\', 'b']
  else if c = '\t' then ['\\', 't']
  else if c = '\n' then ['\\', 'n']
  else if c = '\x0c' then ['\\', 'f']
  else if c = '\r' then ['\\', 'r']
  else if c.toNat < 32 then
    ['\\', 'u', '0', '0', hexDigit (c.toNat / 16), hexDigit (c.toNat % 16)]
  else [c]

/-- A string in quotes. -/
def quote (s : String) : List Char := '"' :: (s.toList.flatMap escape ++ ['"'])

mutual

/-- The compact text of a value. -/
def chars : Json → List Char
  | null => "null".toList
  | bool true => "true".toList
  | bool false => "false".toList
  | number ds => ds
  | text s => quote (s.getD "")
  | array items => '[' :: (itemsChars items ++ [']'])
  | object fields => '\x7b' :: (fieldsChars fields ++ ['\x7d'])

/-- Items separated by commas. -/
def itemsChars : List Json → List Char
  | [] => []
  | [v] => chars v
  | v :: vs => chars v ++ ',' :: itemsChars vs

/-- Fields separated by commas. -/
def fieldsChars : List (Option String × Json) → List Char
  | [] => []
  | [(k, v)] => quote (k.getD "") ++ ':' :: chars v
  | (k, v) :: fs => quote (k.getD "") ++ ':' :: (chars v ++ ',' :: fieldsChars fs)

end

/-- The compact text of a value. -/
def render (v : Json) : String := String.ofList (chars v)

end Json

end StencilPlan
