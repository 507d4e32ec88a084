import StreamFilter.Json.Basic
set_option autoImplicit false

/-!
# Writing JSON

Two layouts: on one line without blanks, and over several lines with two blanks
for each level.  Text is written as it is but for the double quote, the backslash
and control characters.
-/

namespace StreamFilter.Json

/-- A hexadecimal digit in lower case. -/
def hexDigit (n : Nat) : Char := if n < 10 then Char.ofNat (48 + n) else Char.ofNat (87 + n)

/-- The characters that stand for one character inside quotes. -/
def escapeChar (c : Char) : List Char :=
  if c = '"' then ['\\', '"']
  else if c = '\\' then ['\\', '\\']
  else if c = '\n' then ['\\', 'n']
  else if c = '\r' then ['\\', 'r']
  else if c = '\t' then ['\\', 't']
  else if c.toNat = 0x08 then ['\\', 'b']
  else if c.toNat = 0x0C then ['\\', 'f']
  else if c.toNat < 0x20 then
    ['\\', 'u', '0', '0', hexDigit (c.toNat / 16), hexDigit (c.toNat % 16)]
  else [c]

/-- A text between quotes. -/
def quoted (text : String) : String :=
  String.ofList ('"' :: (text.toList.flatMap escapeChar ++ ['"']))

/-- A number as it is written; JSON has no word for infinities. -/
def numberText : Number → String
  | .whole value => Number.wholeText value
  | .float value => value.scientificText
  | .infinite _ | .undefined => "null"

/-- A value without parts, or with parts that are not shown. -/
def scalarText : Json → String
  | null => "null"
  | bool true => "true"
  | bool false => "false"
  | number value => numberText value
  | string text => quoted text
  | array _ => "[]"
  | object _ => "\x7b\x7d"

mutual

/-- A value on one line. -/
def compact : Json → String
  | array (item :: items) => "[" ++ compact item ++ compactItems items ++ "]"
  | object ((name, value) :: members) =>
    "\x7b" ++ quoted name ++ ":" ++ compact value ++ compactMembers members ++ "\x7d"
  | value => scalarText value

/-- Further items on one line. -/
def compactItems : List Json → String
  | [] => ""
  | item :: items => "," ++ compact item ++ compactItems items

/-- Further members on one line. -/
def compactMembers : List (String × Json) → String
  | [] => ""
  | (name, value) :: members =>
    "," ++ quoted name ++ ":" ++ compact value ++ compactMembers members

end

/-- A line end and the blanks of a level. -/
def newline (level : Nat) : String := String.ofList ('\n' :: List.replicate (2 * level) ' ')

mutual

/-- A value over several lines, its first line at a level. -/
def pretty (level : Nat) : Json → String
  | array (item :: items) =>
    "[" ++ newline (level + 1) ++ pretty (level + 1) item ++ prettyItems (level + 1) items ++
      newline level ++ "]"
  | object ((name, value) :: members) =>
    "\x7b" ++ newline (level + 1) ++ quoted name ++ ": " ++ pretty (level + 1) value ++
      prettyMembers (level + 1) members ++ newline level ++ "\x7d"
  | value => scalarText value

/-- Further items, one line or more each. -/
def prettyItems (level : Nat) : List Json → String
  | [] => ""
  | item :: items => "," ++ newline level ++ pretty level item ++ prettyItems level items

/-- Further members, one line or more each. -/
def prettyMembers (level : Nat) : List (String × Json) → String
  | [] => ""
  | (name, value) :: members =>
    "," ++ newline level ++ quoted name ++ ": " ++ pretty level value ++
      prettyMembers level members

end

end StreamFilter.Json
