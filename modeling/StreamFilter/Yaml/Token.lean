import StreamFilter.Yaml.Basic
set_option autoImplicit false

/-!
# YAML tokens

The characters of a document are grouped into tokens.  That a scalar is the key of a
table shows only at the colon behind it, so a token can be inserted in front of others
later.
-/

namespace StreamFilter.Yaml

/-- A token. -/
inductive Token where
  | version (major minor : Nat)
  /-- A handle that stands for a space of tags. -/
  | handle (name space : String)
  | documentStart
  | documentEnd
  | blockListStart
  | blockTableStart
  | blockEnd
  | flowListStart
  | flowListEnd
  | flowTableStart
  | flowTableEnd
  | blockEntry
  | flowEntry
  | key
  | value
  | alias (name : String)
  | anchor (name : String)
  /-- A tag with the handle of its space. -/
  | tag (handle name : String)
  | scalar (style : Style) (text : String)
  deriving DecidableEq, Repr, Inhabited

/-- Tokens with the last in front, and how many they are. -/
structure Tokens where
  reversed : List Token := []
  count : Nat := 0
  deriving Repr, Inhabited

namespace Tokens

/-- The tokens in order. -/
def toList (ts : Tokens) : List Token := ts.reversed.reverse

/-- A token behind the others. -/
def push (t : Token) (ts : Tokens) : Tokens := ⟨t :: ts.reversed, ts.count + 1⟩

/-- A token in front of the one with a number. -/
def insertAt (number : Nat) (t : Token) (ts : Tokens) : Tokens :=
  let behind := ts.count - number
  ⟨ts.reversed.take behind ++ t :: ts.reversed.drop behind, ts.count + 1⟩

end Tokens

/-! ## Places -/

/-- A place in a text. -/
structure Spot where
  index : Nat := 0
  line : Nat := 0
  column : Nat := 0
  deriving DecidableEq, Repr, Inhabited

namespace Spot

/-- The place some characters of the line further. -/
def forward (s : Spot) (n : Nat) : Spot := ⟨s.index + n, s.line, s.column + n⟩

/-- The place behind the next character of the line. -/
def next (s : Spot) : Spot := s.forward 1

/-- The place behind a line break. -/
def newLine (s : Spot) : Spot := ⟨s.index + 1, s.line + 1, 0⟩

end Spot

/-- A scalar that has been read: its text, and where it ended. -/
structure Scanned where
  text : String
  spot : Spot
  rest : List Char
  /-- Whether a line break came behind it. -/
  broken : Bool
  deriving Repr, Inhabited

/-- Where a table's key may have started. -/
structure PossibleKey where
  /-- The number of its first token. -/
  number : Nat
  spot : Spot
  /-- Whether nothing else than a key may stand there. -/
  required : Bool
  deriving Repr, Inhabited

/-- How many characters a key may have. -/
def longestKeyText : Nat := 1024

/-! ## Characters -/

/-- The blanks of a line. -/
def isBlank (c : Char) : Bool := c == ' ' || c == '\t'

/-- The brackets and the comma of collections on a line. -/
def isFlowMark (c : Char) : Bool :=
  c == ',' || c == '[' || c == ']' || c == '\x7b' || c == '\x7d'

/-- The characters of names. -/
def isNameChar (c : Char) : Bool :=
  ('0' ≤ c && c ≤ '9') || ('A' ≤ c && c ≤ 'Z') || ('a' ≤ c && c ≤ 'z') || c == '_' || c == '-'

/-- Whether a word ends in front of these characters. -/
def gapFollows (isBreak : Char → Bool) : List Char → Bool
  | [] => true
  | c :: _ => isBlank c || isBreak c

/-- Whether characters are the mark in front of a document or behind it. -/
def isDocumentMark (isBreak : Char → Bool) : List Char → Bool
  | '-' :: '-' :: '-' :: rest => gapFollows isBreak rest
  | '.' :: '.' :: '.' :: rest => gapFollows isBreak rest
  | _ => false

/-! ## Escapes in tags -/

/-- The value of two hexadecimal digits. -/
def octet? (a b : Char) : Option Nat := do return (← digitOf? 16 a) * 16 + (← digitOf? 16 b)

/-- Characters with their escapes resolved: each escape is an octet of the UTF-8 form of
a character.  Of a character that has been begun, the count of its missing octets and
the value of the others are given. -/
def resolveOctets (missing value : Nat) : List Char → Option (List Char)
  | [] => if missing = 0 then some [] else none
  | '%' :: a :: b :: cs => do
    let octet ← octet? a b
    if missing = 0 then
      if octet < 0x80 then return Char.ofNat octet :: (← resolveOctets 0 0 cs)
      else if octet / 32 = 6 then resolveOctets 1 (octet % 32) cs
      else if octet / 16 = 14 then resolveOctets 2 (octet % 16) cs
      else if octet / 8 = 30 then resolveOctets 3 (octet % 8) cs
      else none
    else if octet / 64 = 2 then
      if missing = 1 then return Char.ofNat (value * 64 + octet % 64) :: (← resolveOctets 0 0 cs)
      else resolveOctets (missing - 1) (value * 64 + octet % 64) cs
    else none
  | c :: cs =>
    if missing = 0 ∧ c ≠ '%' then do return c :: (← resolveOctets 0 0 cs) else none

/-- The name that characters of a tag spell. -/
def tagName? (cs : List Char) : Option String := (resolveOctets 0 0 cs).map String.ofList

end StreamFilter.Yaml
