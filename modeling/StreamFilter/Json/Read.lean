import StreamFilter.Json.Basic
import StreamFilter.Number.Read
import StreamFilter.Shorter
set_option autoImplicit false

/-!
# Reading JSON

A reader takes characters and returns a value and the characters it leaves, which
are fewer.  Arrays and objects may be nested 127 deep.  Text may hold no control
character, and escapes have to name characters: a surrogate counts only as one
half of a pair.  Numbers beyond the range of a 64-bit float are refused.
-/

namespace StreamFilter.Json

/-- The characters that may stand between tokens. -/
def isSpace (c : Char) : Bool := c == ' ' || c == '\t' || c == '\r' || c == '\n'

/-- The characters from the first that is no space. -/
def skip (cs : List Char) : List Char := cs.dropWhile isSpace

theorem length_skip_le (cs : List Char) : (skip cs).length ≤ cs.length :=
  length_dropWhile_le isSpace cs

/-! ## Text -/

/-- The value of a hexadecimal digit. -/
def hexValue? (c : Char) : Option Nat :=
  if '0' ≤ c ∧ c ≤ '9' then some (c.toNat - 48)
  else if 'a' ≤ c ∧ c ≤ 'f' then some (c.toNat - 87)
  else if 'A' ≤ c ∧ c ≤ 'F' then some (c.toNat - 55)
  else none

/-- The value of four hexadecimal digits. -/
def hexUnit? (a b c d : Char) : Option Nat := do
  return (← hexValue? a) * 4096 + (← hexValue? b) * 256 + (← hexValue? c) * 16 + (← hexValue? d)

/-- The character of a 16-bit unit that is no surrogate. -/
def unitChar? (n : Nat) : Option Char :=
  if 0xD800 ≤ n ∧ n ≤ 0xDFFF then none else some (Char.ofNat n)

/-- The character of a pair of surrogates. -/
def pairChar? (high low : Nat) : Option Char :=
  if 0xD800 ≤ high ∧ high ≤ 0xDBFF ∧ 0xDC00 ≤ low ∧ low ≤ 0xDFFF then
    some (Char.ofNat (0x10000 + (high - 0xD800) * 0x400 + (low - 0xDC00)))
  else none

/-- The character of a short escape. -/
def shortEscape? (c : Char) : Option Char :=
  if c = '"' ∨ c = '\\' ∨ c = '/' then some c
  else if c = 'b' then some (Char.ofNat 0x08)
  else if c = 'f' then some (Char.ofNat 0x0C)
  else if c = 'n' then some '\n'
  else if c = 'r' then some '\r'
  else if c = 't' then some '\t'
  else none

/-- The next character of a text, or the end of the text. -/
inductive Piece where
  | char (c : Char)
  | close

/-- Reads one character of a text or its closing quote. -/
def readPiece (cs : List Char) : Option (Piece × Shorter cs) :=
  match cs with
  | [] => none
  | '"' :: rest => some (.close, Shorter.behind '"' [] rest)
  | '\\' :: 'u' :: a :: b :: c :: d :: '\\' :: 'u' :: e :: f :: g :: h :: rest => do
    let high ← hexUnit? a b c d
    match unitChar? high with
    | some x =>
      return (.char x, Shorter.behind '\\' ['u', a, b, c, d] ('\\' :: 'u' :: e :: f :: g :: h :: rest))
    | none =>
      let x ← pairChar? high (← hexUnit? e f g h)
      return (.char x, Shorter.behind '\\' ['u', a, b, c, d, '\\', 'u', e, f, g, h] rest)
  | '\\' :: 'u' :: a :: b :: c :: d :: rest => do
    return (.char (← unitChar? (← hexUnit? a b c d)), Shorter.behind '\\' ['u', a, b, c, d] rest)
  | '\\' :: c :: rest => do return (.char (← shortEscape? c), Shorter.behind '\\' [c] rest)
  | c :: rest => if c.toNat < 0x20 then none else some (.char c, Shorter.behind c [] rest)

/-- Reads the rest of a text whose opening quote has been read.  The characters
read so far come with the last in front. -/
def readText (read : List Char) (cs : List Char) : Option (String × Shorter cs) :=
  match readPiece cs with
  | none => none
  | some (.close, rest) => some (String.ofList read.reverse, rest)
  | some (.char c, ⟨rest, h⟩) =>
    match readText (c :: read) rest with
    | none => none
    | some (text, left) => some (text, ⟨left.1, Nat.lt_trans left.2 h⟩)
termination_by cs.length

/-! ## Values -/

/-- The characters that a number may consist of. -/
def isNumberChar (c : Char) : Bool :=
  Number.isDigit c || c == '-' || c == '+' || c == '.' || c == 'e' || c == 'E'

/-- Reads a value without parts from where it starts. -/
def readScalar (cs : List Char) : Option (Json × Shorter cs) :=
  match cs with
  | 'n' :: 'u' :: 'l' :: 'l' :: rest => some (null, Shorter.behind 'n' ['u', 'l', 'l'] rest)
  | 't' :: 'r' :: 'u' :: 'e' :: rest => some (bool true, Shorter.behind 't' ['r', 'u', 'e'] rest)
  | 'f' :: 'a' :: 'l' :: 's' :: 'e' :: rest =>
    some (bool false, Shorter.behind 'f' ['a', 'l', 's', 'e'] rest)
  | '"' :: rest =>
    (readText [] rest).map fun (text, left) =>
      (string text, Shorter.ofTail '"' ⟨left.1, Nat.le_of_lt left.2⟩)
  | c :: rest =>
    (Number.ofJson? (c :: rest.takeWhile isNumberChar)).map fun value =>
      (number value, Shorter.ofTail c (NoLonger.dropWhile isNumberChar rest))
  | [] => none

mutual

/-- Reads a value with at most `depth` levels of arrays and objects. -/
def readValue (depth : Nat) (cs : List Char) : Option (Json × Shorter cs) :=
  have within : (skip cs).length ≤ cs.length := length_skip_le cs
  match h : skip cs with
  | '[' :: rest =>
    have inside : rest.length < cs.length := by rw [h] at within; exact within
    match depth with
    | 0 => none
    | depth + 1 =>
      match h' : skip rest with
      | ']' :: after => some (array [], ⟨after, by
          have := length_skip_le rest; rw [h'] at this; simp only [List.length_cons] at this; omega⟩)
      | _ =>
        match readItems depth rest with
        | none => none
        | some (items, left) => some (array items, ⟨left.1, Nat.lt_trans left.2 inside⟩)
  | '\x7b' :: rest =>
    have inside : rest.length < cs.length := by rw [h] at within; exact within
    match depth with
    | 0 => none
    | depth + 1 =>
      match h' : skip rest with
      | '\x7d' :: after => some (object [], ⟨after, by
          have := length_skip_le rest; rw [h'] at this; simp only [List.length_cons] at this; omega⟩)
      | _ =>
        match readMembers depth rest with
        | none => none
        | some (members, left) => some (object members, ⟨left.1, Nat.lt_trans left.2 inside⟩)
  | _ =>
    match readScalar (skip cs) with
    | none => none
    | some (value, left) => some (value, ⟨left.1, Nat.lt_of_lt_of_le left.2 within⟩)
termination_by (cs.length, 0)

/-- Reads the items of an array that has some, and the closing bracket. -/
def readItems (depth : Nat) (cs : List Char) : Option (List Json × Shorter cs) :=
  match readValue depth cs with
  | none => none
  | some (item, ⟨left, h⟩) =>
    have within : (skip left).length ≤ left.length := length_skip_le left
    match h' : skip left with
    | ']' :: rest => some ([item], ⟨rest, by rw [h'] at within; simp only [List.length_cons] at within; omega⟩)
    | ',' :: rest =>
      have inside : rest.length < cs.length := by rw [h'] at within; simp only [List.length_cons] at within; omega
      match readItems depth rest with
      | none => none
      | some (items, left) => some (item :: items, ⟨left.1, Nat.lt_trans left.2 inside⟩)
    | _ => none
termination_by (cs.length, 1)

/-- Reads the members of an object that has some, and the closing brace. -/
def readMembers (depth : Nat) (cs : List Char) : Option (List (String × Json) × Shorter cs) :=
  have before : (skip cs).length ≤ cs.length := length_skip_le cs
  match h : skip cs with
  | '"' :: quoted =>
    match readText [] quoted with
    | none => none
    | some (name, ⟨afterName, h₁⟩) =>
      have between : (skip afterName).length ≤ afterName.length := length_skip_le afterName
      match h₂ : skip afterName with
      | ':' :: rest =>
        have inside : rest.length < cs.length := by
          rw [h] at before; rw [h₂] at between; simp at before between; omega
        match readValue depth rest with
        | none => none
        | some (value, ⟨left, h₃⟩) =>
          have within : (skip left).length ≤ left.length := length_skip_le left
          match h₄ : skip left with
          | '\x7d' :: after =>
            some ([(name, value)], ⟨after, by rw [h₄] at within; simp only [List.length_cons] at within; omega⟩)
          | ',' :: more =>
            have further : more.length < cs.length := by rw [h₄] at within; simp only [List.length_cons] at within; omega
            match readMembers depth more with
            | none => none
            | some (members, left) =>
              some ((name, value) :: members, ⟨left.1, Nat.lt_trans left.2 further⟩)
          | _ => none
      | _ => none
  | _ => none
termination_by (cs.length, 1)

end

/-- The deepest nesting of arrays and objects in a document. -/
def deepest : Nat := 127

/-- Reads a text that consists of one value of at most `depth` levels. -/
def parseWithin (depth : Nat) (text : String) : Option Json :=
  match readValue depth text.toList with
  | some (value, ⟨rest, _⟩) => if (skip rest).isEmpty then some value else none
  | none => none

/-- Reads a document. -/
def parse (text : String) : Option Json := parseWithin deepest text

end StreamFilter.Json
