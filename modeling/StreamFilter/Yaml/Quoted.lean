import StreamFilter.Yaml.Token
set_option autoImplicit false

/-!
# Quoted scalars

Between quotes, blanks around a line break are dropped and a single break reads as a
blank; each further break is kept.  In double quotes a backslash starts an escape, and
one in front of a line break hides it; the closing quote may stand right behind that
break.
-/

namespace StreamFilter.Yaml

/-! ## Gaps between words -/

/-- What stands between two words of a scalar.  Characters come with the last in
front. -/
inductive Gap where
  | none
  | blanks (read : List Char)
  /-- Line breaks; the first counts unless it is hidden. -/
  | breaks (first : Option Char) (more : List Char)
  deriving DecidableEq, Repr, Inhabited

namespace Gap

/-- A gap with one more blank, which counts only in a gap without breaks. -/
def blank (c : Char) : Gap → Gap
  | none => blanks [c]
  | blanks read => blanks (c :: read)
  | breaks first more => breaks first more

/-- A gap with one more line break, the first of which makes blanks void. -/
def lineBreak (c : Char) : Gap → Gap
  | breaks first more => breaks first (c :: more)
  | _ => breaks (some c) []

/-- Whether a gap has a line break. -/
def isBroken : Gap → Bool
  | breaks .. => true
  | _ => false

/-- The characters that a gap stands for, the last in front.  The usual line break reads
as a blank or as the breaks behind it; others are kept. -/
def reversed : Gap → List Char
  | none => []
  | blanks read => read
  | breaks .none more => more
  | breaks (some c) more =>
    if c ≠ '\n' then more ++ [c] else if more.isEmpty then [' '] else more

end Gap

/-! ## Escapes -/

/-- An escape that has been begun. -/
inductive Escape where
  | none
  /-- Behind the backslash. -/
  | start
  /-- Behind some digits of a code, of which some are left. -/
  | code (left value : Nat)
  deriving DecidableEq, Repr, Inhabited

/-- The characters with an escape of one letter. -/
def letterEscapes : List (Char × Nat) :=
  [('0', 0x00), ('a', 0x07), ('b', 0x08), ('t', 0x09), ('\t', 0x09), ('n', 0x0A), ('v', 0x0B),
   ('f', 0x0C), ('r', 0x0D), ('e', 0x1B), (' ', 0x20), ('"', 0x22), ('/', 0x2F), ('\\', 0x5C),
   ('N', 0x85), ('_', 0xA0), ('L', 0x2028), ('P', 0x2029)]

/-- The letters of escapes with a code, and the number of its digits. -/
def codeLetters : List (Char × Nat) := [('x', 2), ('u', 4), ('U', 8)]

/-- The character with a code. -/
def charOf? (n : Nat) : Option Char :=
  if (0xD800 ≤ n ∧ n ≤ 0xDFFF) ∨ 0x10FFFF < n then none else some (Char.ofNat n)

/-! ## Scalars -/

/-- Reads the rest of a quoted scalar.  The text comes with the last character in front,
and `least` is the least column at which a further line may start. -/
def readQuoted (isBreak : Char → Bool) (single : Bool) (least : Int) (text : List Char)
    (gap : Gap) (escape : Escape) (spot : Spot) : List Char → Option Scanned
  | [] => none
  | c :: cs =>
    match escape with
    | .start =>
      if isBreak c then
        match cs with
        | '"' :: more => some ⟨String.ofList text.reverse, spot.newLine.next, more, false⟩
        | _ => readQuoted isBreak single least text (.breaks none []) .none spot.newLine cs
      else
        match letterEscapes.lookup c, codeLetters.lookup c with
        | some n, _ =>
          readQuoted isBreak single least (Char.ofNat n :: text) .none .none spot.next cs
        | none, some count =>
          readQuoted isBreak single least text .none (.code count 0) spot.next cs
        | none, none => none
    | .code left value =>
      match digitOf? 16 c with
      | none => none
      | some digit =>
        if left ≤ 1 then
          match charOf? (value * 16 + digit) with
          | some x => readQuoted isBreak single least (x :: text) .none .none spot.next cs
          | none => none
        else
          readQuoted isBreak single least text .none (.code (left - 1) (value * 16 + digit))
            spot.next cs
    | .none =>
      if isBlank c then
        if gap.isBroken && c == '\t' && spot.column < least then none
        else readQuoted isBreak single least text (gap.blank c) .none spot.next cs
      else if isBreak c then
        readQuoted isBreak single least text (gap.lineBreak c) .none spot.newLine cs
      else if gap.isBroken &&
          (spot.column < least || (spot.column == 0 && isDocumentMark isBreak (c :: cs))) then
        none
      else if single && c == '\'' then
        match cs with
        | '\'' :: more =>
          readQuoted isBreak single least ('\'' :: (gap.reversed ++ text)) .none .none
            (spot.forward 2) more
        | _ => some ⟨String.ofList (gap.reversed ++ text).reverse, spot.next, cs, false⟩
      else if !single && c == '"' then
        some ⟨String.ofList (gap.reversed ++ text).reverse, spot.next, cs, false⟩
      else if !single && c == '\\' then
        readQuoted isBreak single least (gap.reversed ++ text) .none .start spot.next cs
      else readQuoted isBreak single least (c :: (gap.reversed ++ text)) .none .none spot.next cs

end StreamFilter.Yaml
