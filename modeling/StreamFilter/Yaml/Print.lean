import StreamFilter.Yaml.Version11.Value
set_option autoImplicit false

/-!
# Writing YAML scalars

A text is written plainly where that reads back as the same text.  A text that
would read as something else stands in single quotes, a text of several lines
becomes a literal block, and a text with characters that cannot stand in a line by
themselves stands in double quotes with escapes.
-/

namespace StreamFilter.Yaml

/-- Characters that are written as they are. -/
def isPrintable (c : Char) : Bool :=
  let n := c.toNat
  n == 0x0A || (0x20 ≤ n && n ≤ 0x7E) || (0xA0 ≤ n && n ≤ 0xFFFD && n != 0xFEFF) || 0x10000 ≤ n

/-- Characters that end a line. -/
def isLineEnd (c : Char) : Bool :=
  c == '\n' || c == '\r' || c.toNat == 0x85 || c.toNat == 0x2028 || c.toNat == 0x2029

/-- Characters at which a word ends. -/
def isGap (c : Char) : Bool := isBlank c || isLineEnd c

/-- Whether a word ends in front of these characters. -/
def endsWord (cs : List Char) : Bool := gapFollows isLineEnd cs

/-- Whether some character of the first kind is followed by one of the second. -/
def hasPair (first second : Char → Bool) (cs : List Char) : Bool :=
  (cs.zip (cs.drop 1)).any fun (a, b) => first a && second b

/-- Whether a colon stands at the end of a word. -/
def hasKeyColon : List Char → Bool
  | [] => false
  | c :: cs => (c == ':' && endsWord cs) || hasKeyColon cs

/-- Whether the start of a text has a meaning of its own. -/
def startsWithMark : List Char → Bool
  | [] => false
  | c :: cs =>
    ['#', ',', '[', ']', '\x7b', '\x7d', '&', '*', '!', '|', '>', '\'', '"', '%', '@',
      '\x60'].contains c ||
    ((c == '?' || c == '-') && endsWord cs) ||
    ['-', '-', '-'].isPrefixOf (c :: cs) || ['.', '.', '.'].isPrefixOf (c :: cs)

/-- Whether a text holds what no quotes but double ones admit. -/
def needsDouble (cs : List Char) : Bool := !cs.all isPrintable || hasPair (· == ' ') isLineEnd cs

/-- Whether a text may stand without quotes. -/
def admitsPlain (cs : List Char) : Bool :=
  !needsDouble cs && !cs.any isLineEnd && cs.head? != some ' ' && cs.getLast? != some ' ' &&
    !startsWithMark cs && !hasKeyColon cs && !hasPair isGap (· == '#') cs

/-- Whether a text may stand in single quotes. -/
def admitsSingle (cs : List Char) : Bool := !needsDouble cs && !hasPair isLineEnd (· == ' ') cs

/-- Whether a text may be a literal block. -/
def admitsLiteral (cs : List Char) : Bool := !needsDouble cs && cs.getLast? != some ' '

/-- Whether plain text would not read as a text. -/
def readsOtherwise (text : String) : Bool :=
  Version11.isZeroPadded text.toList ||
    match Version11.resolve text with
    | .value (.text _) => false
    | _ => true

/-- The way in which a text is written. -/
def styleOf (text : String) : Style :=
  let cs := text.toList
  if cs.contains '\n' then
    if admitsLiteral cs then .literal else .double
  else if !readsOtherwise text && admitsPlain cs then .plain
  else if admitsSingle cs then .single
  else .double

/-- Text in single quotes: quotes are doubled, and a line after a break is
indented, also if nothing is in it. -/
def singleChars (indent : Nat) (afterBreak : Bool) : List Char → List Char
  | [] => if afterBreak then List.replicate indent ' ' else []
  | c :: cs =>
    (if afterBreak && !isLineEnd c then List.replicate indent ' ' else []) ++
      (if c == '\'' then ['\'', '\''] else [c]) ++ singleChars indent (isLineEnd c) cs

/-- The letters of escapes. -/
def escapeLetters : List (Nat × Char) :=
  [(0x00, '0'), (0x07, 'a'), (0x08, 'b'), (0x09, 't'), (0x0A, 'n'), (0x0B, 'v'), (0x0C, 'f'),
   (0x0D, 'r'), (0x1B, 'e'), (0x22, '"'), (0x5C, '\\'), (0x85, 'N'), (0x2028, 'L'),
   (0x2029, 'P')]

/-- A number in a fixed count of hexadecimal digits. -/
def hexDigits (count n : Nat) : List Char :=
  let digits := (Nat.toDigits 16 n).map Char.toUpper
  List.replicate (count - digits.length) '0' ++ digits

/-- A character in double quotes. -/
def doubleChar (c : Char) : List Char :=
  let n := c.toNat
  if isPrintable c && !isLineEnd c && c != '"' && c != '\\' then [c]
  else
    match escapeLetters.lookup n with
    | some letter => ['\\', letter]
    | none =>
      if n ≤ 0xFF then ['\\', 'x'] ++ hexDigits 2 n
      else if n ≤ 0xFFFF then ['\\', 'u'] ++ hexDigits 4 n
      else ['\\', 'U'] ++ hexDigits 8 n

/-- The sign for what becomes of the line ends at the end of a literal block: they are
kept if there are several or nothing else. -/
def chompSign (cs : List Char) : String :=
  match cs.reverse with
  | [c] => if isLineEnd c then "+" else "-"
  | c :: d :: _ => if isLineEnd c then (if isLineEnd d then "+" else "") else "-"
  | [] => "-"

/-- The mark in front of a literal block: whether its first line needs a hint to its
indentation, and what becomes of the line ends at its end. -/
def literalMark (cs : List Char) : String :=
  let hint := if cs.head?.any fun c => c == ' ' || isLineEnd c then "2" else ""
  "|" ++ hint ++ chompSign cs

/-- Lines of a literal block, each indented unless it is empty. -/
def indentLines (indent : Nat) (fresh : Bool) : List Char → List Char
  | [] => []
  | c :: cs =>
    (if fresh && !isLineEnd c then List.replicate indent ' ' else []) ++
      c :: indentLines indent (isLineEnd c) cs

/-- A text as a scalar and the line end behind it.  The lines of a block have an
indentation. -/
def scalarLine (indent : Nat) (text : String) : String :=
  let cs := text.toList
  match styleOf text with
  | .plain => text ++ "\n"
  | .single => "'" ++ String.ofList (singleChars indent false cs) ++ "'\n"
  | .double => "\"" ++ String.ofList (cs.flatMap doubleChar) ++ "\"\n"
  | .literal | .folded =>
    literalMark cs ++ "\n" ++ String.ofList (indentLines indent true cs) ++
      if cs.getLast?.any isLineEnd then "" else "\n"

/-- The longest key, in bytes, that stands in front of its colon. -/
def longestKey : Nat := 128

/-- A key at an indentation, up to where its value starts. -/
def keyText (indent : Nat) (key : String) : String :=
  let blanks := String.ofList (List.replicate indent ' ')
  if key.utf8ByteSize ≤ longestKey && !key.toList.any isLineEnd then
    blanks ++ String.ofList (dropLineEnd (scalarLine (indent + 2) key).toList) ++ ": "
  else blanks ++ "? " ++ scalarLine (indent + 2) key ++ blanks ++ ": "
where
  /-- Characters without the line end they end with. -/
  dropLineEnd (cs : List Char) : List Char := cs.take (cs.length - 1)

end StreamFilter.Yaml
