import StreamFilter.Yaml.Version11.Scalar
set_option autoImplicit false

/-!
# Tokens of YAML 1.1

A scan goes through the characters of a document from one token to the next.  It keeps
the indentations of the open blocks, and for each open collection on a line the place
where a key may have started.  A key has to stand on one line and may not be long.
-/

namespace StreamFilter.Yaml.Version11

/-! ## Lines -/

/-- Whether a document may hold a character. -/
def isAllowed (c : Char) : Bool :=
  let n := c.toNat
  n == 0x09 || n == 0x0A || n == 0x0D || (0x20 ≤ n && n ≤ 0x7E) || n == 0x85 ||
    (0xA0 ≤ n && n ≤ 0xFFFD) || 0x10000 ≤ n

/-- Characters with the usual break for each of the ways to write it. -/
def usualBreaks : List Char → List Char
  | [] => []
  | '\r' :: '\n' :: cs => '\n' :: usualBreaks cs
  | c :: cs => (if c == '\r' || c.toNat == 0x85 then '\n' else c) :: usualBreaks cs

/-! ## The state of a scan -/

/-- The state of a scan. -/
structure Scan where
  rest : List Char
  spot : Spot := {}
  tokens : Tokens := {}
  /-- The indentation of the innermost block, negative for none. -/
  indent : Int := -1
  /-- The indentations around it. -/
  outer : List Int := []
  /-- The places where keys may have started, for each open collection on a line and
  around them. -/
  keys : List (Option PossibleKey) := [none]
  /-- Whether a key may start here. -/
  keyAllowed : Bool := true
  deriving Repr, Inhabited

namespace Scan

/-- How many collections on a line are open. -/
def flowDepth (s : Scan) : Nat := s.keys.length - 1

/-- Whether a collection on a line is open. -/
def inFlow (s : Scan) : Bool := s.flowDepth != 0

/-- The state behind some characters of the line. -/
def forward (n : Nat) (s : Scan) : Scan :=
  { s with rest := s.rest.drop n, spot := s.spot.forward n }

/-- The state with one more token. -/
def push (t : Token) (s : Scan) : Scan := { s with tokens := s.tokens.push t }

/-- The state behind some characters of the line that are a token. -/
def take (n : Nat) (t : Token) (s : Scan) : Scan := (s.forward n).push t

/-- The state with another word on whether a key may start. -/
def allowKey (allowed : Bool) (s : Scan) : Scan := { s with keyAllowed := allowed }

/-- The state behind a scalar. -/
def afterScalar (style : Style) (r : Scanned) (s : Scan) : Scan :=
  { s with
    rest := r.rest, spot := r.spot, keyAllowed := r.broken,
    tokens := s.tokens.push (.scalar style r.text) }

/-! ### Keys -/

/-- Gives up the key that may have started; it may not be required. -/
def dropKey (s : Scan) : Option Scan :=
  match s.keys with
  | some key :: keys => if key.required then none else some { s with keys := none :: keys }
  | _ => some s

/-- Notes that a key may start here. -/
def saveKey (s : Scan) : Option Scan :=
  if s.keyAllowed then do
    let s ← s.dropKey
    let key : PossibleKey :=
      ⟨s.tokens.count, s.spot, !s.inFlow && s.indent == s.spot.column⟩
    return { s with keys := some key :: s.keys.drop 1 }
  else some s

/-- Whether a key that started somewhere cannot go on to here. -/
def isStale (spot : Spot) (key : PossibleKey) : Bool :=
  key.spot.line < spot.line || key.spot.index + longestKeyText < spot.index

/-- Gives up the keys that cannot go on to here. -/
def dropStaleKeys (s : Scan) : Option Scan :=
  let gone := fun (key : Option PossibleKey) => key.any (isStale s.spot)
  if s.keys.any fun key => gone key && key.any (·.required) then none
  else some { s with keys := s.keys.map fun key => if gone key then none else key }

/-! ### Blocks -/

/-- Closes the blocks that are indented deeper than a column. -/
def closeBlocks (column : Int) (tokens : Tokens) : Int → List Int → Int × List Int × Tokens
  | indent, around :: outer =>
    if column < indent then closeBlocks column (tokens.push .blockEnd) around outer
    else (indent, around :: outer, tokens)
  | indent, [] => (indent, [], tokens)

/-- Closes the blocks that are indented deeper than a column, unless a collection on a
line is open. -/
def unroll (column : Int) (s : Scan) : Scan :=
  if s.inFlow then s
  else
    let (indent, outer, tokens) := closeBlocks column s.tokens s.indent s.outer
    { s with indent, outer, tokens }

/-- Opens a block at a column in front of the token with a number, unless one is open
there. -/
def roll (column : Nat) (number : Nat) (t : Token) (s : Scan) : Scan :=
  if s.inFlow || (column : Int) ≤ s.indent then s
  else
    { s with
      indent := column, outer := s.indent :: s.outer, tokens := s.tokens.insertAt number t }

/-- Opens a block here. -/
def rollHere (t : Token) (s : Scan) : Scan := s.roll s.spot.column s.tokens.count t

/-! ### Blanks and comments -/

/-- Goes on to the next token.  Tabs may stand where no key may start, and a line break
outside of collections on a line lets a key start. -/
def skipGap (inFlow keyAllowed comment : Bool) (spot : Spot) :
    List Char → Bool × Spot × List Char
  | [] => (keyAllowed, spot, [])
  | c :: cs =>
    if isBreak c then skipGap inFlow (keyAllowed || !inFlow) false spot.newLine cs
    else if comment then skipGap inFlow keyAllowed true spot.next cs
    else if c == ' ' || (c == '\t' && (inFlow || !keyAllowed)) ||
        (c.toNat == 0xFEFF && spot.column == 0) then
      skipGap inFlow keyAllowed false spot.next cs
    else if c == '#' then skipGap inFlow keyAllowed true spot.next cs
    else (keyAllowed, spot, c :: cs)

/-- The state in front of the next token. -/
def skip (s : Scan) : Scan :=
  let (keyAllowed, spot, rest) := skipGap s.inFlow s.keyAllowed false s.spot s.rest
  { s with keyAllowed, spot, rest }

/-- Skips blanks and a comment up to the end of the line, and the line break. -/
def skipLine? (s : Scan) : Option Scan :=
  let s := s.forward (s.rest.takeWhile isBlank).length
  let s := match s.rest with
    | '#' :: _ => s.forward (s.rest.takeWhile (!isBreak ·)).length
    | _ => s
  match s.rest with
  | [] => some s
  | c :: cs => if isBreak c then some { s with rest := cs, spot := s.spot.newLine } else none

/-! ### Directives -/

/-- The number that digits spell, which are at most nine. -/
def versionNumber? (cs : List Char) : Option (Nat × List Char) :=
  let digits := cs.takeWhile fun c => '0' ≤ c && c ≤ '9'
  if digits.isEmpty || 9 < digits.length then none
  else (inBase? 10 digits).map fun n => (n, cs.drop digits.length)

/-- The characters of tags.  Flow marks are admitted only between angle brackets and in
directives. -/
def isTagChar (anywhere : Bool) (c : Char) : Bool :=
  isNameChar c ||
    [';', '/', '?', ':', '@', '&', '=', '+', '$', '.', '%', '!', '~', '*', '\'', '(', ')'].contains c ||
    (anywhere && [',', '[', ']'].contains c)

/-- The handle of a tag: names between exclamation marks. -/
def tagHandle? : List Char → Option (List Char)
  | '!' :: cs =>
    let name := cs.takeWhile isNameChar
    match cs.drop name.length with
    | '!' :: _ => some ('!' :: name ++ ['!'])
    | _ => some ('!' :: name)
  | _ => none

/-- Whether characters are a handle and not just the start of a tag. -/
def isHandle (cs : List Char) : Bool := 1 < cs.length && cs.getLast? == some '!'

/-- A directive and how many characters it takes. -/
def directive? (cs : List Char) : Option (Token × Nat) := do
  let name := cs.takeWhile isNameChar
  let value := cs.drop name.length
  let start := value.dropWhile isBlank
  if !atGap value then none
  else if name = "YAML".toList then do
    let (major, rest) ← versionNumber? start
    match rest with
    | '.' :: rest =>
      let (minor, rest) ← versionNumber? rest
      return (.version major minor, cs.length - rest.length)
    | _ => none
  else if name = "TAG".toList then do
    let handle ← tagHandle? start
    let space := start.drop handle.length
    let uri := (space.dropWhile isBlank).takeWhile (isTagChar true)
    let rest := (space.dropWhile isBlank).drop uri.length
    if (isHandle handle || handle == ['!']) && (space.head?.any isBlank) && !uri.isEmpty &&
        atGap rest then
      return (.handle (String.ofList handle) (← tagName? uri), cs.length - rest.length)
    else none
  else none

/-! ### Single tokens -/

/-- Reads a directive. -/
def directive (s : Scan) : Option Scan := do
  let s ← (s.unroll (-1)).dropKey
  let (token, length) ← directive? (s.rest.drop 1)
  ((s.allowKey false).take (length + 1) token).skipLine?

/-- Reads the mark in front of a document or behind it. -/
def documentMark (t : Token) (s : Scan) : Option Scan := do
  let s ← (s.unroll (-1)).dropKey
  return (s.allowKey false).take 3 t

/-- Reads the start of a collection on a line. -/
def flowStart (t : Token) (s : Scan) : Option Scan := do
  let s ← s.saveKey
  return ({ s with keys := none :: s.keys }.allowKey true).take 1 t

/-- Reads the end of a collection on a line. -/
def flowEnd (t : Token) (s : Scan) : Option Scan := do
  let s ← s.dropKey
  let s := if s.inFlow then { s with keys := s.keys.drop 1 } else s
  return (s.allowKey false).take 1 t

/-- Reads the comma of a collection on a line. -/
def flowEntry (s : Scan) : Option Scan := do
  let s ← s.dropKey
  return (s.allowKey true).take 1 .flowEntry

/-- Reads the dash of an item. -/
def blockEntry (s : Scan) : Option Scan := do
  if !s.inFlow && !s.keyAllowed then none
  let s ← (s.rollHere .blockListStart).dropKey
  return (s.allowKey true).take 1 .blockEntry

/-- Reads the question mark of a key. -/
def explicitKey (s : Scan) : Option Scan := do
  if !s.inFlow && !s.keyAllowed then none
  let s ← (s.rollHere .blockTableStart).dropKey
  return (s.allowKey !s.inFlow).take 1 .key

/-- Reads the colon of a value.  If a key may have started before, it did. -/
def value (s : Scan) : Option Scan :=
  match s.keys with
  | some key :: keys =>
    let s := { s with keys := none :: keys, tokens := s.tokens.insertAt key.number .key }
    some (((s.roll key.spot.column key.number .blockTableStart).allowKey false).take 1 .value)
  | _ =>
    if !s.inFlow && !s.keyAllowed then none
    else some (((s.rollHere .blockTableStart).allowKey !s.inFlow).take 1 .value)

/-- Reads an anchor or an alias. -/
def reference (token : String → Token) (s : Scan) : Option Scan := do
  let s ← s.saveKey
  let name := (s.rest.drop 1).takeWhile isNameChar
  let rest := s.rest.drop (name.length + 1)
  let ends := atGap rest ||
    rest.head?.any fun c => ['?', ':', ',', ']', '\x7d', '%', '@', '\x60'].contains c
  if name.isEmpty || !ends then none
  else return (s.allowKey false).take (name.length + 1) (token (String.ofList name))

/-- A tag and how many characters it takes. -/
def tag? (cs : List Char) : Option (Token × Nat) :=
  match cs with
  | '!' :: '<' :: cs => do
    let name := cs.takeWhile (isTagChar true)
    if name.isEmpty || (cs.drop name.length).head? != some '>' then none
    else return (.tag "" (← tagName? name), name.length + 3)
  | cs => do
    let handle ← tagHandle? cs
    let name := (cs.drop handle.length).takeWhile (isTagChar false)
    let length := handle.length + name.length
    if isHandle handle then
      if name.isEmpty then none
      else return (.tag (String.ofList handle) (← tagName? name), length)
    else
      let name ← tagName? name
      let name := String.ofList (handle.drop 1) ++ name
      return (if name.isEmpty then .tag "" "!" else .tag "!" name, length)

/-- Reads a tag. -/
def tag (s : Scan) : Option Scan := do
  let s ← s.saveKey
  let (token, length) ← tag? s.rest
  let rest := s.rest.drop length
  if atGap rest || (s.inFlow && rest.head? == some ',') then
    return (s.allowKey false).take length token
  else none

/-- Reads a block scalar. -/
def blockScalar (literal : Bool) (s : Scan) : Option Scan := do
  let s ← s.dropKey
  let (chomping, increment, length) := readMark (s.rest.drop 1)
  let s ← (s.forward (length + 1)).skipLine?
  let indent := if increment == 0 then 0 else (max s.indent 0).toNat + increment
  let r ← readBlock literal chomping (max (s.indent + 1) 1).toNat indent 0 false {} s.spot s.rest
  return s.afterScalar (if literal then .literal else .folded) r

/-- Reads a quoted scalar. -/
def quotedScalar (single : Bool) (s : Scan) : Option Scan := do
  let s ← s.saveKey
  let r ← readQuoted isBreak single (-1) [] .none .none s.spot.next (s.rest.drop 1)
  return s.afterScalar (if single then .single else .double) r

/-- Reads a plain scalar. -/
def plainScalar (s : Scan) : Option Scan := do
  let s ← s.saveKey
  let r ← readPlain s.inFlow (s.indent + 1) [] .none s.spot s.rest
  return s.afterScalar .plain r

/-- The characters with which no plain scalar starts. -/
def isIndicator (c : Char) : Bool :=
  ['-', '?', ':', ',', '[', ']', '\x7b', '\x7d', '#', '&', '*', '!', '|', '>', '\'', '"', '%',
    '@', '\x60'].contains c

/-- Whether a plain scalar starts with these characters. -/
def startsPlain (inFlow : Bool) : List Char → Bool
  | [] => false
  | c :: cs =>
    !(isBlank c || isIndicator c) ||
      (c == '-' && !(cs.head?.any isBlank)) ||
      (!inFlow && (c == '?' || c == ':') && !atGap cs)

/-- Reads the next token, which starts here. -/
def token (s : Scan) : Option Scan :=
  match s.rest with
  | [] => none
  | c :: cs =>
    if s.spot.column == 0 && c == '%' then s.directive
    else if s.spot.column == 0 && isDocumentMark isBreak (c :: cs) then
      s.documentMark (if c == '-' then .documentStart else .documentEnd)
    else if c == '[' then s.flowStart .flowListStart
    else if c == '\x7b' then s.flowStart .flowTableStart
    else if c == ']' then s.flowEnd .flowListEnd
    else if c == '\x7d' then s.flowEnd .flowTableEnd
    else if c == ',' then s.flowEntry
    else if c == '-' && atGap cs then s.blockEntry
    else if c == '?' && (s.inFlow || atGap cs) then s.explicitKey
    else if c == ':' && (s.inFlow || atGap cs) then s.value
    else if c == '*' then s.reference .alias
    else if c == '&' then s.reference .anchor
    else if c == '!' then s.tag
    else if c == '|' && !s.inFlow then s.blockScalar true
    else if c == '>' && !s.inFlow then s.blockScalar false
    else if c == '\'' then s.quotedScalar true
    else if c == '"' then s.quotedScalar false
    else if startsPlain s.inFlow (c :: cs) then s.plainScalar
    else none

/-- Reads the tokens from here on.  Each takes a character at least, so there is one step
for each character and one for the end. -/
def finish : Nat → Scan → Option (List Token)
  | 0, _ => none
  | steps + 1, s => do
    let s ← s.skip.dropStaleKeys
    let s := s.unroll s.spot.column
    if s.rest.isEmpty then
      let s ← (s.unroll (-1)).dropKey
      return s.tokens.toList
    else (← s.token).finish steps
termination_by structural steps => steps

end Scan

/-- The tokens of a document. -/
def tokens? (text : String) : Option (List Token) :=
  let cs := text.toList
  if cs.all isAllowed then
    ({ rest := usualBreaks cs } : Scan).finish (cs.length + 1)
  else none

end StreamFilter.Yaml.Version11
