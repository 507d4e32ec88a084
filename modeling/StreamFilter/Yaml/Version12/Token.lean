import StreamFilter.Yaml.Version12.Scalar
set_option autoImplicit false

/-!
# Tokens of YAML 1.2

A scan goes through the characters of a document from one token to the next.  It keeps
the indentations of the open blocks; a value that does not start on the line of its key
has to be indented by one column at least, which is an indentation without a block.  For
each open collection on a line the scan keeps the place where a key may have started.
-/

namespace StreamFilter.Yaml.Version12

/-! ## Lines -/

/-- Characters with the usual break for each of the ways to write it. -/
def usualBreaks : List Char → List Char
  | [] => []
  | '\r' :: '\n' :: cs => '\n' :: usualBreaks cs
  | '\r' :: cs => '\n' :: usualBreaks cs
  | c :: cs => c :: usualBreaks cs

/-! ## The state of a scan -/

/-- An indentation around the present one. -/
structure Level where
  indent : Int
  /-- Whether a block is indented against it, and not just a value. -/
  hasBlock : Bool
  deriving DecidableEq, Repr, Inhabited

/-- The state of a scan. -/
structure Scan where
  rest : List Char
  spot : Spot := {}
  tokens : Tokens := {}
  /-- The present indentation, negative for none. -/
  indent : Int := -1
  /-- The indentations around it. -/
  outer : List Level := []
  /-- The places where keys may have started, for each open collection on a line and
  around them. -/
  keys : List (Option PossibleKey) := [none]
  /-- Whether a key may start here. -/
  keyAllowed : Bool := true
  /-- Whether only blanks stand before in the line. -/
  lineStart : Bool := true
  /-- The only place at which a colon may stand directly in front of a value. -/
  adjacentAt : Nat := 0
  /-- Whether a table on a line has been opened since the last pair without braces. -/
  inTable : Bool := false
  /-- For each open list on a line, whether a pair without braces is open in it. -/
  pairs : List Bool := []
  deriving Repr, Inhabited

namespace Scan

/-- How many collections on a line are open. -/
def flowDepth (s : Scan) : Nat := s.keys.length - 1

/-- Whether a collection on a line is open. -/
def inFlow (s : Scan) : Bool := s.flowDepth != 0

/-- How many collections on a line may be open. -/
def deepestFlow : Nat := 255

/-- The state behind some characters of the line, not all of them blanks. -/
def forward (n : Nat) (s : Scan) : Scan :=
  { s with rest := s.rest.drop n, spot := s.spot.forward n, lineStart := false }

/-- The state with one more token. -/
def push (t : Token) (s : Scan) : Scan := { s with tokens := s.tokens.push t }

/-- The state with another word on whether a key may start. -/
def allowKey (allowed : Bool) (s : Scan) : Scan := { s with keyAllowed := allowed }

/-! ### Keys -/

/-- Gives up the key that may have started; it may not be required. -/
def dropKey (s : Scan) : Option Scan :=
  match s.keys with
  | some key :: keys => if key.required then none else some { s with keys := none :: keys }
  | _ => some s

/-- Notes that a key may start here. -/
def saveKey (s : Scan) : Scan :=
  if s.keyAllowed then
    let required := !s.inFlow && s.indent == s.spot.column && s.outer.head?.any (·.hasBlock)
    { s with keys := some ⟨s.tokens.count, s.spot, required⟩ :: s.keys.drop 1 }
  else s

/-- Whether a key that started somewhere cannot go on to here. -/
def isStale (spot : Spot) (key : PossibleKey) : Bool :=
  key.spot.line < spot.line || key.spot.index + longestKeyText < spot.index

/-- Gives up the keys that cannot go on to here.  In collections on a line keys may go on
over lines. -/
def dropStaleKeys (s : Scan) : Option Scan :=
  let gone := fun (key : Option PossibleKey) => !s.inFlow && key.any (isStale s.spot)
  if s.keys.any fun key => gone key && key.any (·.required) then none
  else some { s with keys := s.keys.map fun key => if gone key then none else key }

/-! ### Indentations -/

/-- Leaves the indentations deeper than a column, and closes their blocks. -/
def closeLevels (column : Int) (tokens : Tokens) : Int → List Level → Int × List Level × Tokens
  | indent, level :: outer =>
    if column < indent then
      closeLevels column (if level.hasBlock then tokens.push .blockEnd else tokens)
        level.indent outer
    else (indent, level :: outer, tokens)
  | indent, [] => (indent, [], tokens)

/-- Leaves the indentations deeper than a column, unless a collection on a line is
open. -/
def unroll (column : Int) (s : Scan) : Scan :=
  if s.inFlow then s
  else
    let (indent, outer, tokens) := closeLevels column s.tokens s.indent s.outer
    { s with indent, outer, tokens }

/-- The indentation without those that have no block. -/
def blockLevel : Int → List Level → Int × List Level
  | indent, level :: outer =>
    if level.hasBlock then (indent, level :: outer) else blockLevel level.indent outer
  | indent, [] => (indent, [])

/-- Leaves the indentations that have no block. -/
def unrollValues (s : Scan) : Scan :=
  let (indent, outer) := blockLevel s.indent s.outer
  { s with indent, outer }

/-- Indents a value by one column, unless it is in a collection on a line or already
indented. -/
def rollValue (s : Scan) : Scan :=
  if !s.inFlow && s.outer.head?.any (·.hasBlock) then
    { s with indent := s.indent + 1, outer := ⟨s.indent, false⟩ :: s.outer }
  else s

/-- Opens a block at a column in front of the token with a number, unless one is open
there.  It takes the place of an indentation without a block. -/
def roll (column : Nat) (number : Nat) (t : Token) (s : Scan) : Scan :=
  if s.inFlow then s
  else
    let s := match s.outer with
      | ⟨indent, false⟩ :: outer => if s.indent ≤ (column : Int) then { s with indent, outer } else s
      | _ => s
    if s.indent < (column : Int) then
      { s with
        indent := column, outer := ⟨s.indent, true⟩ :: s.outer,
        tokens := s.tokens.insertAt number t }
    else s

/-! ### Blanks and comments -/

/-- The state at another place. -/
def moved (s : Scan) (spot : Spot) (rest : List Char) (lineStart : Bool) : Scan :=
  { s with spot, rest, lineStart }

/-- Goes on to the next token.  In a block, a tab may not stand in the indentation unless
nothing else is in the line. -/
def skipGap (s : Scan) (keyAllowed lineStart : Bool) (rest : Rest) (spot : Spot) :
    List Char → Option Scan
  | [] => some ((s.allowKey keyAllowed).moved spot [] lineStart)
  | c :: cs =>
    if isBreak c then skipGap s (keyAllowed || !s.inFlow) true .any spot.newLine cs
    else if rest == .comment then skipGap s keyAllowed false .comment spot.next cs
    else if c == '#' then skipGap s keyAllowed false .comment spot.next cs
    else if isBlank c then
      let tab := c == '\t' && !s.outer.isEmpty && lineStart && spot.column < s.indent
      skipGap s keyAllowed lineStart (if tab then .blank else rest) spot.next cs
    else if rest == .blank then none
    else some ((s.allowKey keyAllowed).moved spot (c :: cs) lineStart)

/-- The state in front of the next token. -/
def skip (s : Scan) : Option Scan := s.skipGap s.keyAllowed s.lineStart .any s.spot s.rest

/-- The end of the blanks and the comment behind a token, where tabs are admitted or not.
Blanks have to stand in front of the comment. -/
def skipBlanks (s : Scan) (tabs : Bool) (tab space comment : Bool) (spot : Spot) :
    List Char → Option (Scan × Bool × Bool)
  | [] => some (s.moved spot [] (s.lineStart && !comment), tab, space)
  | c :: cs =>
    if comment && !isBreak c then skipBlanks s tabs tab space true spot.next cs
    else if c == ' ' then skipBlanks s tabs tab true false spot.next cs
    else if c == '\t' && tabs then skipBlanks s tabs true space false spot.next cs
    else if c == '#' then
      if tab || space then skipBlanks s tabs tab space true spot.next cs else none
    else some (s.moved spot (c :: cs) (s.lineStart && !comment), tab, space)

/-- The state behind blanks and a comment. -/
def skipToEnd (s : Scan) : Option Scan :=
  (s.skipBlanks true false false false s.spot s.rest).map (·.1)

/-- Whether the line or the document ends here. -/
def atLineEnd (s : Scan) : Bool := !s.rest.head?.any (!isBreak ·)

/-- Skips what may stand between a question mark and its key, which has to be something:
blanks, lines and comments, but no tabs. -/
def skipKeyGap (s : Scan) (keyAllowed lineStart found comment : Bool) (spot : Spot) :
    List Char → Option Scan
  | [] => if found then some ((s.allowKey keyAllowed).moved spot [] lineStart) else none
  | c :: cs =>
    if isBreak c then skipKeyGap s (keyAllowed || !s.inFlow) true true false spot.newLine cs
    else if comment || c == '#' then skipKeyGap s keyAllowed false found true spot.next cs
    else if c == ' ' then skipKeyGap s keyAllowed lineStart true false spot.next cs
    else if c == '\t' || !found then none
    else some ((s.allowKey keyAllowed).moved spot (c :: cs) lineStart)

/-! ### Directives and tags -/

/-- The number that digits spell, which are at most nine. -/
def versionNumber? (cs : List Char) : Option (Nat × List Char) :=
  let digits := cs.takeWhile fun c => '0' ≤ c && c ≤ '9'
  if digits.isEmpty || 9 < digits.length then none
  else (inBase? 10 digits).map fun n => (n, cs.drop digits.length)

/-- The characters of tags between angle brackets and in directives. -/
def isUriChar (c : Char) : Bool :=
  isNameChar c ||
    ['#', ';', '/', '?', ':', '@', '&', '=', '+', '$', ',', '.', '!', '~', '*', '\'', '(', ')', '[',
      ']', '%'].contains c

/-- The characters of tags elsewhere. -/
def isTagChar (c : Char) : Bool := isUriChar c && !isFlowMark c && c != '!'

/-- The handle of a tag: names between exclamation marks. -/
def tagHandle? : List Char → Option (List Char)
  | '!' :: cs =>
    let name := cs.takeWhile isNameChar
    match cs.drop name.length with
    | '!' :: _ => some ('!' :: name ++ ['!'])
    | _ => some ('!' :: name)
  | _ => none

/-- Whether characters are a handle and not just the start of a tag. -/
def isHandle (cs : List Char) : Bool := 1 < cs.length && cs.getLast? == some '!'

/-- The space of tags in a directive and the characters behind it. -/
def tagSpace? (cs : List Char) : Option (String × List Char) :=
  match cs with
  | c :: rest =>
    if c == '!' || isTagChar c then
      let space := if c == '%' then cs.takeWhile isUriChar else c :: rest.takeWhile isUriChar
      (tagName? space).map fun name => (name, cs.drop space.length)
    else none
  | [] => none

/-- A directive and how many characters it takes.  One of an unknown name has no
effect. -/
def directive? (cs : List Char) : Option (Token × Nat) := do
  let name := cs.takeWhile isNameChar
  let value := cs.drop name.length
  let start := value.dropWhile isBlank
  if name.isEmpty || !atGap value then none
  else if name = "YAML".toList then do
    let (major, rest) ← versionNumber? start
    match rest with
    | '.' :: rest =>
      let (minor, rest) ← versionNumber? rest
      return (.version major minor, cs.length - rest.length)
    | _ => none
  else if name = "TAG".toList then do
    let handle ← tagHandle? start
    let (space, rest) ← tagSpace? ((start.drop handle.length).dropWhile isBlank)
    if (isHandle handle || handle == ['!']) && atGap rest then
      return (.handle (String.ofList handle) space, cs.length - rest.length)
    else none
  else return (.handle "" "", (cs.takeWhile (!isBreak ·)).length)

/-- Reads a directive. -/
def directive (s : Scan) : Option Scan := do
  let s ← (s.unroll (-1)).dropKey
  let (token, length) ← directive? (s.rest.drop 1)
  let s ← (((s.allowKey false).forward (length + 1)).push token).skipToEnd
  match s.rest with
  | [] => return s
  | c :: cs => if isBreak c then return s.moved s.spot.newLine cs true else none

/-- A tag and how many characters it takes. -/
def tag? (cs : List Char) : Option (Token × Nat) :=
  match cs with
  | '!' :: '<' :: cs => do
    let name := cs.takeWhile isUriChar
    if (cs.drop name.length).head? != some '>' then none
    else return (.tag "" (← tagName? name), name.length + 3)
  | cs => do
    let handle ← tagHandle? cs
    let name := (cs.drop handle.length).takeWhile isTagChar
    let length := handle.length + name.length
    if isHandle handle then
      if name.isEmpty then none
      else return (.tag (String.ofList handle) (← tagName? name), length)
    else
      let name ← tagName? name
      let name := String.ofList (handle.drop 1) ++ name
      return (if name.isEmpty then .tag "" "!" else .tag "!" name, length)

/-- Reads a tag. -/
def tag (s : Scan) : Option Scan := do
  let s := s.saveKey.allowKey false
  let (token, length) ← tag? s.rest
  let s := (s.forward length).push token
  if atGap s.rest || (s.inFlow && s.rest.head?.any isFlowMark) then return s else none

/-- The characters of anchors. -/
def isAnchorChar (c : Char) : Bool :=
  !isBlank c && !isBreak c && !isFlowMark c && c.toNat != 0xFEFF

/-- Reads an anchor or an alias. -/
def reference (token : String → Token) (s : Scan) : Option Scan :=
  let s := s.saveKey.allowKey false
  let name := (s.rest.drop 1).takeWhile isAnchorChar
  if name.isEmpty then none
  else some ((s.forward (name.length + 1)).push (token (String.ofList name)))

/-! ### Collections -/

/-- Reads the mark in front of a document. -/
def documentStart (s : Scan) : Option Scan := do
  let s ← (s.unroll (-1)).dropKey
  return ((s.allowKey false).forward 3).push .documentStart

/-- Reads the mark behind a document, with nothing else in the line. -/
def documentEnd (s : Scan) : Option Scan := do
  let s ← (s.unroll (-1)).dropKey
  let s ← (((s.allowKey false).forward 3).push .documentEnd).skipToEnd
  if s.atLineEnd then return s else none

/-- Reads the start of a collection on a line. -/
def flowStart (t : Token) (s : Scan) : Option Scan := do
  let s := s.saveKey.rollValue
  if deepestFlow ≤ s.flowDepth then none
  let s := ({ s with keys := none :: s.keys }.allowKey true).forward 1
  let s := if t == .flowTableStart then { s with inTable := true }
    else { s with pairs := false :: s.pairs }
  return (← s.skipToEnd).push t

/-- Closes the pair without braces that is open in the innermost list. -/
def closePair (s : Scan) : Scan :=
  match s.pairs with
  | true :: pairs => { s with inTable := false, pairs := false :: pairs }.push .flowTableEnd
  | _ => s

/-- Reads the end of a collection on a line.  Inside another one, a colon may follow
directly. -/
def flowEnd (t : Token) (s : Scan) : Option Scan := do
  let s ← s.dropKey
  let s := (if s.inFlow then { s with keys := s.keys.drop 1 } else s).allowKey false
  let s := if t == .flowListEnd then
      let s := s.closePair
      { s with pairs := s.pairs.drop 1 }
    else s
  let s ← (s.forward 1).skipToEnd
  let s := if s.inFlow then { s with adjacentAt := s.spot.index } else s
  return s.push t

/-- Reads the comma of a collection on a line. -/
def flowEntry (s : Scan) : Option Scan := do
  let s ← s.dropKey
  let s ← ((s.allowKey true).closePair.forward 1).skipToEnd
  return s.push .flowEntry

/-- Reads the dash of an item. -/
def blockEntry (s : Scan) : Option Scan := do
  if s.inFlow || !s.keyAllowed then none
  let column := s.spot.column
  let s := (s.forward 1).roll column s.tokens.count .blockListStart
  let (s, tab, _) ← s.skipBlanks true false false false s.spot s.rest
  if tab && s.rest.head? == some '-' && atGap (s.rest.drop 1) then none
  let s := if s.rest.head?.any fun c => isBreak c || isFlowMark c then s.rollValue else s
  return ((← s.dropKey).allowKey true).push .blockEntry

/-- Reads the question mark of a key. -/
def explicitKey (s : Scan) : Option Scan := do
  if !s.inFlow && !s.keyAllowed then none
  let s := if s.inFlow then { s with inTable := true }
    else s.roll s.spot.column s.tokens.count .blockTableStart
  let s := ((← s.dropKey).allowKey !s.inFlow).forward 1
  let s ← s.skipKeyGap s.keyAllowed s.lineStart false false s.spot s.rest
  return s.push .key

/-- Reads the colon of a value.  If a key may have started before, it did.  In a list on a
line this starts a pair without braces, whose key stands on the line of the colon. -/
def value (s : Scan) : Option Scan := do
  let start := s.spot
  let pair := !s.pairs.isEmpty && !s.inTable
  let s := if pair then { s with pairs := true :: s.pairs.drop 1 } else s
  let s := s.forward 1
  let s ← if s.rest.head? == some '\t' then do
      let (s, _, space) ← s.skipBlanks true false false false s.spot s.rest
      if !space && s.rest.head?.any isNameChar then none else pure s
    else pure s
  match s.keys with
  | some key :: keys =>
    if pair && key.spot.line < start.line then none
    let tokens := s.tokens.insertAt key.number .key
    let tokens := if pair then tokens.insertAt key.number .flowTableStart else tokens
    let s := { s with keys := none :: keys, tokens }
    let s := (s.roll key.spot.column key.number .blockTableStart).rollValue
    return (s.allowKey false).push .value
  | _ =>
    let s := if pair then s.push .flowTableStart else s
    if !s.inFlow && !s.keyAllowed then none
    let s := (s.roll start.column s.tokens.count .blockTableStart).rollValue
    return (s.allowKey !s.inFlow).push .value

/-- Reads the colon of a value in a collection on a line where no gap follows.  A bracket
or a brace may follow only if the colon may stand directly in front of its value. -/
def adjacentValue (s : Scan) : Option Scan :=
  let opens := (s.rest.drop 1).head?.any fun c => c == '[' || c == '\x7b'
  if s.spot.index != s.adjacentAt && opens then none else s.value

/-! ### Scalars -/

/-- The state behind a scalar. -/
def afterScalar (style : Style) (r : Scanned) (s : Scan) : Scan :=
  (s.moved r.spot r.rest r.broken).push (.scalar style r.text)

/-- Reads a block scalar, whose lines may not start with a tab. -/
def blockScalar (literal : Bool) (s : Scan) : Option Scan := do
  let s := (s.saveKey.allowKey true).unrollValues
  let (chomping, increment, length) := readMark (s.rest.drop 1)
  let s ← (s.forward (length + 1)).skipToEnd
  if !s.atLineEnd then none
  let broken := !s.rest.isEmpty
  let s := if broken then s.moved s.spot.newLine (s.rest.drop 1) true else s
  if s.rest.head? == some '\t' then none
  let indent := if increment == 0 then none else some ((max s.indent 0).toNat + increment)
  let least := max (s.indent + 1).toNat (if 0 < s.indent then 1 else 0)
  let r ← readBlock literal chomping s.indent least indent 0 broken false false {} s.spot s.rest
  return s.afterScalar (if literal then .literal else .folded) r

/-- Whether these characters may follow a quoted scalar that started on the same line or
on another one. -/
def mayFollow (inFlow sameLine : Bool) : List Char → Bool
  | [] => true
  | c :: _ =>
    isBreak c || (inFlow && (c == ',' || c == '\x7d' || c == ']')) ||
      (c == ':' && (inFlow || sameLine))

/-- Reads a quoted scalar.  A colon may follow it directly. -/
def quotedScalar (single : Bool) (s : Scan) : Option Scan := do
  let s := s.saveKey.allowKey false
  let start := s.spot
  let r ← readQuoted isBreak single s.indent [] .none .none s.spot.next (s.rest.drop 1)
  let style : Style := if single then .single else .double
  let s ← (s.moved r.spot r.rest false).skipToEnd
  if !mayFollow s.inFlow (start.line == s.spot.line) s.rest then none
  let s ← s.skip
  return { s with adjacentAt := s.spot.index }.push (.scalar style r.text)

/-- Reads a plain scalar.  In a collection on a line it has to be indented deeper than the
block around it. -/
def plainScalar (s : Scan) : Option Scan := do
  let s := (s.saveKey.allowKey false).unrollValues
  let least := s.indent + 1
  if s.inFlow && s.spot.column < least then none
  let r ← readPlain s.inFlow least [] .none .any s.spot s.rest
  return (s.afterScalar .plain r).allowKey r.broken

/-! ### Documents -/

/-- Reads the next token, which starts here. -/
def token (s : Scan) : Option Scan :=
  match s.rest with
  | [] => none
  | c :: cs =>
    if s.spot.column == 0 && c == '%' then s.directive
    else if s.spot.column == 0 && isDocumentMark isBreak (c :: cs) then
      if c == '-' then s.documentStart else s.documentEnd
    else if s.spot.column < s.indent then none
    else if c == '[' then s.flowStart .flowListStart
    else if c == '\x7b' then s.flowStart .flowTableStart
    else if c == ']' then s.flowEnd .flowListEnd
    else if c == '\x7d' then s.flowEnd .flowTableEnd
    else if c == ',' then s.flowEntry
    else if c == '-' && atGap cs then s.blockEntry
    else if c == '?' && atGap cs then s.explicitKey
    else if c == ':' && atGap cs then s.value
    else if c == ':' && s.inFlow && (cs.head?.any isFlowMark || s.spot.index == s.adjacentAt) then
      s.adjacentValue
    else if c == '*' then s.reference .alias
    else if c == '&' then s.reference .anchor
    else if c == '!' then s.tag
    else if c == '|' && !s.inFlow then s.blockScalar true
    else if c == '>' && !s.inFlow then s.blockScalar false
    else if c == '\'' then s.quotedScalar true
    else if c == '"' then s.quotedScalar false
    else if c == '%' || c == '@' || c == '\x60' then none
    else s.plainScalar

/-- Reads the tokens from here on.  Each takes a character at least, so there is one step
for each character and one for the end, where no key may be missing. -/
def finish : Nat → Scan → Option (List Token)
  | 0, _ => none
  | steps + 1, s => do
    let s ← (← s.skip).dropStaleKeys
    let s := s.unroll s.spot.column
    if s.rest.isEmpty then
      if s.keys.any fun key => key.any (·.required) then none
      else return (s.unroll (-1)).tokens.toList
    else (← s.token).finish steps
termination_by structural steps => steps

end Scan

/-- The tokens of a document, which ends with its first null character. -/
def tokens? (text : String) : Option (List Token) :=
  let cs := text.toList.takeWhile (·.toNat != 0)
  ({ rest := usualBreaks cs } : Scan).finish (cs.length + 1)

end StreamFilter.Yaml.Version12
