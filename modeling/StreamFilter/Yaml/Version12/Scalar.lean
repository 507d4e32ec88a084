import StreamFilter.Yaml.Block
import StreamFilter.Yaml.Quoted
set_option autoImplicit false

/-!
# Plain and block scalars of YAML 1.2

A plain scalar goes on over lines that are indented deeper than the block around it.  A
line that starts with a tab counts only if nothing else is in it.  A block scalar whose
last line has no line break reads as if it had one.
-/

namespace StreamFilter.Yaml.Version12

/-- Characters that end a line. -/
def isBreak (c : Char) : Bool := c == '\n'

/-- Whether characters start with a gap or are none. -/
def atGap (cs : List Char) : Bool := gapFollows isBreak cs

/-! ## Lines without content -/

/-- What may follow up to the end of a line. -/
inductive Rest where
  /-- Anything. -/
  | any
  /-- Blanks or a comment. -/
  | blank
  /-- The rest of a comment. -/
  | comment
  deriving DecidableEq, Repr, Inhabited

/-! ## Plain scalars -/

/-- Whether a plain scalar goes on with these characters. -/
def goesOn (flow : Bool) : List Char → Bool
  | [] => false
  | c :: cs =>
    !((c == ':' && (atGap cs || (flow && cs.head?.any isFlowMark))) || (flow && isFlowMark c))

/-- Reads a plain scalar.  Outside of collections on a line, a further line has to start
at column `least`.  In such a collection no word starts with a dash in front of a flow
mark. -/
def readPlain (flow : Bool) (least : Int) (text : List Char) (gap : Gap) (rest : Rest)
    (spot : Spot) : List Char → Option Scanned
  | [] => some ⟨String.ofList text.reverse, spot, [], gap.isBroken⟩
  | c :: cs =>
    if isBreak c then readPlain flow least text (gap.lineBreak c) .any spot.newLine cs
    else if rest == .comment then readPlain flow least text gap .comment spot.next cs
    else if isBlank c then
      let rest := if gap.isBroken && c == '\t' && spot.column < least then .blank else rest
      readPlain flow least text (gap.blank c) rest spot.next cs
    else if rest == .blank then
      if c == '#' then readPlain flow least text gap .comment spot.next cs else none
    else
      let ended := gap != .none &&
        ((!flow && spot.column < least) || c == '#' ||
          (spot.column == 0 && isDocumentMark isBreak (c :: cs)))
      let dash := (gap != .none || text.isEmpty) && flow && c == '-' && cs.head?.any isFlowMark
      if ended then some ⟨String.ofList text.reverse, spot, c :: cs, gap.isBroken⟩
      else if dash then none
      else if goesOn flow (c :: cs) then
        readPlain flow least (c :: (gap.reversed ++ text)) .none .any spot.next cs
      else some ⟨String.ofList text.reverse, spot, c :: cs, gap.isBroken⟩

/-! ## Block scalars -/

/-- The text of a block scalar that ends at a column.  At the end of the document the
last line has a break, whether it is written or not. -/
def blockText (chomping : Chomping) (atEnd : Bool) (column indent : Nat) (b : Block) : String :=
  if chomping = .strip then String.ofList b.text.reverse
  else
    let added := if atEnd && max indent 1 ≤ column then ['\n'] else []
    let kept := if chomping = .keep then b.emptyLines else []
    String.ofList (kept ++ added ++ b.lineEnd.toList ++ b.text).reverse

/-- The text of a block scalar without lines at the end of the document: a break behind
its mark counts unless others do. -/
def bareText (chomping : Chomping) (broken : Bool) (b : Block) : String :=
  if chomping = .strip || !broken then ""
  else if chomping = .keep && !b.emptyLines.isEmpty then String.ofList b.emptyLines
  else "\n"

/-- Reads the lines of a block scalar in a block of indentation `around`.  The scalar's
own indentation is not given as long as it is not known: then it is that of the deepest
line so far, but at least `least`.  Its first line may not stand between the two. -/
def readBlock (literal : Bool) (chomping : Chomping) (around : Int) (least : Nat)
    (indent : Option Nat) (deepest : Nat) (broken started inLine : Bool) (block : Block)
    (spot : Spot) : List Char → Option Scanned
  | [] =>
    let text := if started then blockText chomping true spot.column (indent.getD 0) block
      else bareText chomping broken block
    some ⟨text, spot, [], true⟩
  | c :: cs =>
    if inLine then
      if isBreak c then
        readBlock literal chomping around least indent 0 broken true false
          { block with lineEnd := some c } spot.newLine cs
      else
        readBlock literal chomping around least indent 0 broken true true
          { block with text := c :: block.text } spot.next cs
    else if c == ' ' && indent.all (spot.column < ·) then
      readBlock literal chomping around least indent (max deepest (spot.column + 1)) broken
        started false block spot.next cs
    else if isBreak c then
      readBlock literal chomping around least indent deepest broken started false
        { block with emptyLines := c :: block.emptyLines } spot.newLine cs
    else
      let indent := indent.getD (max deepest least)
      if !started && spot.column < indent && around < spot.column then none
      else if spot.column == indent then
        readBlock literal chomping around least indent 0 broken true true
          (block.startLine literal c) spot.next cs
      else some ⟨blockText chomping false spot.column indent block, spot, c :: cs, true⟩

end StreamFilter.Yaml.Version12
