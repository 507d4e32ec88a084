import StreamFilter.Yaml.Block
import StreamFilter.Yaml.Quoted
set_option autoImplicit false

/-!
# Plain and block scalars of YAML 1.1

A plain scalar goes on over lines that are indented deeper than the block around it.  A
block scalar consists of the lines behind its mark that have its indentation.  Besides
the usual line break there are two others, the line and the paragraph separator, which
are kept where the usual one is folded.
-/

namespace StreamFilter.Yaml.Version11

/-- Characters that end a line. -/
def isBreak (c : Char) : Bool := c == '\n' || c.toNat == 0x2028 || c.toNat == 0x2029

/-- Whether characters start with a gap or are none. -/
def atGap (cs : List Char) : Bool := gapFollows isBreak cs

/-! ## Plain scalars -/

/-- Whether a plain scalar goes on with these characters.  In a collection on a line a
colon may not stand in front of a bracket, a comma or a question mark: this is
`none`. -/
def goesOn? (flow : Bool) : List Char → Option Bool
  | [] => some false
  | c :: cs =>
    let marked := match cs with
      | d :: _ => isFlowMark d || d == '?'
      | [] => false
    if flow && c == ':' && marked then none
    else some !((c == ':' && atGap cs) || (flow && isFlowMark c))

/-- Reads a plain scalar.  Outside of collections on a line, a further line has to start
at column `least`. -/
def readPlain (flow : Bool) (least : Int) (text : List Char) (gap : Gap) (spot : Spot) :
    List Char → Option Scanned
  | [] => some ⟨String.ofList text.reverse, spot, [], gap.isBroken⟩
  | c :: cs =>
    if isBlank c then
      if gap.isBroken && c == '\t' && spot.column < least then none
      else readPlain flow least text (gap.blank c) spot.next cs
    else if isBreak c then readPlain flow least text (gap.lineBreak c) spot.newLine cs
    else
      let ended := gap != .none &&
        ((!flow && spot.column < least) || c == '#' ||
          (spot.column == 0 && isDocumentMark isBreak (c :: cs)))
      if ended then some ⟨String.ofList text.reverse, spot, c :: cs, gap.isBroken⟩
      else
        match goesOn? flow (c :: cs) with
        | none => none
        | some false => some ⟨String.ofList text.reverse, spot, c :: cs, gap.isBroken⟩
        | some true => readPlain flow least (c :: (gap.reversed ++ text)) .none spot.next cs

/-! ## Block scalars -/

/-- Reads the lines of a block scalar.  The indentation is zero as long as it is not
known: then it is that of the deepest line so far, but at least `least`. -/
def readBlock (literal : Bool) (chomping : Chomping) (least : Nat) (indent deepest : Nat)
    (inLine : Bool) (block : Block) (spot : Spot) : List Char → Option Scanned
  | [] => some ⟨block.chomped chomping, spot, [], true⟩
  | c :: cs =>
    if inLine then
      if isBreak c then
        readBlock literal chomping least indent 0 false { block with lineEnd := some c }
          spot.newLine cs
      else
        readBlock literal chomping least indent 0 true { block with text := c :: block.text }
          spot.next cs
    else
      let before := indent == 0 || spot.column < indent
      if before && c == ' ' then
        readBlock literal chomping least indent (max deepest (spot.column + 1)) false block
          spot.next cs
      else if before && c == '\t' then none
      else if isBreak c then
        readBlock literal chomping least indent deepest false
          { block with emptyLines := c :: block.emptyLines } spot.newLine cs
      else
        let indent := if indent == 0 then max deepest least else indent
        if spot.column == indent then
          readBlock literal chomping least indent 0 true (block.startLine literal c) spot.next cs
        else some ⟨block.chomped chomping, spot, c :: cs, true⟩

end StreamFilter.Yaml.Version11
