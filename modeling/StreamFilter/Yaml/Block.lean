import StreamFilter.Yaml.Token
set_option autoImplicit false

/-!
# Block scalars

A block scalar has a mark, which may say what becomes of the line breaks at its end and
how deep it is indented, and the lines behind it.  In a folded one, lines that start
without a blank are joined.
-/

namespace StreamFilter.Yaml

/-- What becomes of the line breaks at the end of a block scalar. -/
inductive Chomping where
  /-- The last one counts. -/
  | clip
  /-- None counts. -/
  | strip
  /-- All count. -/
  | keep
  deriving DecidableEq, Repr, Inhabited

/-- The chomping that a sign asks for. -/
def chomping? (c : Char) : Option Chomping :=
  if c = '+' then some .keep else if c = '-' then some .strip else none

/-- The indentation that a digit asks for, which may not be zero. -/
def indentation? (c : Char) : Option Nat :=
  if '1' ≤ c ∧ c ≤ '9' then some (c.toNat - 48) else none

/-- The chomping and the indentation, zero for none, in the mark of a block scalar, and
how many characters they take. -/
def readMark : List Char → Chomping × Nat × Nat
  | a :: b :: _ =>
    match chomping? a, indentation? a, chomping? b, indentation? b with
    | some chomping, _, _, some n => (chomping, n, 2)
    | some chomping, _, _, none => (chomping, 0, 1)
    | none, some n, some chomping, _ => (chomping, n, 2)
    | none, some n, none, _ => (.clip, n, 1)
    | none, none, _, _ => (.clip, 0, 0)
  | [a] =>
    match chomping? a, indentation? a with
    | some chomping, _ => (chomping, 0, 1)
    | none, some n => (.clip, n, 1)
    | none, none => (.clip, 0, 0)
  | [] => (.clip, 0, 0)

/-- A block scalar in the course of its reading.  Characters come with the last in
front. -/
structure Block where
  text : List Char := []
  /-- The break behind the last line. -/
  lineEnd : Option Char := none
  /-- The breaks of the empty lines behind it. -/
  emptyLines : List Char := []
  /-- Whether the last line starts with a blank. -/
  blankStart : Bool := false
  deriving Repr, Inhabited

namespace Block

/-- The line breaks that have been read but not yet added to the text. -/
def pending (b : Block) : List Char := b.emptyLines ++ b.lineEnd.toList

/-- A block at the start of a line whose first character is `c`.  A usual line break
between two lines without blanks in front is folded, and reads as a blank if no empty
line follows it. -/
def startLine (literal : Bool) (c : Char) (b : Block) : Block :=
  let folds := !literal && b.lineEnd == some '\n' && !b.blankStart && !isBlank c
  let breaks :=
    if folds then (if b.emptyLines.isEmpty then [' '] else b.emptyLines) else b.pending
  ⟨c :: (breaks ++ b.text), none, [], isBlank c⟩

/-- The text of a block that has been read. -/
def chomped (chomping : Chomping) (b : Block) : String :=
  let breaks := match chomping with
    | .strip => []
    | .clip => b.lineEnd.toList
    | .keep => b.pending
  String.ofList (breaks ++ b.text).reverse

end Block

end StreamFilter.Yaml
