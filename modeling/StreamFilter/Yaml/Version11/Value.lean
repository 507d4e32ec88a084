import StreamFilter.Number.Read
import StreamFilter.Yaml.Parse
import StreamFilter.Yaml.Version11.Token
set_option autoImplicit false

/-!
# Values of YAML 1.1

A plain scalar may be a number, a truth value or nothing, and a tag may say what a scalar
is.  Whole numbers go up to 128 bits, but only those of 64 bits are values.  An alias
stands for the node with its anchor; how often aliases are followed is bounded, and so is
the nesting of lists and tables.
-/

namespace StreamFilter.Yaml.Version11

/-! ## Scalars -/

/-- Digits after a leading zero, perhaps with a sign. -/
def isZeroPadded (cs : List Char) : Bool :=
  match (Number.takeSign cs).2 with
  | '0' :: c :: rest => (c :: rest).all Number.isDigit
  | _ => false

/-- The size of a whole number: digits that start with no needless zero, or digits of
another base behind its letter. -/
def magnitude? : List Char → Option Nat
  | '0' :: 'x' :: digits => inBase? 16 digits
  | '0' :: 'o' :: digits => inBase? 8 digits
  | '0' :: 'b' :: digits => inBase? 2 digits
  | digits => if isZeroPadded digits then none else inBase? 10 digits

/-- What a plain scalar may be. -/
inductive Scalar where
  | value (v : Value)
  /-- A whole number beyond 64 bits. -/
  | wide
  deriving Repr, Inhabited

/-- A power of two that bounds numbers of 128 bits without a sign. -/
def wideBound : Nat := Nat.pow 2 128

/-- The whole number that characters spell, perhaps with a sign. -/
def whole? (cs : List Char) : Option Scalar :=
  match cs with
  | '-' :: digits => do
    let n ← magnitude? digits
    if n ≤ Number.signedBound then some (.value (.negative n))
    else if n ≤ wideBound / 2 then some .wide
    else none
  | cs => do
    let n ← magnitude? (match cs with
      | '+' :: digits => digits
      | digits => digits)
    if n < Number.unsignedBound then some (.value (.natural n))
    else if n < wideBound then some .wide
    else none

/-- Whether characters spell a number that is not whole: an infinity, no number, or a
finite float. -/
def isReal (cs : List Char) : Bool :=
  [".inf", ".Inf", ".INF", "+.inf", "+.Inf", "+.INF", "-.inf", "-.Inf", "-.INF", ".nan", ".NaN",
    ".NAN"].contains (String.ofList cs) ||
    (Number.ofFloat? cs).any Number.isProper

/-- The truth value of a word. -/
def truth? (text : String) : Option Bool :=
  if ["true", "True", "TRUE"].contains text then some true
  else if ["false", "False", "FALSE"].contains text then some false
  else none

/-- The words for nothing. -/
def isNull (text : String) : Bool := ["null", "Null", "NULL", "~"].contains text

/-- What a plain scalar is. -/
def resolve (text : String) : Scalar :=
  if text.isEmpty || isNull text then .value .null
  else
    match truth? text, whole? text.toList with
    | some b, _ => .value (.bool b)
    | none, some whole => whole
    | none, none =>
      if !isZeroPadded text.toList && isReal text.toList then .value (.real text)
      else .value (.text text)

/-- What a scalar with a tag is, if it is that.  A tag of a program's own has no meaning
here, and only its mark leaves the scalar as it is, unless none is there. -/
def scalarValue? (tag : Option Tag) (style : Style) (text : String) : Option Value :=
  let plain : Option Value := match style, resolve text with
    | .plain, .value v => some v
    | .plain, .wide => none
    | _, _ => some (.text text)
  match tag.map Tag.text with
  | none => plain
  | some "!" => if style = .plain ∧ text = "" then none else plain
  | some tag =>
    if tag = coreSpace ++ "bool" then (truth? text).map .bool
    else if tag = coreSpace ++ "int" then
      match whole? text.toList with
      | some (.value v) => some v
      | _ => none
    else if tag = coreSpace ++ "float" then
      if isReal text.toList then some (.real text) else none
    else if tag = coreSpace ++ "null" then
      if isNull text then some .null else none
    else if "!".toList.isPrefixOf tag.toList then none
    else some (.text text)

/-- Whether a list or a table may have a tag. -/
def admits (p : Properties) : Bool := !(p.tag.any fun t => "!".toList.isPrefixOf t.text.toList)

/-! ## Anchors

Each anchor has a number, and the alias of a name has the number of the last anchor of
that name before it.  The number of an anchor is the count of names before it, so that a
name given twice leaves the next new name the same number; the later node then counts
for both. -/

/-- The anchors that have been met. -/
structure Anchors where
  /-- How many nodes have been entered or left. -/
  position : Nat := 0
  /-- The names with their numbers. -/
  names : List (String × Nat) := []
  /-- The nodes with their numbers and positions. -/
  nodes : List (Nat × Nat × Node Nat) := []
  deriving Repr, Inhabited

namespace Anchors

/-- One position further. -/
def advance (a : Anchors) : Anchors := { a with position := a.position + 1 }

/-- Meets the name of an anchor. -/
def meet (name : Option String) (a : Anchors) : Anchors :=
  match name with
  | none => a
  | some name => { a with names := (name, a.names.length) :: a.names.filter (·.1 != name) }

/-- Keeps the node of an anchor that was met in state `before`. -/
def keep (a : Anchors) (name : Option String) (before : Anchors) (node : Node Nat) : Anchors :=
  match name with
  | none => a
  | some _ => { a with nodes := (before.names.length, before.position, node) :: a.nodes }

/-- The node with a number: the last one in the document. -/
def node? (number : Nat) (a : Anchors) : Option (Node Nat) :=
  ((a.nodes.filter (·.1 == number)).foldl
    (fun best (_, position, node) =>
      match best with
      | some (p, _) => if p < position then some (position, node) else best
      | none => some (position, node))
    (none : Option (Nat × Node Nat))).map (·.2)

end Anchors

mutual

/-- A node with numbers in its aliases. -/
def numbered (a : Anchors) : Node String → Option (Node Nat × Anchors)
  | .alias name => (a.names.lookup name).map fun number => (.alias number, a.advance)
  | .scalar p style text =>
    let node := .scalar p style text
    some (node, ((a.meet p.anchor).advance).keep p.anchor a node)
  | .list p items =>
    match numberedItems (a.meet p.anchor).advance items with
    | none => none
    | some (items, inner) =>
      let node := .list p items
      some (node, inner.advance.keep p.anchor a node)
  | .table p entries =>
    match numberedEntries (a.meet p.anchor).advance entries with
    | none => none
    | some (entries, inner) =>
      let node := .table p entries
      some (node, inner.advance.keep p.anchor a node)

/-- Nodes with numbers in their aliases. -/
def numberedItems (a : Anchors) : List (Node String) → Option (List (Node Nat) × Anchors)
  | [] => some ([], a)
  | item :: items =>
    match numbered a item with
    | none => none
    | some (item, a) =>
      match numberedItems a items with
      | none => none
      | some (items, a) => some (item :: items, a)

/-- Entries with numbers in their aliases. -/
def numberedEntries (a : Anchors) :
    List (Node String × Node String) → Option (List (Node Nat × Node Nat) × Anchors)
  | [] => some ([], a)
  | (key, value) :: entries =>
    match numbered a key with
    | none => none
    | some (key, a) =>
      match numbered a value with
      | none => none
      | some (value, a) =>
        match numberedEntries a entries with
        | none => none
        | some (entries, a) => some ((key, value) :: entries, a)

end

/-! ## Values -/

/-- How deep lists and tables may be nested. -/
def deepest : Nat := 128

/-- How often aliases may be followed for each position of a document. -/
def jumpsPerPosition : Nat := 100

/-- The node that a node stands for, with the count of aliases that may still be
followed. -/
def follow (a : Anchors) (jumps : Nat) : Node Nat → Option (Node Nat × Nat)
  | .alias number =>
    match jumps with
    | 0 => none
    | jumps + 1 => (a.node? number).map fun node => (node, jumps)
  | node => some (node, jumps)

/-- The value of each of some nodes. -/
def eachValue (value? : Nat → Node Nat → Option (Value × Nat)) (jumps : Nat) :
    List (Node Nat) → Option (List Value × Nat)
  | [] => some ([], jumps)
  | node :: nodes => do
    let (v, jumps) ← value? jumps node
    let (vs, jumps) ← eachValue value? jumps nodes
    return (v :: vs, jumps)

/-- The values of each of some entries. -/
def eachEntry (value? : Nat → Node Nat → Option (Value × Nat)) (jumps : Nat) :
    List (Node Nat × Node Nat) → Option (List (Value × Value) × Nat)
  | [] => some ([], jumps)
  | (key, node) :: entries => do
    let (k, jumps) ← value? jumps key
    let (v, jumps) ← value? jumps node
    let (vs, jumps) ← eachEntry value? jumps entries
    return ((k, v) :: vs, jumps)

/-- The value of a node that may hold some levels of lists and tables. -/
def valueOf? (a : Anchors) : Nat → Nat → Node Nat → Option (Value × Nat)
  | depth, jumps, node =>
    match depth, follow a jumps node with
    | _, some (.scalar p style text, jumps) =>
      (scalarValue? p.tag style text).map fun v => (v, jumps)
    | depth + 1, some (.list p items, jumps) =>
      if admits p then
        (eachValue (valueOf? a depth) jumps items).map fun (vs, jumps) => (.list vs, jumps)
      else none
    | depth + 1, some (.table p entries, jumps) =>
      if admits p then
        (eachEntry (valueOf? a depth) jumps entries).map fun (vs, jumps) => (.table vs, jumps)
      else none
    | _, _ => none

/-! ## Documents -/

/-- The handles that directives declare.  A document is of version 1.1 or 1.2. -/
def handles? (versioned : Bool) : List Token → Option (List (String × String))
  | [] => some []
  | .version major minor :: ts =>
    if versioned || major != 1 || !(minor == 1 || minor == 2) then none
    else handles? true ts
  | .handle name space :: ts => do
    let handles ← handles? versioned ts
    if (handles.lookup name).isSome then none else return (name, space) :: handles
  | _ :: ts => handles? versioned ts

/-- The grammar of version 1.1. -/
def grammar : Grammar where
  bareValues := false
  leadingEnds := false
  handles? := handles? false

/-- The value of the only document in a text. -/
def parse (text : String) : Option Value := do
  let node ← (← document? grammar (← tokens? text))
  let (node, anchors) ← numbered {} node
  let (value, _) ← valueOf? anchors deepest (anchors.position * jumpsPerPosition) node
  return value

end StreamFilter.Yaml.Version11
