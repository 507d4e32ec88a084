set_option autoImplicit false

/-!
# YAML documents

A document is a node: a scalar, a list, a table, or an alias of a node that has an
anchor.  What a node means is a value.  Two versions of YAML are read, which differ
in what they take for a document (`Version11`, `Version12`) and in the values of plain
scalars; filter documents are of the first version and settings of the second.
-/

namespace StreamFilter.Yaml

/-- The ways to write a scalar. -/
inductive Style where
  | plain
  | single
  | double
  | literal
  | folded
  deriving DecidableEq, Repr, Inhabited

/-- A tag: a name in a space of names. -/
structure Tag where
  space : String
  name : String
  deriving DecidableEq, Repr, Inhabited

/-- What stands in front of a node. -/
structure Properties where
  anchor : Option String := none
  tag : Option Tag := none
  deriving DecidableEq, Repr, Inhabited

/-- A node whose aliases name their targets by an `α`. -/
inductive Node (α : Type) where
  | alias (target : α)
  | scalar (properties : Properties) (style : Style) (text : String)
  | list (properties : Properties) (items : List (Node α))
  | table (properties : Properties) (entries : List (Node α × Node α))
  deriving Repr, Inhabited

/-- What a node means. -/
inductive Value where
  | null
  | bool (value : Bool)
  /-- A whole number written without a minus sign. -/
  | natural (n : Nat)
  /-- The whole number `-n`. -/
  | negative (n : Nat)
  /-- A number that is not whole, as it is written. -/
  | real (text : String)
  | text (text : String)
  | list (items : List Value)
  | table (entries : List (Value × Value))
  deriving Repr, Inhabited

/-! ## Tags -/

/-- The space of the tags that YAML itself defines. -/
def coreSpace : String := "tag:yaml.org,2002:"

/-- The whole text of a tag. -/
def Tag.text (t : Tag) : String := t.space ++ t.name

/-- Whether properties say anything. -/
def Properties.isGiven (p : Properties) : Bool := p.anchor.isSome || p.tag.isSome

/-- A node without text. -/
def Node.empty {α : Type} (p : Properties) : Node α := .scalar p .plain ""

/-! ## Whole numbers in any base -/

/-- The value of a digit of a base up to sixteen. -/
def digitOf? (base : Nat) (c : Char) : Option Nat :=
  let value := if '0' ≤ c ∧ c ≤ '9' then c.toNat - 48
    else if 'a' ≤ c ∧ c ≤ 'f' then c.toNat - 87
    else if 'A' ≤ c ∧ c ≤ 'F' then c.toNat - 55
    else base
  if value < base then some value else none

/-- The value of digits of a base. -/
def inBase? (base : Nat) (digits : List Char) : Option Nat :=
  if digits.isEmpty then none
  else digits.foldlM (fun n c => (digitOf? base c).map (n * base + ·)) 0

end StreamFilter.Yaml
