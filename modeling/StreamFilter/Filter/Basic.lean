set_option autoImplicit false

/-!
# Filter trees

A filter is a tree.  Its interior nodes are the connectives `and` and `or`,
negation, parenthesized groups and conditions; its ends are verbatim text and
the parts of a condition.  Trees are not required to be well shaped: a
connective may have no child, and a condition may lack its operator.  What each
operation makes of such a tree is part of its definition.

A condition is read through its `Triple`: the first target, the first operator
and the first string argument among its children.  A negation whose first child
is a target holds a triple directly.
-/

namespace StreamFilter

/-- A node of a filter tree. -/
inductive Filter where
  /-- Every child holds. -/
  | and (children : List Filter)
  /-- Some child holds. -/
  | or (children : List Filter)
  /-- Negates a triple held directly, or its first child. -/
  | not (children : List Filter)
  /-- `target operator argument`, where the argument may be missing. -/
  | condition (children : List Filter)
  /-- Verbatim text of the filter language. -/
  | raw (text : String)
  /-- A parenthesized filter. -/
  | group (children : List Filter)
  /-- The part of a message that a condition looks at. -/
  | target (name : String)
  /-- How a condition compares. -/
  | operator (name : String)
  /-- Wraps what a condition compares with. -/
  | argument (content : Filter)
  /-- A string literal. -/
  | string (text : String)
  deriving Repr, Inhabited

/-- The sort of a filter node. -/
inductive Kind where
  | and | or | not | condition | raw | group | target | operator | argument | string
  deriving DecidableEq, Repr, Inhabited

namespace Kind

/-- The name of a kind in documents and messages. -/
def name : Kind → String
  | and => "and"
  | or => "or"
  | not => "not"
  | condition => "condition"
  | raw => "raw"
  | group => "logical_group"
  | target => "target"
  | operator => "operator"
  | argument => "argument"
  | string => "string"

/-- Every kind, in the order in which messages list them. -/
def all : List Kind :=
  [and, or, not, condition, raw, group, target, operator, argument, string]

/-- The kind with a given name. -/
def ofName? (name : String) : Option Kind := all.find? (·.name == name)

/-- The kinds that stand only inside a condition and have no truth value. -/
def isTerminal : Kind → Bool
  | target | operator | argument | string => true
  | _ => false

end Kind

/-- What a condition says: a target, an operator and perhaps an argument. -/
structure Triple where
  target : String
  operator : String
  argument : Option String
  deriving DecidableEq, Repr, Inhabited

namespace Filter

/-- The kind of a node. -/
def kind : Filter → Kind
  | and _ => .and
  | or _ => .or
  | not _ => .not
  | condition _ => .condition
  | raw _ => .raw
  | group _ => .group
  | target _ => .target
  | operator _ => .operator
  | argument _ => .argument
  | string _ => .string

/-- The nodes directly below a node. -/
def children : Filter → List Filter
  | and cs | or cs | not cs | condition cs | group cs => cs
  | argument content => [content]
  | raw _ | target _ | operator _ | string _ => []

/-- The text of a target node. -/
def targetName? : Filter → Option String
  | target name => some name
  | _ => none

/-- The text of an operator node. -/
def operatorName? : Filter → Option String
  | operator name => some name
  | _ => none

/-- The text of an argument node that wraps a string. -/
def argumentText? : Filter → Option String
  | argument (string text) => some text
  | _ => none

/-- The children that spell a triple. -/
def ofTriple (t : Triple) : List Filter :=
  [target t.target, operator t.operator] ++
    match t.argument with
    | some text => [argument (string text)]
    | none => []

/-- The triple found among the children of a node: first target, first
operator, first string argument.  Nothing is found without both a target and an
operator. -/
def triple? (children : List Filter) : Option Triple :=
  match children.findSome? targetName?, children.findSome? operatorName? with
  | some t, some o => some ⟨t, o, children.findSome? argumentText?⟩
  | _, _ => none

/-- Whether the first of a list of children is a target. -/
def startsWithTarget : List Filter → Bool
  | target _ :: _ => true
  | _ => false

/-- Whether a node is a negation that holds its triple directly. -/
def isDirectNot : Filter → Bool
  | not cs => startsWithTarget cs
  | _ => false

/-- The triple of a condition or of a negation that holds one directly. -/
def asTriple? : Filter → Option Triple
  | condition cs => triple? cs
  | not cs => if startsWithTarget cs then triple? cs else none
  | _ => none

@[simp] theorem triple?_ofTriple (t : Triple) : triple? (ofTriple t) = some t := by
  obtain ⟨_, _, a⟩ := t
  cases a <;> rfl

@[simp] theorem startsWithTarget_ofTriple (t : Triple) :
    startsWithTarget (ofTriple t) = true := rfl

/-! ## Equality of trees is decidable -/

mutual

/-- Compares two trees node by node. -/
def same : Filter → Filter → Bool
  | and xs, and ys | or xs, or ys | not xs, not ys => sameAll xs ys
  | condition xs, condition ys | group xs, group ys => sameAll xs ys
  | raw s, raw t | target s, target t | operator s, operator t | string s, string t => s == t
  | argument f, argument g => same f g
  | _, _ => false

/-- Compares two lists of trees. -/
def sameAll : List Filter → List Filter → Bool
  | [], [] => true
  | f :: fs, g :: gs => same f g && sameAll fs gs
  | _, _ => false

end

mutual

theorem same_iff : ∀ f g : Filter, same f g = true ↔ f = g
  | and xs, g => by cases g <;> simp [same, sameAll_iff xs]
  | or xs, g => by cases g <;> simp [same, sameAll_iff xs]
  | not xs, g => by cases g <;> simp [same, sameAll_iff xs]
  | condition xs, g => by cases g <;> simp [same, sameAll_iff xs]
  | group xs, g => by cases g <;> simp [same, sameAll_iff xs]
  | raw s, g => by cases g <;> simp [same]
  | target s, g => by cases g <;> simp [same]
  | operator s, g => by cases g <;> simp [same]
  | string s, g => by cases g <;> simp [same]
  | argument f, g => by cases g <;> simp [same, same_iff f]

theorem sameAll_iff : ∀ fs gs : List Filter, sameAll fs gs = true ↔ fs = gs
  | [], gs => by cases gs <;> simp [sameAll]
  | f :: fs, gs => by cases gs <;> simp [sameAll, same_iff f, sameAll_iff fs]

end

instance : DecidableEq Filter := fun f g => decidable_of_iff (same f g = true) (same_iff f g)

end Filter

end StreamFilter
