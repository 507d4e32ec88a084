import StreamFilter.Filter.Csdl
import StreamFilter.Formula.Basic
import StreamFilter.Skeleton.Variables
set_option autoImplicit false

/-!
# From a filter to its skeleton

The skeleton of a filter is the propositional formula that is left when each atom
is replaced by a variable.  A filter whose root is a part of a condition has none.

Faults are found from left to right: a connective is checked for its number of
children first, and each child for its kind just before it is entered.
-/

namespace StreamFilter

/-- A formula over the variables of a filter. -/
structure Skeleton where
  formula : Formula String
  table : Variables
  deriving Repr, Inhabited

namespace Filter

/-- The connectives of filters as those of formulas. -/
def formulaOf : Connective → List (Formula String) → Formula String
  | .and => .and
  | .or => .or

/-- Registers the atom of each triple. -/
def registerAll (vs : Variables) : List Triple → List (Formula String) × Variables
  | [] => ([], vs)
  | t :: ts =>
    let (name, vs) := vs.registerTriple t.text t
    let (rest, vs) := registerAll vs ts
    (.var name :: rest, vs)

/-- The formula of a triple whose names the vocabulary knows.  A list condition
becomes a formula over its words. -/
def extractTriple (v : Vocabulary) (kind : Kind) (children : List Filter) (vs : Variables) :
    Except Fault (Formula String × Variables) := do
  let t ← requireTriple kind children
  let text ← t.csdl v
  match t.expansion? with
  | some (c, parts) =>
    let (fs, vs) := registerAll vs parts
    return (.unlessSingle (formulaOf c) fs, vs)
  | none =>
    let (name, vs) := vs.registerTriple text t
    return (.var name, vs)

/-- A part of a condition cannot stand below a connective, a group or a
negation. -/
def requireBoolean (parent : Kind) (child : Filter) : Except Fault Unit :=
  if child.kind.isTerminal then .error (.invalidChild parent child.kind) else .ok ()

mutual

/-- The formula of a filter, and the variables with those of its atoms. -/
def extractWith (v : Vocabulary) : Filter → Variables → Except Fault (Formula String × Variables)
  | and cs, vs => do
    requireTwo .and cs
    let (fs, vs) ← extractAll v .and cs vs
    return (.and fs, vs)
  | or cs, vs => do
    requireTwo .or cs
    let (fs, vs) ← extractAll v .or cs vs
    return (.or fs, vs)
  | not [], _ => .error (.malformed .not "no child nodes")
  | not (target name :: cs), vs => do
    let (f, vs) ← extractTriple v .not (target name :: cs) vs
    return (.not f, vs)
  | not (c :: _), vs => do
    requireBoolean .not c
    let (f, vs) ← extractWith v c vs
    return (.not f, vs)
  | group [], _ => .error (.missingChildren .group 1 0)
  | group (c :: _), vs => do
    requireBoolean .group c
    extractWith v c vs
  | condition cs, vs => extractTriple v .condition cs vs
  | raw text, vs =>
    let (name, vs) := vs.register text (raw text) (not [raw text])
    return (.var name, vs)
  | target _, _ => .error (.malformed .target "not a boolean expression")
  | operator _, _ => .error (.malformed .operator "not a boolean expression")
  | argument _, _ => .error (.malformed .argument "not a boolean expression")
  | string _, _ => .error (.malformed .string "not a boolean expression")

/-- The formulas of the children of a connective. -/
def extractAll (v : Vocabulary) (parent : Kind) :
    List Filter → Variables → Except Fault (List (Formula String) × Variables)
  | [], vs => return ([], vs)
  | c :: cs, vs => do
    requireBoolean parent c
    let (f, vs) ← extractWith v c vs
    let (fs, vs) ← extractAll v parent cs vs
    return (f :: fs, vs)

end

/-- The skeleton of a filter; none if its root is a part of a condition. -/
def skeleton (v : Vocabulary) (f : Filter) : Except Fault (Option Skeleton) :=
  if f.kind.isTerminal then .ok none
  else do
    let (formula, table) ← extractWith v f {}
    return some ⟨formula, table⟩

end Filter

end StreamFilter
