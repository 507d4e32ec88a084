import StreamFilter.Fault
import StreamFilter.Filter.Meaning
import StreamFilter.Vocabulary.Basic
set_option autoImplicit false

/-!
# The text of a filter

Writes a filter in the query language CSDL, where every target and operator has
to be in the vocabulary.  Faults are found from left to right; a connective is
checked for its number of children before its children are written, and a
condition for its target before its operator.
-/

namespace StreamFilter

namespace Triple

/-- The canonical text of a triple whose names the vocabulary knows. -/
def csdl (v : Vocabulary) (t : Triple) : Except Fault String :=
  if v.admitsTarget t.target then
    if v.admitsOperator t.operator then .ok t.text
    else .error (.unknownOperator t.operator)
  else .error (.unknownTarget t.target)

end Triple

namespace Filter

/-- The triple among the children of a node that has to hold one. -/
def requireTriple (kind : Kind) (children : List Filter) : Except Fault Triple :=
  match triple? children with
  | some t => .ok t
  | none => .error (.malformed kind "missing target or operator")

/-- A connective needs two children or more. -/
def requireTwo (parent : Kind) (children : List Filter) : Except Fault Unit :=
  if children.length < 2 then .error (.missingChildren parent 2 children.length) else .ok ()

mutual

/-- The text of a filter in CSDL. -/
def csdl (v : Vocabulary) : Filter → Except Fault String
  | and cs => do
    requireTwo .and cs
    return " AND ".intercalate (← csdlAll v cs)
  | or cs => do
    requireTwo .or cs
    return " OR ".intercalate (← csdlAll v cs)
  | argument content => csdl v content
  | condition cs => do (← requireTriple .condition cs).csdl v
  | group [] => .error (.missingChildren .group 1 0)
  | group (f :: fs) => do
    let first ← csdl v f
    let others ← csdlAll v fs
    return "(" ++ " ".intercalate (first :: others) ++ ")"
  | not [] => .error (.malformed .not "no child nodes")
  | not (target name :: cs) => do
    return "NOT " ++ (← (← requireTriple .not (target name :: cs)).csdl v)
  | not (f :: _) => do return "NOT " ++ (← csdl v f)
  | operator name =>
    if v.admitsOperator name then .ok name else .error (.unknownOperator name)
  | raw text => .ok text
  | string text => .ok (Text.quote text)
  | target name => if v.admitsTarget name then .ok name else .error (.unknownTarget name)

/-- The texts of a list of filters. -/
def csdlAll (v : Vocabulary) : List Filter → Except Fault (List String)
  | [] => .ok []
  | f :: fs => do
    let first ← csdl v f
    let others ← csdlAll v fs
    return first :: others

end

end Filter

end StreamFilter
