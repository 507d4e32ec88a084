import StreamFilter.Filter.Basic
import StreamFilter.Json.Basic
import StreamFilter.Text.Escaped
set_option autoImplicit false

/-!
# Filters as JSON

A node is an object with one member.  The member's name is the kind of the node,
and its value is a list of nodes, a text, or one node, as the kind demands.  A
value that does not have this form is refused for the first thing in it that
does not fit.
-/

namespace StreamFilter

namespace Json

/-- What a value is, as messages put it. -/
def describe : Json → String
  | null => "null"
  | bool true => "boolean `true`"
  | bool false => "boolean `false`"
  | number (.whole value) => "integer `" ++ Number.wholeText value ++ "`"
  | number value => "floating point `" ++ value.scientificText ++ "`"
  | string text => "string " ++ Text.escaped text
  | array _ => "sequence"
  | object _ => "map"

end Json

/-- Why a value is no filter. -/
inductive Misfit where
  /-- A node is neither an object nor a text. -/
  | notNode (found : Json)
  /-- A node is only the name of its kind. -/
  | bareKind
  /-- There is no such kind of node. -/
  | unknownKind (name : String)
  /-- A node's object has no member or several. -/
  | notSingle
  /-- A node needs a list of nodes. -/
  | notList (found : Json)
  /-- A node needs a text. -/
  | notText (found : Json)
  deriving Repr, Inhabited

namespace Misfit

/-- The names of all kinds in a message. -/
def kindNames : String :=
  ", ".intercalate (Kind.all.map fun kind => "`" ++ kind.name ++ "`")

/-- The wording of a misfit. -/
def message : Misfit → String
  | notNode found => "invalid type: " ++ found.describe ++ ", expected string or map"
  | bareKind => "invalid type: unit variant, expected newtype variant"
  | unknownKind name => "unknown variant `" ++ name ++ "`, expected one of " ++ kindNames
  | notSingle => "invalid value: map, expected map with a single key"
  | notList found => "invalid type: " ++ found.describe ++ ", expected a sequence"
  | notText found => "invalid type: " ++ found.describe ++ ", expected a string"

end Misfit

namespace Filter

mutual

/-- A filter as a value. -/
def toJson : Filter → Json
  | and cs => .object [(Kind.and.name, .array (toJsons cs))]
  | or cs => .object [(Kind.or.name, .array (toJsons cs))]
  | not cs => .object [(Kind.not.name, .array (toJsons cs))]
  | condition cs => .object [(Kind.condition.name, .array (toJsons cs))]
  | group cs => .object [(Kind.group.name, .array (toJsons cs))]
  | raw text => .object [(Kind.raw.name, .string text)]
  | target name => .object [(Kind.target.name, .string name)]
  | operator name => .object [(Kind.operator.name, .string name)]
  | argument content => .object [(Kind.argument.name, toJson content)]
  | string text => .object [(Kind.string.name, .string text)]

/-- Filters as values. -/
def toJsons : List Filter → List Json
  | [] => []
  | f :: fs => toJson f :: toJsons fs

end

/-- The text that a node needs. -/
def textOfJson : Json → Except Misfit String
  | .string text => .ok text
  | found => .error (.notText found)

mutual

/-- The filter that a value stands for. -/
def ofJson : Json → Except Misfit Filter
  | .object [(name, value)] =>
    match Kind.ofName? name with
    | none => .error (.unknownKind name)
    | some .and => (ofJsonList value).map and
    | some .or => (ofJsonList value).map or
    | some .not => (ofJsonList value).map not
    | some .condition => (ofJsonList value).map condition
    | some .group => (ofJsonList value).map group
    | some .raw => (textOfJson value).map raw
    | some .target => (textOfJson value).map target
    | some .operator => (textOfJson value).map operator
    | some .argument => (ofJson value).map argument
    | some .string => (textOfJson value).map string
  | .object _ => .error .notSingle
  | .string name =>
    if (Kind.ofName? name).isSome then .error .bareKind else .error (.unknownKind name)
  | found => .error (.notNode found)

/-- The filters that a list stands for. -/
def ofJsonList : Json → Except Misfit (List Filter)
  | .array items => ofJsons items
  | found => .error (.notList found)

/-- The filters that values stand for. -/
def ofJsons : List Json → Except Misfit (List Filter)
  | [] => .ok []
  | item :: items => do return (← ofJson item) :: (← ofJsons items)

end

end Filter

end StreamFilter
