import StreamFilter.Filter.Basic
import StreamFilter.Yaml.Print
set_option autoImplicit false

/-!
# Filters as YAML

A node is written as its kind in a tag and then a text or a list of nodes.  An argument
has no such form, because it would need a tag on a tag.  A node is read from a table with
one entry, whose key is the kind by its name or by its number.
-/

namespace StreamFilter

/-- Where a node is written: the indentation of the items of its list, and the
indentation of the lines of its text. -/
structure Yaml.Layout where
  items : Nat
  lines : Nat
  deriving DecidableEq, Repr, Inhabited

namespace Yaml.Layout

/-- A document of its own. -/
def root : Layout := ⟨0, 2⟩

/-- The value of a key at an indentation; the items of a list stand below the key. -/
def value (indent : Nat) : Layout := ⟨indent, indent + 2⟩

/-- An item of a list. -/
def item (l : Layout) : Layout := ⟨l.items + 2, l.items + 2⟩

/-- What stands in front of an item. -/
def bullet (l : Layout) : String := String.ofList (List.replicate l.items ' ') ++ "- "

end Yaml.Layout

namespace Filter

/-! ## Writing -/

mutual

/-- Whether a filter has a YAML form: no argument stands in it. -/
def hasYaml : Filter → Bool
  | and cs | or cs | not cs | condition cs | group cs => haveYaml cs
  | argument _ => false
  | raw _ | target _ | operator _ | string _ => true

/-- Whether filters have YAML forms. -/
def haveYaml : List Filter → Bool
  | [] => true
  | f :: fs => hasYaml f && haveYaml fs

end

/-- The tag of a kind. -/
def tag (kind : Kind) : String := "!" ++ kind.name

mutual

/-- A filter as YAML lines, the first of which has been started. -/
def yamlLines (l : Yaml.Layout) : Filter → String
  | and cs => tag .and ++ listLines l cs
  | or cs => tag .or ++ listLines l cs
  | not cs => tag .not ++ listLines l cs
  | condition cs => tag .condition ++ listLines l cs
  | group cs => tag .group ++ listLines l cs
  | raw text => tag .raw ++ " " ++ Yaml.scalarLine l.lines text
  | target name => tag .target ++ " " ++ Yaml.scalarLine l.lines name
  | operator name => tag .operator ++ " " ++ Yaml.scalarLine l.lines name
  | argument content => tag .argument ++ " " ++ yamlLines l content
  | string text => tag .string ++ " " ++ Yaml.scalarLine l.lines text

/-- The rest of the line of a list, and its items. -/
def listLines (l : Yaml.Layout) : List Filter → String
  | [] => " []\n"
  | f :: fs => "\n" ++ l.bullet ++ yamlLines l.item f ++ itemLines l fs

/-- Items of a list. -/
def itemLines (l : Yaml.Layout) : List Filter → String
  | [] => ""
  | f :: fs => l.bullet ++ yamlLines l.item f ++ itemLines l fs

end

/-! ## Reading -/

/-- The kind that a key names, or numbers in the order of all kinds. -/
def kindOfYaml? : Yaml.Value → Option Kind
  | .text name => Kind.ofName? name
  | .natural n => Kind.all[n]?
  | _ => none

/-- The text that a value is. -/
def textOfYaml? : Yaml.Value → Option String
  | .text text => some text
  | _ => none

mutual

/-- The filter that a value stands for. -/
def ofYaml? : Yaml.Value → Option Filter
  | .table [(key, value)] =>
    match kindOfYaml? key with
    | none => none
    | some .and => (listOfYaml? value).map and
    | some .or => (listOfYaml? value).map or
    | some .not => (listOfYaml? value).map not
    | some .condition => (listOfYaml? value).map condition
    | some .group => (listOfYaml? value).map group
    | some .raw => (textOfYaml? value).map raw
    | some .target => (textOfYaml? value).map target
    | some .operator => (textOfYaml? value).map operator
    | some .argument => (ofYaml? value).map argument
    | some .string => (textOfYaml? value).map string
  | _ => none

/-- The filters that a list stands for. -/
def listOfYaml? : Yaml.Value → Option (List Filter)
  | .list items => allOfYaml? items
  | _ => none

/-- The filters that values stand for. -/
def allOfYaml? : List Yaml.Value → Option (List Filter)
  | [] => some []
  | item :: items =>
    match ofYaml? item, allOfYaml? items with
    | some f, some fs => some (f :: fs)
    | _, _ => none

end

end Filter

end StreamFilter
