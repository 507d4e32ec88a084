import StreamFilter.Vocabulary.Tables
set_option autoImplicit false

/-!
# Vocabulary: which targets and operators a filter may use

A dialect restricts the targets of the table to one kind of filter.  Extra
targets are accepted in every dialect.  Operators are the same everywhere.
-/

namespace StreamFilter

/-- The kind of filter whose targets are accepted. -/
inductive Dialect where
  /-- Any known target. -/
  | generic
  /-- Targets of interaction filters. -/
  | interaction
  /-- Targets of query filters, tag tree targets among them. -/
  | query
  deriving DecidableEq, Repr, Inhabited

namespace Dialect

/-- The name of a dialect. -/
def name : Dialect → String
  | generic => "generic"
  | interaction => "interaction"
  | query => "query"

/-- Every dialect. -/
def all : List Dialect := [generic, interaction, query]

/-- The dialect with a name, in any mix of ASCII upper and lower case. -/
def ofName? (text : String) : Option Dialect := all.find? (·.name == text.toLower)

end Dialect

/-- The targets and operators that filters may use. -/
structure Vocabulary where
  dialect : Dialect := .generic
  extraTargets : List String := []
  deriving DecidableEq, Repr, Inhabited

namespace Vocabulary

/-- Whether a name is `interaction.tag_tree.` followed by something. -/
def isTagTree (name : String) : Bool :=
  let stem := "interaction.tag_tree.".toList
  stem.isPrefixOf name.toList && stem.length < name.toList.length

/-- Whether a target may be used. -/
def admitsTarget (v : Vocabulary) (name : String) : Bool :=
  v.extraTargets.contains name ||
    match v.dialect with
    | .generic => (lookup? name).isSome
    | .interaction => (lookup? name).any (·.interaction)
    | .query => (lookup? name).any (·.query) || isTagTree name

/-- Whether an operator may be used. -/
def admitsOperator (_ : Vocabulary) (name : String) : Bool := operators.contains name

end Vocabulary

end StreamFilter
