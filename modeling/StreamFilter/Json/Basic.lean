import StreamFilter.Number.Basic
set_option autoImplicit false

/-!
# JSON values

An object keeps its members as they are written, repeated names included: what a
repetition means is for the reader of the object to say.
-/

namespace StreamFilter

/-- A JSON value. -/
inductive Json where
  | null
  | bool (value : Bool)
  | number (value : Number)
  | string (text : String)
  | array (items : List Json)
  | object (members : List (String × Json))
  deriving Repr, Inhabited

namespace Json

/-- A natural number as a value. -/
def nat (n : Nat) : Json := number (.whole n)

/-- A text, or `null` for none. -/
def optionalText : Option String → Json
  | some text => string text
  | none => null

/-- The last member of an object with a name. -/
def member? (name : String) : Json → Option Json
  | object members => (members.reverse.find? (·.1 == name)).map (·.2)
  | _ => none

/-- The text of a string value. -/
def text? : Json → Option String
  | string text => some text
  | _ => none

/-- The value of a truth value. -/
def bool? : Json → Option Bool
  | bool b => some b
  | _ => none

/-- The value of a number that is natural. -/
def nat? : Json → Option Nat
  | number (.whole (.ofNat n)) => some n
  | _ => none

/-- The items of an array. -/
def items? : Json → Option (List Json)
  | array items => some items
  | _ => none

end Json

end StreamFilter
