import StreamFilter.Json.Basic
import StreamFilter.Number.Read
import StreamFilter.Shorter
set_option autoImplicit false

/-!
# Layers of settings

Settings come from a file and from the environment.  Each source says what stands
at some paths of a table of settings, and a later one wins: a table is merged into
what stands there, and everything else replaces it.
-/

namespace StreamFilter.Settings

/-- A member of a table in place of the one with its name, or behind the others. -/
def putMember (name : String) (value : Json) : List (String × Json) → List (String × Json)
  | [] => [(name, value)]
  | (other, old) :: members =>
    if other = name then (name, value) :: members
    else (other, old) :: putMember name value members

/-- The members of a table; anything else counts as an empty table. -/
def membersOf : Json → List (String × Json)
  | .object members => members
  | _ => []

/-- What stands under a name. -/
def valueAt (name : String) (table : Json) : Json :=
  ((membersOf table).lookup name).getD .null

mutual

/-- A value put in place of another. -/
def merge (old : Json) : Json → Json
  | .object members => mergeMembers (.object (membersOf old)) members
  | value => value

/-- Members put into a table, one after the other. -/
def mergeMembers (table : Json) : List (String × Json) → Json
  | [] => table
  | (name, value) :: members =>
    mergeMembers (.object (putMember name (merge (valueAt name table) value) (membersOf table)))
      members

end

/-- The items of a list; anything else counts as an empty list. -/
def itemsOf : Json → List Json
  | .array items => items
  | _ => []

/-- One step of a path. -/
inductive Step where
  /-- The member of a table with a name. -/
  | member (name : String)
  /-- The item of a list with a number; a negative number counts from the end. -/
  | item (index : Int)
  deriving DecidableEq, Repr, Inhabited

/-- A list that has an item with the given number, by adding nothings behind or in
front, and the position of the item. -/
def withItem (index : Int) (items : List Json) : List Json × Nat :=
  match index with
  | .ofNat position =>
    (items ++ List.replicate (position + 1 - items.length) .null, position)
  | .negSucc n =>
    (List.replicate (n + 1 - items.length) .null ++ items, items.length - (n + 1))

/-- A value put at a path of a table. -/
def putAt (table : Json) (value : Json) : List Step → Json
  | [] => merge table value
  | .member name :: path =>
    .object (putMember name (putAt (valueAt name table) value path) (membersOf table))
  | .item index :: path =>
    let (items, position) := withItem index (itemsOf table)
    .array (items.set position (putAt (items[position]?.getD .null) value path))

/-! ## Paths -/

/-- The characters of names in a path. -/
def isPathChar (c : Char) : Bool := c.isAlphanum || c == '_' || c == '-'

/-- The blanks that may stand around the number of an item. -/
def isPathBlank (c : Char) : Bool := c == ' ' || c == '\t'

/-- The number of an item that characters spell: digits, perhaps after a minus sign,
and blanks around them. -/
def itemIndex? (cs : List Char) : Option Int :=
  let cs := ((cs.dropWhile isPathBlank).reverse.dropWhile isPathBlank).reverse
  if cs.head? = some '+' then none else Number.ofSigned? cs

/-- The steps behind the first name of a path. -/
def stepsOf? (cs : List Char) : Option (List Step) :=
  match cs with
  | [] => some []
  | '.' :: rest =>
    if (rest.takeWhile isPathChar).isEmpty then none
    else do
      let steps ← stepsOf? (rest.dropWhile isPathChar)
      return .member (String.ofList (rest.takeWhile isPathChar)) :: steps
  | '[' :: rest => do
    let index ← itemIndex? (rest.takeWhile (· != ']'))
    if (rest.dropWhile (· != ']')).isEmpty then none
    else return .item index :: (← stepsOf? ((rest.dropWhile (· != ']')).drop 1))
  | _ => none
termination_by cs.length
decreasing_by
  · exact Nat.lt_succ_of_le (length_dropWhile_le _ _)
  · exact Nat.lt_succ_of_le (Nat.le_trans (length_drop_le _ _) (length_dropWhile_le _ _))

/-- The path that a name stands for: names behind points and numbers of items in
brackets.  A name that is no path stands for itself. -/
def pathOf (name : String) : List Step :=
  let first := name.toList.takeWhile isPathChar
  match stepsOf? (name.toList.dropWhile isPathChar) with
  | some steps => if first.isEmpty then [.member name] else .member (String.ofList first) :: steps
  | none => [.member name]

/-- The members of a source put into a table. -/
def overlay (table : Json) (source : List (String × Json)) : Json :=
  source.foldl (fun t (name, value) => putAt t value (pathOf name)) table

/-! ## The environment -/

/-- What the names of environment variables for settings start with. -/
def environmentStart : String := "csdl__"

/-- The settings that are lists, whose values are cut at commas. -/
def listNames : List String := ["extra_targets", "minimizer.args"]

/-- The settings that have a value of their own. -/
def settingNames : List String :=
  ["dialect", "extra_targets", "fold_only", "minimizer.kind", "minimizer.program",
   "minimizer.args", "minimizer.timeout_ms", "minimizer.exact_variable_limit",
   "minimizer.max_cubes"]

/-- The environment variable for a setting, as it is usually written. -/
def environmentName (setting : String) : String :=
  (environmentStart ++ "__".intercalate (setting.splitOn ".")).toUpper

/-- Lower case as far as the names of settings can tell: besides the letters from
`A` to `Z`, the sign of the unit kelvin is a capital k. -/
def lowerLetter (c : Char) : Char := if c.toNat = 0x212A then 'k' else c.toLower

/-- The setting that an environment variable is for. -/
def settingName? (entry : String) : Option String :=
  let name := entry.map lowerLetter
  if environmentStart.toList.isPrefixOf name.toList then
    some (".".intercalate ((String.ofList (name.toList.drop environmentStart.length)).splitOn "__"))
  else none

/-- The value that the text of an environment variable stands for. -/
def environmentValue (name text : String) : Json :=
  if text.toLower = "true" then .bool true
  else if text.toLower = "false" then .bool false
  else
    match Number.ofSigned? text.toList with
    | some n => .number (.whole n)
    | none =>
      match Number.ofFloat? text.toList with
      | some x => .number x
      | none =>
        if listNames.contains name then .array ((text.splitOn ",").map .string)
        else .string text

/-- The settings of the environment. -/
def environmentLayer (environment : List (String × String)) : List (String × Json) :=
  environment.filterMap fun (entry, text) =>
    (settingName? entry).map fun name => (name, environmentValue name text)

end StreamFilter.Settings
