import StreamFilter.Host
import StreamFilter.Json.Read
import StreamFilter.Settings.Decode
import StreamFilter.Settings.Layer
import StreamFilter.Text.Extension
import StreamFilter.Yaml.Version12.Value
set_option autoImplicit false

/-!
# Loading settings

Settings are read from a JSON or YAML file, if one is given, and then from the
environment.  A file that does not exist as named may be named without its
extension.
-/

namespace StreamFilter.Settings

/-! ## Files of values -/

/-- Members without those that a later one of the same name replaces. -/
def lastMembers : List (String × Json) → List (String × Json)
  | [] => []
  | (name, value) :: members =>
    if members.any (·.1 == name) then lastMembers members
    else (name, value) :: lastMembers members

mutual

/-- A value in which every member of an object has a name of its own. -/
def withLastMembers : Json → Json
  | .array items => .array (itemsWithLastMembers items)
  | .object members => .object (lastMembers (membersWithLastMembers members))
  | value => value

/-- Values in which every member of an object has a name of its own. -/
def itemsWithLastMembers : List Json → List Json
  | [] => []
  | item :: items => withLastMembers item :: itemsWithLastMembers items

/-- Members in whose values every member of an object has a name of its own. -/
def membersWithLastMembers : List (String × Json) → List (String × Json)
  | [] => []
  | (name, value) :: members => (name, withLastMembers value) :: membersWithLastMembers members

end

/-- The name that a key of a table is for a setting. -/
def nameOf? : Yaml.Value → Option String
  | .text text | .real text => some text
  | .natural n => some n.repr
  | .negative n => some (Number.wholeText (-(n : Int)))
  | .bool b => some (if b then "true" else "false")
  | _ => none

mutual

/-- A YAML value as a JSON value, if its keys are names and its numbers are floats. -/
def jsonOf? : Yaml.Value → Option Json
  | .null => some .null
  | .bool b => some (.bool b)
  | .natural n => some (.number (.whole n))
  | .negative n => some (.number (.whole (-(n : Int))))
  | .real text => (Number.ofFloat? text.toList).map .number
  | .text text => some (.string text)
  | .list items => (itemsOf? items).map .array
  | .table entries => (memberList? entries).map .object

/-- YAML values as JSON values. -/
def itemsOf? : List Yaml.Value → Option (List Json)
  | [] => some []
  | item :: items =>
    match jsonOf? item, itemsOf? items with
    | some value, some values => some (value :: values)
    | _, _ => none

/-- The entries of a table as members. -/
def memberList? : List (Yaml.Value × Yaml.Value) → Option (List (String × Json))
  | [] => some []
  | (key, value) :: entries =>
    match nameOf? key, jsonOf? value, memberList? entries with
    | some name, some value, some members => some ((name, value) :: members)
    | _, _, _ => none

end

/-- The value of a YAML file; one without a document holds no settings. -/
def yaml? (text : String) : Option Json := do
  match ← Yaml.Version12.parse text with
  | none => return .object []
  | some value => jsonOf? value

/-- The formats of settings files by their extensions. -/
def readers : List (String × (String → Option Json)) :=
  [("json", Json.parse), ("yaml", yaml?), ("yml", yaml?)]

/-! ## Files of settings -/

/-- A file and its extension: the one with the given name, or one whose name goes on
with an extension. -/
def findFile? (h : Host) (path : String) : Option (String × String) :=
  match h.file? path with
  | some text => some ((Text.extension? path).getD "", text)
  | none => readers.findSome? fun (extension, _) =>
      (h.file? (path ++ "." ++ extension)).map fun text => (extension, text)

/-- A text without the mark that tells the order of its bytes. -/
def withoutByteOrderMark (text : String) : String :=
  match text.toList with
  | c :: cs => if c.toNat = 0xFEFF then String.ofList cs else text
  | [] => text

/-- The members of the table in a settings file. -/
def readFile? (h : Host) (path : String) : Option (List (String × Json)) := do
  let (extension, text) ← findFile? h path
  let read ← readers.lookup extension
  match (← read (withoutByteOrderMark text)) with
  | .object members => return lastMembers (membersWithLastMembers members)
  | _ => none

/-- The settings of a file, if one is given, and of the environment. -/
def load (h : Host) (path : Option String) : Except SettingsFault Settings := do
  let file ← match path with
    | none => .ok []
    | some path =>
      match readFile? h path with
      | some members => .ok members
      | none => .error .unreadable
  let table := overlay (overlay (.object []) file) (environmentLayer h.environment)
  match ofTable? table with
  | some s => return s
  | none => throw .invalid

end StreamFilter.Settings
