import StreamFilter.Ascending
import StreamFilter.Filter.Json
import StreamFilter.Filter.Yaml
import StreamFilter.Host
import StreamFilter.Json.Read
import StreamFilter.Text.Extension
set_option autoImplicit false

/-!
# Filter documents

A document is one filter, or several filters under their names.  The filters of a
batch stand in the order of their names, and the last one of a name counts.
-/

namespace StreamFilter

/-- The filters of a file. -/
inductive Document where
  | single (filter : Filter)
  | batch (filters : List (String × Filter))
  deriving Repr, Inhabited

/-- Why a file is no document. -/
inductive DocumentFault where
  | unreadable (path : String)
  | badJson (path : String)
  | badYaml (path : String)
  | unknownFormat (path : String)
  deriving DecidableEq, Repr, Inhabited

namespace DocumentFault

/-- The wording of a fault. -/
def message : DocumentFault → String
  | unreadable path => "CLI: Failed to read " ++ path
  | badJson path => "CLI: Invalid JSON filter file " ++ path
  | badYaml path => "CLI: Invalid YAML filter file " ++ path
  | unknownFormat path =>
    "CLI: Could not detect input format of " ++ path ++ "; use .json, .yaml or .yml"

end DocumentFault

namespace Document

/-- The last filter of a name. -/
def last? (name : String) (filters : List (String × Filter)) : Option Filter :=
  (filters.reverse.find? (·.1 == name)).map (·.2)

/-- Filters in the order of their names, each name once. -/
def byName (filters : List (String × Filter)) : List (String × Filter) :=
  (ascendingTexts (filters.map (·.1))).filterMap fun name =>
    (last? name filters).map fun f => (name, f)

/-- The filters of the members of an object. -/
def filtersOf? : List (String × Json) → Option (List (String × Filter))
  | [] => some []
  | (name, value) :: members =>
    match Filter.ofJson value, filtersOf? members with
    | .ok f, some filters => some ((name, f) :: filters)
    | _, _ => none

/-- The filters of a batch: what stands under the only member `filters`. -/
def batchOf? : Json → Option (List (String × Filter))
  | .object members =>
    match members.filter (·.1 == "filters") with
    | [(_, .object filters)] => (filtersOf? filters).map byName
    | _ => none
  | _ => none

/-- The document that a value stands for: a batch if it can be one, or else a
filter. -/
def ofJson? (value : Json) : Option Document :=
  match batchOf? value with
  | some filters => some (batch filters)
  | none =>
    match Filter.ofJson value with
    | .ok f => some (single f)
    | .error _ => none

/-- The filters of the entries of a table, whose keys have to be texts. -/
def filtersOfYaml? : List (Yaml.Value × Yaml.Value) → Option (List (String × Filter))
  | [] => some []
  | (key, value) :: entries =>
    match key, Filter.ofYaml? value, filtersOfYaml? entries with
    | .text name, some f, some filters => some ((name, f) :: filters)
    | _, _, _ => none

/-- Whether a key names the filters of a batch, or numbers them as its first and only
field.  It has to be a text or a natural number. -/
def namesFilters? : Yaml.Value → Option Bool
  | .text name => some (name == "filters")
  | .natural n => some (n == 0)
  | _ => none

/-- The filters of a batch in a table: what stands under the only key for them. -/
def batchOfYaml? : Yaml.Value → Option (List (String × Filter))
  | .table entries =>
    if entries.all fun entry => (namesFilters? entry.1).isSome then
      match entries.filter fun entry => namesFilters? entry.1 == some true with
      | [(_, .table filters)] => (filtersOfYaml? filters).map byName
      | _ => none
    else none
  | _ => none

/-- The document that a YAML value stands for: a batch if it can be one, or else a
filter. -/
def ofYaml? (value : Yaml.Value) : Option Document :=
  match batchOfYaml? value with
  | some filters => some (batch filters)
  | none => (Filter.ofYaml? value).map single

/-- The document in a file of a name, which tells the format. -/
def parse (path text : String) : Except DocumentFault Document :=
  match (Text.extension? path).map String.toLower with
  | some "json" => ((Json.parse text).bind ofJson?).elim (.error (.badJson path)) .ok
  | some "yaml" | some "yml" =>
    ((Yaml.Version11.parse text).bind ofYaml?).elim (.error (.badYaml path)) .ok
  | _ => .error (.unknownFormat path)

/-- Reads the document in a file. -/
def read (h : Host) (path : String) : Except DocumentFault Document :=
  match h.file? path with
  | some text => parse path text
  | none => .error (.unreadable path)

/-- Whether a document holds filters under names. -/
def isBatch : Document → Bool
  | single _ => false
  | batch _ => true

/-- The filters of a document with their names. -/
def entries : Document → List (Option String × Filter)
  | single f => [(none, f)]
  | batch filters => filters.map fun (name, f) => (some name, f)

end Document

end StreamFilter
