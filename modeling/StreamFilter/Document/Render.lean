import StreamFilter.Document.Outcome
import StreamFilter.Filter.Csdl
import StreamFilter.Filter.Yaml
import StreamFilter.Json.Print
set_option autoImplicit false

/-!
# Writing documents

The filters that succeeded are written as lines of filter text, or as one JSON or
YAML document.  This is a filter by itself if the only result has no name, and a
batch otherwise.
-/

namespace StreamFilter

/-- The formats in which results are written. -/
inductive Format where
  | csdl
  | json
  | yaml
  deriving DecidableEq, Repr, Inhabited

namespace Format

/-- The name of a format. -/
def name : Format → String
  | csdl => "csdl"
  | json => "json"
  | yaml => "yaml"

/-- Every format. -/
def all : List Format := [csdl, json, yaml]

/-- The format with a name. -/
def ofName? (text : String) : Option Format := all.find? (·.name == text)

end Format

/-- Why results cannot be written. -/
inductive RenderFault where
  /-- A result has no filter text. -/
  | noText (cause : Fault)
  /-- A result has no YAML form. -/
  | noYaml
  deriving DecidableEq, Repr, Inhabited

namespace RenderFault

/-- The wording of a fault. -/
def message : RenderFault → String
  | noText _ => "CLI: Failed to write CSDL"
  | noYaml => "serializing nested enums in YAML is not supported yet"

/-- The wording of a fault and its cause. -/
def chain : RenderFault → String
  | noText cause => message (noText cause) ++ ": " ++ cause.message
  | noYaml => message noYaml

end RenderFault

namespace Document

/-- The line of a result. -/
def csdlLine (v : Vocabulary) (name : Option String) (f : Filter) : Except RenderFault String :=
  match f.csdl v with
  | .error e => .error (.noText e)
  | .ok text =>
    match name with
    | some n => .ok (n ++ ": " ++ text ++ "\n")
    | none => .ok (text ++ "\n")

/-- Results as lines of filter text. -/
def csdlLines (v : Vocabulary) : List (Option String × Filter) → Except RenderFault String
  | [] => .ok ""
  | (name, f) :: results => do
    let line ← csdlLine v name f
    let lines ← csdlLines v results
    return line ++ lines

/-- The names under which results stand in a batch. -/
def named (results : List (Option String × Filter)) : List (String × Filter) :=
  results.map fun (name, f) => (name.getD "", f)

/-- Results as a JSON document. -/
def jsonText : List (Option String × Filter) → String
  | [(none, f)] => f.toJson.pretty 0 ++ "\n"
  | results =>
    let members := (named results).map fun (name, f) => (name, f.toJson)
    (Json.object [("filters", .object members)]).pretty 0 ++ "\n"

/-- Results as a YAML document. -/
def yamlText (results : List (Option String × Filter)) : Except RenderFault String :=
  if results.all fun (_, f) => f.hasYaml then
    match results with
    | [] => .ok "filters: \x7b\x7d\n"
    | [(none, f)] => .ok (f.yamlLines .root)
    | results =>
      let lines := (named results).map fun (name, f) =>
        Yaml.keyText 2 name ++ f.yamlLines (.value 2)
      .ok ("filters:\n" ++ String.join lines)
  else .error .noYaml

/-- The text of the outcomes that succeeded. -/
def render (format : Format) (v : Vocabulary) (outcomes : List Outcome) :
    Except RenderFault String :=
  let results := outcomes.filterMap Outcome.success?
  match format with
  | .csdl => csdlLines v results
  | .json => .ok (jsonText results)
  | .yaml => yamlText results

end Document

end StreamFilter
