import StreamFilter.Document.Basic
import StreamFilter.Optimize
set_option autoImplicit false

/-!
# Optimizing documents

Every filter of a document is optimized by itself.  A filter without an optimized
form stays as it is, and a fault of one filter is reported under its name.
-/

namespace StreamFilter

/-- What became of a filter. -/
structure Outcome where
  name : Option String
  result : Except Fault Filter

namespace Outcome

/-- The name of a filter in reports. -/
def label (o : Outcome) : String := o.name.getD "filter"

/-- The report of a filter that failed. -/
def report? (o : Outcome) : Option String :=
  match o.result with
  | .ok _ => none
  | .error e =>
    let blame := if e.blamesFilter then "" else "internal error: "
    some (o.label ++ ": " ++ blame ++ e.message)

/-- The name and result of a filter that succeeded. -/
def success? (o : Outcome) : Option (Option String × Filter) :=
  match o.result with
  | .ok f => some (o.name, f)
  | .error _ => none

end Outcome

namespace Optimizer

/-- A filter's optimized form, or the filter itself if it has none. -/
def improve (o : Optimizer) (f : Filter) : Except Fault Filter := do
  return (← o.optimize f).getD f

/-- What becomes of each filter of a document. -/
def outcomes (o : Optimizer) (d : Document) : List Outcome :=
  d.entries.map fun (name, f) => ⟨name, o.improve f⟩

end Optimizer

end StreamFilter
