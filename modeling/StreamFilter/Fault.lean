import StreamFilter.Filter.Basic
import StreamFilter.Text.Duration
set_option autoImplicit false

/-!
# What can go wrong

A `Fault` names the cause why a filter has no text, no formula or no optimized
form.  Its wording is `Fault.message`.  The first six causes lie in the filter
itself, the last three in a minimizer or its answer.
-/

namespace StreamFilter

/-- Why a filter could not be processed. -/
inductive Fault where
  /-- A node has fewer children than it needs. -/
  | missingChildren (parent : Kind) (expected found : Nat)
  /-- A part of a condition stands where a filter has to stand. -/
  | invalidChild (parent child : Kind)
  /-- The vocabulary has no such operator. -/
  | unknownOperator (name : String)
  /-- The vocabulary has no such target. -/
  | unknownTarget (name : String)
  /-- A node lacks what its kind demands. -/
  | malformed (kind : Kind) (reason : String)
  /-- The filter is false whatever holds. -/
  | neverMatches
  /-- A minimizer gave up. -/
  | minimizerFailed (detail : String)
  /-- A minimizer was stopped after this many milliseconds. -/
  | minimizerTimedOut (limit : Nat)
  /-- Formula text does not read as a formula at this byte offset. -/
  | unreadable (offset : Nat) (detail : String)
  deriving DecidableEq, Repr, Inhabited

namespace Fault

/-- The wording of a fault. -/
def message : Fault → String
  | missingChildren parent expected found =>
    ":" ++ parent.name ++ " nodes must contain at least " ++ expected.repr ++
      " child nodes. Expected >= " ++ expected.repr ++ ", got " ++ found.repr
  | invalidChild parent child =>
    ":" ++ parent.name ++ " cannot have :" ++ child.name ++ " as a child"
  | unknownOperator name => "Operator " ++ name ++ " is unknown"
  | unknownTarget name => "Target '" ++ name ++ "' is not a known target type"
  | malformed kind reason => "Malformed :" ++ kind.name ++ " node: " ++ reason
  | neverMatches => "Filter can never match: the expression is always false"
  | minimizerFailed detail => "Minimizer failed: " ++ detail
  | minimizerTimedOut limit => "Minimizer did not finish within " ++ Text.milliseconds limit
  | unreadable offset detail =>
    "Cannot parse minimized expression at offset " ++ offset.repr ++ ": " ++ detail

/-- Whether the filter itself is to blame, and not a minimizer. -/
def blamesFilter : Fault → Bool
  | minimizerFailed _ | minimizerTimedOut _ | unreadable _ _ => false
  | _ => true

end Fault

end StreamFilter
