import StreamFilter.Filter.Connective
import StreamFilter.Formula.Parse
import StreamFilter.Skeleton.Variables
set_option autoImplicit false

/-!
# From a formula back to a filter

Puts the filters that variables stand for in their places.  A negated variable
becomes the filter that denies its atom, and a connective below another goes into
a group.
-/

namespace StreamFilter.Formula

/-- What a variable stands for. -/
def lookup (vs : Variables) (name : String) : Except Fault Variable :=
  match vs.find? name with
  | some x => .ok x
  | none => .error (.unreadable 0 ("unknown variable " ++ name))

mutual

/-- The filter of a formula over known variables. -/
def toFilter (vs : Variables) : Formula String → Except Fault Filter
  | var name => do return (← lookup vs name).stated
  | not (var name) => do return (← lookup vs name).denied
  | not f => do return .not [(← toFilter vs f).parenthesized]
  | and fs => do return .and (← toFilters vs fs)
  | or fs => do return .or (← toFilters vs fs)

/-- The filters of the parts of a connective. -/
def toFilters (vs : Variables) : List (Formula String) → Except Fault (List Filter)
  | [] => return []
  | f :: fs => do
    let first ← toFilter vs f
    let others ← toFilters vs fs
    return first.parenthesized :: others

end

/-- The filter of formula text over known variables. -/
def restore (vs : Variables) (text : String) : Except Fault Filter := do
  (← parse text).toFilter vs

end StreamFilter.Formula
