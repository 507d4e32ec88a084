import StreamFilter.Filter.Fold
import StreamFilter.Minimize.Basic
import StreamFilter.Skeleton.Extract
import StreamFilter.Skeleton.Restore
set_option autoImplicit false

/-!
# Optimizing filters

A filter is optimized by minimizing its skeleton, putting the conditions back and
folding the result.  There is no optimized form for a filter without truth value
or one that holds always, and a filter that never holds is a fault.
-/

namespace StreamFilter

/-- How much is done to a filter. -/
inductive Mode where
  | minimize
  | foldOnly
  deriving DecidableEq, Repr, Inhabited

/-- What optimizing depends on. -/
structure Optimizer where
  vocabulary : Vocabulary
  minimizer : Minimizer
  mode : Mode := .minimize

namespace Optimizer

/-- The filter that a minimizer's answer for a filter's skeleton stands for. -/
def rebuild (f : Filter) (vs : Variables) : Minimized → Except Fault (Option Filter)
  | .always => .ok none
  | .never => .error .neverMatches
  | .skipped => .ok (some f)
  | .formula text => (Formula.restore vs text).map some

/-- The optimized form of a filter, if it has one. -/
def optimize (o : Optimizer) (f : Filter) : Except Fault (Option Filter) := do
  match ← f.skeleton o.vocabulary with
  | none => return none
  | some s =>
    match o.mode with
    | .foldOnly => return some f.fold
    | .minimize =>
      let answer ← o.minimizer.minimize s.formula.text
      return (← rebuild f s.table answer).map Filter.fold

end Optimizer

end StreamFilter
