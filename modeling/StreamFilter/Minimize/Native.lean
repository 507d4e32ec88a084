import StreamFilter.Formula.Parse
import StreamFilter.Minimize.Basic
import StreamFilter.Minimize.Exact
import StreamFilter.Minimize.Heuristic
set_option autoImplicit false

/-!
# The built-in minimizer

Formulas with few variables are minimized exactly, others heuristically.  A
formula with more than 64 variables, or one whose cubes get too many, is skipped.  A
variable without a position would be a fault.
-/

namespace StreamFilter

/-- The limits of the built-in minimizer. -/
structure Limits where
  /-- Formulas with up to this many variables are minimized exactly. -/
  exactVariables : Nat := 12
  /-- The longest list of cubes of heuristic minimization. -/
  cubes : Nat := 4096
  deriving DecidableEq, Repr, Inhabited

namespace Limits

/-- No points are listed for more variables than this. -/
def mostExact : Nat := 20

/-- The number of variables of a cube. -/
def mostVariables : Nat := 64

/-- Limits that are in force when others are asked for. -/
def clamped (l : Limits) : Limits := ⟨min l.exactVariables mostExact, max l.cubes 1⟩

end Limits

namespace Formula

/-- The formula with each name replaced by its position in a list. -/
def indexed (names : List String) (f : Formula String) : Formula Nat := f.map names.idxOf

/-- The formula with each position replaced by the name at it. -/
def named (names : List String) (f : Formula Nat) : Formula String :=
  f.map fun i => names.getD i ""

/-- The position of a name in a list. -/
def position (names : List String) (name : String) : Except Heuristic.Stop Nat :=
  match names.idxOf? name with
  | some i => .ok i
  | none => .error (.unindexed name)

/-- The minimized form of a formula over the positions of its variables. -/
def twoLevel (limits : Limits) (f : Formula String) : Except Heuristic.Stop TwoLevel :=
  let names := f.vars
  if Limits.mostVariables < names.length then .error .tooMany
  else if names.length ≤ limits.exactVariables then
    .ok (Exact.minimize names.length (f.indexed names))
  else Heuristic.minimize (position names) limits.cubes f

/-- The answer for a formula. -/
def answer (limits : Limits) (f : Formula String) : Except Fault Minimized :=
  match f.twoLevel limits with
  | .ok .never => .ok .never
  | .ok .always => .ok .always
  | .ok (.sum cubes) => .ok (.formula ((sumFormula cubes).named f.vars).text)
  | .error .tooMany => .ok .skipped
  | .error (.unindexed name) => .error (.minimizerFailed ("unindexed variable " ++ name))

end Formula

namespace Minimizer

/-- The built-in minimizer. -/
def native (limits : Limits) : Minimizer where
  name := "native"
  minimize text := do (← Formula.parse text).answer limits.clamped

end Minimizer

end StreamFilter
