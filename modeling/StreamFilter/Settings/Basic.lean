import StreamFilter.Minimize.Native
import StreamFilter.Minimize.Program
import StreamFilter.Optimize
set_option autoImplicit false

/-!
# Settings

Which vocabulary filters are checked against, and how they are minimized.
-/

namespace StreamFilter

/-- The sorts of minimizer. -/
inductive MinimizerKind where
  /-- The built-in one. -/
  | native
  /-- Another program. -/
  | process
  deriving DecidableEq, Repr, Inhabited

namespace MinimizerKind

/-- The name of a sort of minimizer. -/
def name : MinimizerKind → String
  | native => "native"
  | process => "process"

/-- Every sort of minimizer. -/
def all : List MinimizerKind := [native, process]

/-- The sort with a name, in upper or lower case. -/
def ofName? (text : String) : Option MinimizerKind := all.find? (·.name == text.toLower)

end MinimizerKind

/-- Which minimizer to use, and how. -/
structure MinimizerSettings where
  kind : MinimizerKind := .native
  program : Option String := none
  arguments : List String := []
  /-- How many milliseconds a program gets. -/
  timeout : Nat := 5000
  limits : Limits := {}
  deriving DecidableEq, Repr, Inhabited

/-- The settings of an optimizer. -/
structure Settings where
  dialect : Dialect := .generic
  extraTargets : List String := []
  foldOnly : Bool := false
  minimizer : MinimizerSettings := {}
  deriving DecidableEq, Repr, Inhabited

/-- Why settings cannot be used. -/
inductive SettingsFault where
  /-- There is no file of settings that can be read. -/
  | unreadable
  /-- A setting has a value that it cannot have. -/
  | invalid
  /-- No program is given to minimize with. -/
  | noProgram
  deriving DecidableEq, Repr, Inhabited

namespace SettingsFault

/-- The wording of a fault. -/
def message : SettingsFault → String
  | unreadable => "Config: Failed to read settings"
  | invalid => "Config: Invalid settings"
  | noProgram => "Config: minimizer.program is required for the process minimizer"

end SettingsFault

namespace MinimizerSettings

/-- The minimizer that settings ask for. -/
def build (run : Runner) (s : MinimizerSettings) : Except SettingsFault Minimizer :=
  match s.kind, s.program with
  | .native, _ => .ok (.native s.limits)
  | .process, some path => .ok (.external run ⟨path, s.arguments, s.timeout⟩)
  | .process, none => .error .noProgram

end MinimizerSettings

namespace Settings

/-- The vocabulary that filters are checked against. -/
def vocabulary (s : Settings) : Vocabulary := ⟨s.dialect, s.extraTargets⟩

/-- How much is done to a filter. -/
def mode (s : Settings) : Mode := if s.foldOnly then .foldOnly else .minimize

/-- The optimizer that settings ask for. -/
def build (run : Runner) (s : Settings) : Except SettingsFault Optimizer := do
  return ⟨s.vocabulary, ← s.minimizer.build run, s.mode⟩

end Settings

end StreamFilter
