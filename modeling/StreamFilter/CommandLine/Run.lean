import StreamFilter.CommandLine.Options
import StreamFilter.Settings.Load
set_option autoImplicit false

/-!
# Runs of the command line

A run loads the settings, reads the document, optimizes its filters and renders the
results.  What it wants to have printed or written is part of its result; so is
whether every filter succeeded.
-/

namespace StreamFilter

/-- Why a run failed. -/
inductive RunFault where
  | settings (cause : SettingsFault)
  | document (cause : DocumentFault)
  | optimizer (cause : SettingsFault)
  | render (cause : RenderFault)
  | unwritable (path : String)
  deriving Repr, Inhabited

namespace RunFault

/-- The wording of a fault. -/
def message : RunFault → String
  | settings cause => cause.message
  | document cause => cause.message
  | optimizer cause => cause.message
  | render cause => cause.message
  | unwritable path => "CLI: Failed to write " ++ path

end RunFault

namespace Options

/-- Settings with what the command line asks for instead. -/
def override (o : Options) (s : Settings) : Settings where
  dialect := o.dialect.getD s.dialect
  extraTargets := s.extraTargets
  foldOnly := o.foldOnly || s.foldOnly
  minimizer := {
    s.minimizer with
    kind := if o.program.isSome then .process else s.minimizer.kind
    program := o.program <|> s.minimizer.program
    timeout := o.timeout.getD s.minimizer.timeout }

/-- The settings of a run. -/
def settings (h : Host) (o : Options) : Except SettingsFault Settings := do
  return o.override (← Settings.load h o.config)

/-- The file that the output goes to, if it is not printed. -/
def destination (o : Options) : Option String := o.output.filter (· != "-")

end Options

/-- What a run found out. -/
structure Findings where
  document : Document
  outcomes : List Outcome
  /-- The results in the format that was asked for. -/
  text : Except RenderFault String

namespace Findings

/-- The reports of the filters that failed. -/
def reports (r : Findings) : List String := r.outcomes.filterMap Outcome.report?

/-- Whether every filter succeeded. -/
def succeeded (r : Findings) : Bool := r.reports.isEmpty

end Findings

/-- Everything a run does but for its output. -/
def Options.run (h : Host) (o : Options) : Except RunFault Findings := do
  let s ← (o.settings h).mapError .settings
  let document ← (Document.read h o.input).mapError .document
  let optimizer ← (s.build h.run).mapError .optimizer
  let outcomes := optimizer.outcomes document
  return ⟨document, outcomes, Document.render o.format s.vocabulary outcomes⟩

end StreamFilter
