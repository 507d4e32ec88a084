import StreamFilter.Fault
set_option autoImplicit false

/-!
# Minimizers

A minimizer takes the text of a formula and answers with the text of an
equivalent one, or tells that the formula is constant, or declines.
-/

namespace StreamFilter

/-- The answer of a minimizer. -/
inductive Minimized where
  /-- The text of an equivalent formula. -/
  | formula (text : String)
  /-- The formula holds under every assignment. -/
  | always
  /-- The formula holds under no assignment. -/
  | never
  /-- The formula is beyond the minimizer and stays as it is. -/
  | skipped
  deriving DecidableEq, Repr, Inhabited

/-- A way to minimize formula text. -/
structure Minimizer where
  name : String
  minimize : String → Except Fault Minimized

end StreamFilter
