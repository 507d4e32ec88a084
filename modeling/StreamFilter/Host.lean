import StreamFilter.Minimize.Program
set_option autoImplicit false

/-!
# The surroundings of a run

What a run sees of the machine: the files it reads, the environment, and what
becomes of programs it starts.
-/

namespace StreamFilter

/-- The surroundings of a run. -/
structure Host where
  /-- The text of a file that can be read. -/
  file? : String → Option String
  /-- The environment variables. -/
  environment : List (String × String)
  /-- What becomes of a program. -/
  run : Runner

end StreamFilter
