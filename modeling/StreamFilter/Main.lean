import StreamFilter.CommandLine.Run
set_option autoImplicit false

/-!
# The command line

Reads the files a run may ask for, runs it, and prints or writes its output.  This
command line starts no programs, so only the built-in minimizer can be used.
-/

namespace StreamFilter.Main

/-- The files that a run may read. -/
def filesOf (o : Options) : List String :=
  o.input ::
    match o.config with
    | some path => path :: Settings.readers.map fun (extension, _) => path ++ "." ++ extension
    | none => []

/-- The text of a file that can be read. -/
def readFile? (path : String) : IO (Option String) := do
  try return some (← IO.FS.readFile path) catch _ => return none

/-- The surroundings of a run. -/
def host (o : Options) : IO Host := do
  let mut files : List (String × String) := []
  for path in filesOf o do
    if let some text ← readFile? path then files := (path, text) :: files
  let mut environment : List (String × String) := []
  for setting in Settings.settingNames do
    let name := Settings.environmentName setting
    if let some value ← IO.getEnv name then environment := (name, value) :: environment
  let found := files
  return { file? := fun path => found.lookup path, environment,
           run := fun _ _ => .notStarted "programs are not supported" }

/-- Tells why a run failed. -/
def fail (e : RunFault) : IO UInt32 := do
  IO.eprintln ("Error: " ++ e.message)
  return 1

/-- Puts the output where it belongs, and tells whether that worked. -/
def deliver (destination : Option String) (text : String) : IO Bool := do
  match destination with
  | none =>
    (← IO.getStdout).putStr text
    return true
  | some path => try IO.FS.writeFile path text; return true catch _ => return false

/-- Runs with options. -/
def start (o : Options) : IO UInt32 := do
  match o.run (← host o) with
  | .error e => fail e
  | .ok findings =>
    for report in findings.reports do IO.eprintln report
    match findings.text with
    | .error e => fail (.render e)
    | .ok text =>
      if ← deliver o.destination text then return if findings.succeeded then 0 else 1
      else fail (.unwritable (o.destination.getD ""))

/-- How the command line is used. -/
def usage : String :=
  "Usage: csdl [OPTIONS] --input <INPUT>\n\nOptions:\n" ++
    String.join (Switch.all.map fun s =>
      "      --" ++ s.long ++ (if s.takesValue then " <VALUE>" else "") ++ "\n")

end StreamFilter.Main

open StreamFilter in
/-- Optimizes the filters of a document. -/
def main (words : List String) : IO UInt32 := do
  match CommandLine.parse words with
  | .ok o => Main.start o
  | .error .help =>
    IO.print Main.usage
    return 0
  | .error .version =>
    IO.println "csdl 0.1.0"
    return 0
  | .error _ =>
    IO.eprint Main.usage
    return 2
