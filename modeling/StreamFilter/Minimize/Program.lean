import StreamFilter.Minimize.Basic
import StreamFilter.Text.Blank
set_option autoImplicit false

/-!
# Minimizing by another program

The program gets the formula and a line end on its input.  It answers with a
formula, with `0` for one that never holds, or with `1` or nothing for one that
always holds.  A run is judged from what it left behind: whether it started and
ended in time, that its output is text, its exit status and what it complained
about, in this order.
-/

namespace StreamFilter

/-- How a program ended. -/
inductive ExitStatus where
  | code (n : Nat)
  | signal (n : Nat)
  deriving DecidableEq, Repr, Inhabited

namespace ExitStatus

/-- The names of the signals from 1 on. -/
def signalNames : List String :=
  ["SIGHUP", "SIGINT", "SIGQUIT", "SIGILL", "SIGTRAP", "SIGABRT", "SIGBUS", "SIGFPE", "SIGKILL",
   "SIGUSR1", "SIGSEGV", "SIGUSR2", "SIGPIPE", "SIGALRM", "SIGTERM", "SIGSTKFLT", "SIGCHLD",
   "SIGCONT", "SIGSTOP", "SIGTSTP", "SIGTTIN", "SIGTTOU", "SIGURG", "SIGXCPU", "SIGXFSZ",
   "SIGVTALRM", "SIGPROF", "SIGWINCH", "SIGIO", "SIGPWR", "SIGSYS"]

/-- The wording of an exit status. -/
def text : ExitStatus → String
  | code n => "exit status: " ++ n.repr
  | signal 0 => "signal: 0"
  | signal (n + 1) =>
    "signal: " ++ (n + 1).repr ++
      match signalNames[n]? with
      | some name => " (" ++ name ++ ")"
      | none => ""

end ExitStatus

/-- What became of a program that was run. -/
inductive Run where
  /-- It could not be started. -/
  | notStarted (reason : String)
  /-- It was stopped because its time was over. -/
  | timedOut
  /-- It ended and left output and complaints. -/
  | finished (output complaints : ByteArray) (status : ExitStatus)
  deriving Inhabited

/-- A program to run, with its arguments and how many milliseconds it gets. -/
structure Program where
  path : String
  arguments : List String := []
  limit : Nat := 5000
  deriving DecidableEq, Repr, Inhabited

namespace Program

/-- The fault of a program that failed. -/
def failure (p : Program) (reason : String) : Fault :=
  .minimizerFailed (p.path ++ ": " ++ reason)

/-- The answer that the output of a program stands for. -/
def answer (output : String) : Minimized :=
  let text := Text.trim output
  if text = "0" then .never
  else if text = "" ∨ text = "1" then .always
  else .formula text

/-- Output that has to be text. -/
def readOutput (p : Program) (bytes : ByteArray) : Except Fault String :=
  match String.fromUTF8? bytes with
  | some text => .ok text
  | none => .error (p.failure "stream did not contain valid UTF-8")

/-- The answer of a run.  No run ends within no time. -/
def judge (p : Program) : Run → Except Fault Minimized
  | .notStarted reason => .error (p.failure ("failed to start: " ++ reason))
  | .timedOut => .error (.minimizerTimedOut p.limit)
  | .finished output complaints status => do
    if p.limit = 0 then throw (.minimizerTimedOut p.limit)
    let text ← p.readOutput output
    let complaint := Text.trim (← p.readOutput complaints)
    if status ≠ .code 0 then throw (p.failure ("exited with " ++ status.text))
    if complaint ≠ "" then throw (p.failure complaint)
    return answer text

end Program

/-- A way to run programs: what becomes of a program with this input. -/
abbrev Runner : Type := Program → String → Run

/-- The minimizer that asks a program. -/
def Minimizer.external (run : Runner) (p : Program) : Minimizer where
  name := "process"
  minimize text := p.judge (run p (text ++ "\n"))

end StreamFilter
