import StreamFilter.Document.Render
import StreamFilter.Settings.Basic
set_option autoImplicit false

/-!
# Options of the command line

Options take effect one after the other.  An option waits with its value until the
next option, and only then is its value looked at; so of two faults a word that is
no option comes first.
-/

namespace StreamFilter

/-- What the command line asks for. -/
structure Options where
  input : String
  output : Option String := none
  format : Format := .csdl
  config : Option String := none
  foldOnly : Bool := false
  dialect : Option Dialect := none
  program : Option String := none
  timeout : Option Nat := none
  threads : Option Nat := none
  verbose : Bool := false
  deriving Repr, Inhabited

/-- Why words are no command line, or what they ask for instead of a run. -/
inductive UsageFault where
  /-- A word is neither an option nor the value of one. -/
  | unknownArgument
  /-- An option has no value, or one that is never admitted. -/
  | invalidValue
  /-- The value of an option does not read as one. -/
  | valueValidation
  /-- An option is given twice. -/
  | argumentConflict
  /-- An option without value is given one. -/
  | tooManyValues
  /-- The input is not given. -/
  | missingRequiredArgument
  | help
  | version
  deriving DecidableEq, Repr, Inhabited

/-- The options. -/
inductive Switch where
  | input | output | format | config | foldOnly | dialect | program | timeout | threads | verbose
  | help | version
  deriving DecidableEq, Repr, Inhabited

namespace Switch

/-- Every option. -/
def all : List Switch :=
  [input, output, format, config, foldOnly, dialect, program, timeout, threads, verbose, help,
   version]

/-- The name of an option behind two dashes. -/
def long : Switch → String
  | input => "input"
  | output => "output"
  | format => "format"
  | config => "config"
  | foldOnly => "fold-only"
  | dialect => "dialect"
  | program => "minimizer-program"
  | timeout => "minimizer-timeout-ms"
  | threads => "threads"
  | verbose => "verbose"
  | help => "help"
  | version => "version"

/-- The letter of an option behind one dash. -/
def short? : Switch → Option Char
  | input => some 'i'
  | output => some 'o'
  | config => some 'c'
  | threads => some 't'
  | verbose => some 'v'
  | help => some 'h'
  | version => some 'V'
  | _ => none

/-- Whether an option has a value. -/
def takesValue : Switch → Bool
  | foldOnly | verbose | help | version => false
  | _ => true

/-- The option with a name. -/
def ofLong? (name : String) : Option Switch := all.find? (·.long == name)

/-- The option with a letter. -/
def ofShort? (letter : Char) : Option Switch := all.find? (·.short? == some letter)

end Switch

/-- The options given so far, and one that waits to take effect. -/
structure CommandLine where
  given : List Switch := []
  options : Options := { input := "" }
  waiting : Option (Switch × Option String) := none
  deriving Inhabited

namespace CommandLine

/-- The value of an option that was given one. -/
def orFault {α : Type} (e : UsageFault) : Option α → Except UsageFault α
  | some a => .ok a
  | none => .error e

/-- A path, which may not be empty. -/
def path (value : String) : Except UsageFault String :=
  if value.isEmpty then .error .invalidValue else .ok value

/-- A natural number of 64 bits. -/
def number (value : String) : Except UsageFault Nat :=
  orFault .valueValidation (Number.ofUnsigned? value.toList)

/-- Options with one of them set to a value. -/
def setValue (o : Options) (value : String) : Switch → Except UsageFault Options
  | .input => do return { o with input := ← path value }
  | .output => do return { o with output := ← path value }
  | .format => do return { o with format := ← orFault .invalidValue (Format.ofName? value) }
  | .config => do return { o with config := ← path value }
  | .dialect => do return { o with dialect := ← orFault .valueValidation (Dialect.ofName? value) }
  | .program => do return { o with program := ← path value }
  | .timeout => do return { o with timeout := ← number value }
  | .threads => do return { o with threads := ← number value }
  | .foldOnly => .ok { o with foldOnly := true }
  | .verbose => .ok { o with verbose := true }
  | .help => .error .help
  | .version => .error .version

/-- Lets an option take effect. -/
def apply (c : CommandLine) (s : Switch) (value : Option String) :
    Except UsageFault CommandLine := do
  if s.takesValue && value.isNone then throw .invalidValue
  if c.given.contains s then throw .argumentConflict
  return { c with given := s :: c.given, options := ← setValue c.options (value.getD "") s }

/-- Lets the option that waits take effect. -/
def settle (c : CommandLine) : Except UsageFault CommandLine :=
  match c.waiting with
  | none => .ok c
  | some (s, value) => apply { c with waiting := none } s value

/-- An option with its value in the same word, or without value. -/
def attached (c : CommandLine) (s : Switch) (value : Option String) :
    Except UsageFault CommandLine := do apply (← settle c) s value

/-- An option whose value is the next word. -/
def await (c : CommandLine) (s : Switch) : Except UsageFault CommandLine := do
  return { ← settle c with waiting := some (s, none) }

/-- Takes a word behind two dashes: a name, perhaps with a value behind `=`. -/
def takeLong (c : CommandLine) (word : List Char) : Except UsageFault CommandLine := do
  let name := word.takeWhile (· != '=')
  let value := match word.dropWhile (· != '=') with
    | _ :: value => some (String.ofList value)
    | [] => none
  let s ← orFault .unknownArgument (Switch.ofLong? (String.ofList name))
  match s.takesValue, value with
  | true, none => c.await s
  | false, some _ => throw .tooManyValues
  | _, value => c.attached s value

/-- Takes letters behind one dash: options without value, and then perhaps one with
its value. -/
def takeShort (c : CommandLine) : List Char → Except UsageFault CommandLine
  | [] => .ok c
  | letter :: rest => do
    let s ← orFault .unknownArgument (Switch.ofShort? letter)
    if s.takesValue then
      match rest with
      | [] => c.await s
      | '=' :: value => c.attached s (some (String.ofList value))
      | value => c.attached s (some (String.ofList value))
    else takeShort (← c.attached s none) rest

/-- Takes a word that is no option: the value of the option that waits for one. -/
def takeValue (c : CommandLine) (word : List Char) : Except UsageFault CommandLine :=
  match c.waiting with
  | some (s, none) => .ok { c with waiting := some (s, some (String.ofList word)) }
  | _ => .error .unknownArgument

/-- Takes words.  Behind two dashes alone every word is a stray one. -/
def takeWords (c : CommandLine) : List String → Except UsageFault CommandLine
  | [] => .ok c
  | word :: words => do
    match word.toList with
    | ['-', '-'] => if words.isEmpty then .ok c else throw .unknownArgument
    | '-' :: '-' :: name => takeWords (← c.takeLong name) words
    | '-' :: letter :: letters => takeWords (← c.takeShort (letter :: letters)) words
    | word => takeWords (← c.takeValue word) words

/-- The options that words ask for. -/
def parse (words : List String) : Except UsageFault Options := do
  let c ← settle (← takeWords {} words)
  if c.given.contains .input then return c.options else throw .missingRequiredArgument

end CommandLine

end StreamFilter
