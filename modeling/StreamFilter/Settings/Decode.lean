import StreamFilter.Json.Basic
import StreamFilter.Settings.Basic
set_option autoImplicit false

/-!
# Settings as values

Values are taken generously: a text may stand for a number or a truth value, a
number for a text, and a table may be given as a list of its values in order.
Members that are no settings are ignored, and missing ones have their defaults.
-/

namespace StreamFilter.Settings

/-- The words for yes. -/
def yesWords : List String := ["true", "on", "yes"]

/-- The words for no. -/
def noWords : List String := ["false", "off", "no"]

/-- The truth value that a value stands for. -/
def boolOf? : Json → Option Bool
  | .bool b => some b
  | .number (.whole value) => some (value != 0)
  | .number (.float value) => some !value.isZero
  | .number _ => some true
  | .string text =>
    if ("1" :: yesWords).contains text.toLower then some true
    else if ("0" :: noWords).contains text.toLower then some false
    else none
  | _ => none

/-- The natural number that a number stands for: fractions are rounded and floats
brought into the range of 64 bits. -/
def naturalOf? : Number → Option Nat
  | .whole value => if 0 ≤ value then some value.toNat else none
  | .float value => some (min value.round.toNat (Number.unsignedBound - 1))
  | .infinite negative => some (if negative then 0 else Number.unsignedBound - 1)
  | .undefined => some 0

/-- The natural number that a value stands for. -/
def natOf? : Json → Option Nat
  | .number x => naturalOf? x
  | .bool b => some (if b then 1 else 0)
  | .string text =>
    if yesWords.contains text.toLower then some 1
    else if noWords.contains text.toLower then some 0
    else Number.ofUnsigned? text.toList
  | _ => none

/-- The text that a value stands for. -/
def textOf? : Json → Option String
  | .string text => some text
  | .bool b => some (if b then "true" else "false")
  | .number x => some x.positionalText
  | _ => none

/-- The texts that a list stands for. -/
def textsOf? : Json → Option (List String)
  | .array items => items.mapM textOf?
  | _ => none

/-- The choice that a value names, by itself or as the only name of a table. -/
def choiceOf? {α : Type} (choices : List α) (name : α → String) : Json → Option α
  | .string text => choices.find? (name · == text)
  | .object [(text, _)] => choices.find? (name · == text)
  | _ => none

/-- A text or nothing. -/
def optionalTextOf? : Json → Option (Option String)
  | .null => some none
  | value => (textOf? value).map some

/-- The values of some settings: by name from a table, in order from a list. -/
def fieldsOf? (names : List String) : Json → Option (List (Option Json))
  | .object members => some (names.map fun name => members.lookup name)
  | .array items => some (names.zipIdx.map fun (_, i) => items[i]?)
  | _ => none

/-- What a value stands for, or a default where there is none. -/
def orDefault {α : Type} (default : α) (read : Json → Option α) : Option Json → Option α
  | none => some default
  | some value => read value

/-- The settings of a minimizer that a value stands for. -/
def minimizerOf? (value : Json) : Option MinimizerSettings := do
  let d : MinimizerSettings := {}
  match ← fieldsOf? ["kind", "program", "args", "timeout_ms", "exact_variable_limit",
      "max_cubes"] value with
  | [kind, program, arguments, timeout, exactVariables, cubes] =>
    return {
      kind := ← orDefault d.kind (choiceOf? MinimizerKind.all MinimizerKind.name) kind
      program := ← orDefault d.program optionalTextOf? program
      arguments := ← orDefault d.arguments textsOf? arguments
      timeout := ← orDefault d.timeout natOf? timeout
      limits := {
        exactVariables := ← orDefault d.limits.exactVariables natOf? exactVariables
        cubes := ← orDefault d.limits.cubes natOf? cubes } }
  | _ => none

/-- The settings that a table stands for. -/
def ofTable? (value : Json) : Option Settings := do
  let d : Settings := {}
  match ← fieldsOf? ["dialect", "extra_targets", "fold_only", "minimizer"] value with
  | [dialect, extraTargets, foldOnly, minimizer] =>
    return {
      dialect := ← orDefault d.dialect (choiceOf? Dialect.all Dialect.name) dialect
      extraTargets := ← orDefault d.extraTargets textsOf? extraTargets
      foldOnly := ← orDefault d.foldOnly boolOf? foldOnly
      minimizer := ← orDefault d.minimizer minimizerOf? minimizer }
  | _ => none

end StreamFilter.Settings
