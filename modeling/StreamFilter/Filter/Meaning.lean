import StreamFilter.Ascending
import StreamFilter.Filter.Connective
import StreamFilter.Text.Quoted
import StreamFilter.Text.WordList
set_option autoImplicit false

/-!
# The meaning of a filter

An atom is the canonical text of a condition, or a piece of verbatim text.  Given
which atoms hold, a filter has a truth value, `Filter.holds`.  A list condition
(`contains_any`, `contains_all`) stands for the `contains` atoms of its words.

`Filter.atoms` lists the atoms that a filter mentions.
-/

namespace StreamFilter

/-- The canonical text of a condition. -/
def conditionText (target operator : String) (argument : Option String) : String :=
  match argument with
  | some text => target ++ " " ++ operator ++ " " ++ Text.quote text
  | none => target ++ " " ++ operator

namespace Triple

/-- The canonical text of a triple. -/
def text (t : Triple) : String := conditionText t.target t.operator t.argument

/-- The condition that a target contains a word. -/
def containing (target word : String) : Triple := ⟨target, "contains", some word⟩

/-- A list condition as the `contains` conditions of its words and the
connective that joins them. -/
def expansion? (t : Triple) : Option (Connective × List Triple) :=
  match t.argument with
  | some list =>
    if t.operator = "contains_any" then
      some (.or, (Text.WordList.words list).map (containing t.target))
    else if t.operator = "contains_all" then
      some (.and, (Text.WordList.words list).map (containing t.target))
    else none
  | none => none

/-- The truth value of a triple. -/
def holds (truths : String → Bool) (t : Triple) : Bool :=
  match t.expansion? with
  | some (c, parts) => c.value (fun p => truths p.text) parts
  | none => truths t.text

/-- The atoms of a triple. -/
def atoms (t : Triple) : List String :=
  match t.expansion? with
  | some (_, parts) => parts.map text
  | none => [t.text]

end Triple

namespace Filter

mutual

/-- The truth value of a filter, given which atoms hold.  A group and a negation
look at their first child only; what has no value is false. -/
def holds (truths : String → Bool) : Filter → Bool
  | and cs => allHold truths cs
  | or cs => anyHolds truths cs
  | group cs => firstHolds truths cs
  | not cs =>
    match startsWithTarget cs, triple? cs with
    | true, some t => !t.holds truths
    | _, _ => !firstHolds truths cs
  | condition cs => (triple? cs).any (·.holds truths)
  | raw text => truths text
  | target _ | operator _ | argument _ | string _ => false

/-- Whether every filter of a list holds. -/
def allHold (truths : String → Bool) : List Filter → Bool
  | [] => true
  | f :: fs => f.holds truths && allHold truths fs

/-- Whether some filter of a list holds. -/
def anyHolds (truths : String → Bool) : List Filter → Bool
  | [] => false
  | f :: fs => f.holds truths || anyHolds truths fs

/-- Whether the first filter of a list holds. -/
def firstHolds (truths : String → Bool) : List Filter → Bool
  | [] => false
  | f :: _ => f.holds truths

end

theorem allHold_eq (truths : String → Bool) (fs : List Filter) :
    allHold truths fs = fs.all (·.holds truths) := by
  induction fs with
  | nil => rfl
  | cons f fs ih => simp [allHold, ih]

theorem anyHolds_eq (truths : String → Bool) (fs : List Filter) :
    anyHolds truths fs = fs.any (·.holds truths) := by
  induction fs with
  | nil => rfl
  | cons f fs ih => simp [anyHolds, ih]

theorem firstHolds_eq (truths : String → Bool) (fs : List Filter) :
    firstHolds truths fs = fs.head?.any (·.holds truths) := by
  cases fs <;> rfl

mutual

/-- The atoms met in a filter, in order and with repetition. -/
def occurrences : Filter → List String
  | condition cs =>
    match triple? cs with
    | some t => t.atoms
    | none => occurrencesAll cs
  | not cs =>
    match startsWithTarget cs, triple? cs with
    | true, some t => t.atoms
    | _, _ => occurrencesAll cs
  | and cs | or cs | group cs => occurrencesAll cs
  | argument content => occurrences content
  | raw text => [text]
  | target _ | operator _ | string _ => []

/-- The atoms met in a list of filters. -/
def occurrencesAll : List Filter → List String
  | [] => []
  | f :: fs => occurrences f ++ occurrencesAll fs

end

theorem occurrencesAll_eq (fs : List Filter) : occurrencesAll fs = fs.flatMap occurrences := by
  induction fs with
  | nil => rfl
  | cons f fs ih => simp [occurrencesAll, ih]

/-- The atoms of a filter in code point order, each once. -/
def atoms (f : Filter) : List String := ascendingTexts f.occurrences

end Filter

end StreamFilter
