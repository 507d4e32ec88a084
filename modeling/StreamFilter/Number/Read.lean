import StreamFilter.Number.Basic
set_option autoImplicit false

/-!
# Reading numbers

`Number.ofJson?` is the number that characters spell by the rules of JSON, and
`Number.ofFloat?` the float they spell where infinities, plus signs and bare points
are admitted too.  The first keeps as many digits as 64 bits hold and scales them;
the second is always the nearest float.
-/

namespace StreamFilter.Number

/-- The digits behind a decimal point, which has to have one. -/
def fraction? : List Char → Option (List Char × List Char)
  | '.' :: cs =>
    match cs.span isDigit with
    | ([], _) => none
    | (places, rest) => some (places, rest)
  | cs => some ([], cs)

/-- The power of ten behind `e`, which has to end the text. -/
def power? : List Char → Option (Option Int)
  | [] => some none
  | e :: cs =>
    let (negative, digits) := takeSign cs
    if (e = 'e' ∨ e = 'E') ∧ digits ≠ [] ∧ digits.all isDigit then
      some (some (signed negative (digitsValue digits)))
    else none

/-- Digits added to a number for as long as 64 bits hold it, and how many were. -/
def absorb (word : Nat) : List Char → Nat × Nat
  | [] => (word, 0)
  | c :: cs =>
    let next := word * 10 + digitValue c
    if next < unsignedBound then
      let (word, count) := absorb next cs
      (word, count + 1)
    else (word, 0)

/-- The float with these digits before and behind the point.  Of the digits behind it,
those that do not fit are dropped; of the digits before it, each raises the exponent. -/
def floatOfParts? (negative : Bool) (digits places : List Char) (power : Int) :
    Option Binary64 :=
  let (front, kept) := absorb 0 digits
  let (significand, added) := absorb front places
  Binary64.scaled? negative significand ((digits.length : Int) - kept - added + power)

/-- The number with these digits before and behind the point. -/
def ofParts? (negative : Bool) (digits places : List Char) (power : Option Int) :
    Option Number :=
  let value := signed negative (digitsValue digits)
  if places = [] ∧ power = none ∧ isWord value ∧ ¬ (negative ∧ value = 0) then some (whole value)
  else (floatOfParts? negative digits places (power.getD 0)).map float

/-- The number that characters spell in JSON: no plus sign and no needless zero in
front, and digits on both sides of a point.  A whole number beyond 64 bits and
`-0` count as floats. -/
def ofJson? (cs : List Char) : Option Number := do
  let (negative, cs) := match cs with
    | '-' :: cs => (true, cs)
    | cs => (false, cs)
  let (digits, rest) := cs.span isDigit
  let (places, rest) ← fraction? rest
  let power ← power? rest
  match digits with
  | [] => none
  | '0' :: _ :: _ => none
  | _ => ofParts? negative digits places power

/-- Lower case for the letters from `A` to `Z`. -/
def lower (c : Char) : Char := if 'A' ≤ c ∧ c ≤ 'Z' then Char.ofNat (c.toNat + 32) else c

/-- The float that characters spell: a sign, digits with a point anywhere among
them, a power of ten, or a word for an infinity or for no number. -/
def ofFloat? (cs : List Char) : Option Number :=
  let (negative, cs) := takeSign cs
  let word := String.ofList (cs.map lower)
  if word = "inf" ∨ word = "infinity" then some (infinite negative)
  else if word = "nan" then some undefined
  else
    let (digits, rest) := cs.span isDigit
    let (places, rest) := match rest with
      | '.' :: rest => rest.span isDigit
      | rest => ([], rest)
    match digits ++ places, power? rest with
    | [], _ => none
    | _, none => none
    | all, some power =>
      match Binary64.ofDecimal? negative (digitsValue all)
          (power.getD 0 - (places.length : Int)) with
      | some value => some (float value)
      | none => some (infinite negative)

end StreamFilter.Number
