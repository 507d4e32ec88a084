set_option autoImplicit false

/-!
# Digits and whole numbers

Whole numbers in decimal digits, with or without a sign, and the ranges of 64 bits
that they are held to.
-/

namespace StreamFilter.Number

/-- Decimal digits of the system everybody writes. -/
def isDigit (c : Char) : Bool := '0' ≤ c && c ≤ '9'

/-- The value of a decimal digit. -/
def digitValue (c : Char) : Nat := c.toNat - 48

/-- The value of decimal digits. -/
def digitsValue (cs : List Char) : Nat := cs.foldl (fun n c => n * 10 + digitValue c) 0

/-- A sign taken off the front: whether it is a minus, and what follows. -/
def takeSign : List Char → Bool × List Char
  | '-' :: cs => (true, cs)
  | '+' :: cs => (false, cs)
  | cs => (false, cs)

/-- A whole number with its sign. -/
def signed (negative : Bool) (n : Nat) : Int := if negative then -(n : Int) else n

/-- One more than the largest number of 64 bits with sign. -/
def signedBound : Nat := 9223372036854775808

/-- One more than the largest number of 64 bits without sign. -/
def unsignedBound : Nat := 18446744073709551616

/-- Whether 64 bits with sign hold a whole number. -/
def isSigned (value : Int) : Bool := -(signedBound : Int) ≤ value && value < signedBound

/-- Whether 64 bits hold a whole number, with or without sign. -/
def isWord (value : Int) : Bool := -(signedBound : Int) ≤ value && value < unsignedBound

/-- A power of ten; one for a negative exponent. -/
def tenTo (exponent : Int) : Nat := Nat.pow 10 exponent.toNat

/-- A power of two; one for a negative exponent. -/
def twoTo (exponent : Int) : Nat := Nat.pow 2 exponent.toNat

/-- The whole number of up to 64 bits with sign that characters spell. -/
def ofSigned? (cs : List Char) : Option Int :=
  let (negative, digits) := takeSign cs
  let value := signed negative (digitsValue digits)
  if digits ≠ [] ∧ digits.all isDigit ∧ isSigned value then some value else none

/-- The natural number of up to 64 bits that characters spell, perhaps after a
plus sign. -/
def ofUnsigned? (cs : List Char) : Option Nat :=
  let digits := match cs with
    | '+' :: cs => cs
    | cs => cs
  let value := digitsValue digits
  if digits ≠ [] ∧ digits.all isDigit ∧ value < unsignedBound then some value else none

/-- A whole number in decimal digits. -/
def wholeText : Int → String
  | .ofNat n => n.repr
  | .negSucc n => "-" ++ (n + 1).repr

end StreamFilter.Number
