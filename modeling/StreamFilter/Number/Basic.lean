import StreamFilter.Number.Binary64
set_option autoImplicit false

/-!
# Numbers

A number is a whole number of up to 64 bits or a 64-bit float.
-/

namespace StreamFilter

/-- A number. -/
inductive Number where
  /-- A whole number of up to 64 bits. -/
  | whole (value : Int)
  /-- A finite float. -/
  | float (value : Binary64)
  /-- More than every float. -/
  | infinite (negative : Bool)
  /-- The float that is no number. -/
  | undefined
  deriving DecidableEq, Repr, Inhabited

namespace Number

/-- Whether a number is a finite float or whole. -/
def isProper : Number → Bool
  | whole _ | float _ => true
  | infinite _ | undefined => false

/-- The text of a number with a power of ten when it is very large or small. -/
def scientificText : Number → String
  | whole value => wholeText value
  | float value => value.scientificText
  | infinite negative => if negative then "-inf" else "inf"
  | undefined => "NaN"

/-- The text of a number without powers of ten. -/
def positionalText : Number → String
  | whole value => wholeText value
  | float value => value.positionalText
  | infinite negative => if negative then "-inf" else "inf"
  | undefined => "NaN"

end Number

end StreamFilter
