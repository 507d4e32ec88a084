import StreamFilter.Number.Digits
set_option autoImplicit false

/-!
# Floats of 64 bits

A finite float is `± mantissa · 2 ^ exponent` with a mantissa below `2 ^ 53`.
Quotients are rounded to the nearest float, and a float is written with the fewest
decimal digits that stand for it.
-/

namespace StreamFilter

/-- The float `± mantissa · 2 ^ exponent`. -/
structure Binary64 where
  negative : Bool
  mantissa : Nat
  exponent : Int
  deriving DecidableEq, Repr, Inhabited

namespace Binary64

/-! ## Rounding -/

/-- One more than the largest mantissa. -/
def mantissaBound : Nat := 9007199254740992

/-- The exponent of the smallest floats. -/
def leastExponent : Int := -1074

/-- The exponent of the largest floats. -/
def greatestExponent : Int := 971

/-- A quotient rounded to the nearest whole number, a half to the even one. -/
def roundEven (num den : Nat) : Nat :=
  let q := num / den
  let r := num % den
  if 2 * r < den then q
  else if den < 2 * r then q + 1
  else if q % 2 = 0 then q else q + 1

/-- The quotient `num / den` in units of `2 ^ exponent`. -/
def inUnits (num den : Nat) (exponent : Int) : Nat :=
  roundEven (num * Number.twoTo (-exponent)) (den * Number.twoTo exponent)

/-- The float nearest to a quotient, if the exponents of floats had no upper end. -/
def ofQuotient (negative : Bool) (num den : Nat) : Binary64 :=
  if num = 0 then ⟨negative, 0, 0⟩
  else
    let exponent := max leastExponent ((num.log2 : Int) - den.log2 - 53)
    let mantissa := inUnits num den exponent
    if mantissa < mantissaBound then ⟨negative, mantissa, exponent⟩
    else
      let mantissa := inUnits num den (exponent + 1)
      if mantissa < mantissaBound then ⟨negative, mantissa, exponent + 1⟩
      else ⟨negative, mantissaBound / 2, exponent + 2⟩

/-- A float unless it lies beyond the largest. -/
def finite? (x : Binary64) : Option Binary64 :=
  if x.exponent ≤ greatestExponent then some x else none

/-- Whether a float is zero. -/
def isZero (x : Binary64) : Bool := x.mantissa == 0

/-- The float nearest to `± digits · 10 ^ exponent`.  The size is the position of
the leading digit; far outside the range of floats it alone decides. -/
def ofDecimal? (negative : Bool) (digits : Nat) (exponent : Int) : Option Binary64 :=
  let size := (digits.repr.length : Int) + exponent
  if digits = 0 || size < -400 then some ⟨negative, 0, 0⟩
  else if 400 < size then none
  else
    (ofQuotient negative (digits * Number.tenTo exponent) (Number.tenTo (-exponent))).finite?

/-- The product of two floats, if the exponents of floats had no upper end. -/
def mul (x y : Binary64) : Binary64 :=
  let exponent := x.exponent + y.exponent
  ofQuotient (x.negative != y.negative) (x.mantissa * y.mantissa * Number.twoTo exponent)
    (Number.twoTo (-exponent))

/-- The quotient of two floats, the second of which is not zero. -/
def div (x y : Binary64) : Binary64 :=
  let exponent := x.exponent - y.exponent
  ofQuotient (x.negative != y.negative) (x.mantissa * Number.twoTo exponent)
    (y.mantissa * Number.twoTo (-exponent))

/-- The whole number nearest to a float, a half away from zero. -/
def round (x : Binary64) : Int :=
  let scaled := 2 * x.mantissa * Number.twoTo x.exponent
  let unit := Number.twoTo (-x.exponent)
  Number.signed x.negative ((scaled + unit) / (2 * unit))

/-! ## Scaling by powers of ten -/

/-- The largest power of ten that is a float. -/
def greatestPower : Nat := 308

/-- The float nearest to a power of ten. -/
def powerOfTen (n : Nat) : Binary64 := ofQuotient false (Nat.pow 10 n) 1

/-- A float times a power of ten, by one product or one quotient. -/
def shift? (x : Binary64) (exponent : Int) : Option Binary64 :=
  if 0 ≤ exponent then (x.mul (powerOfTen exponent.toNat)).finite?
  else some (x.div (powerOfTen (-exponent).toNat))

/-- The float for `± significand · 10 ^ exponent` where the significand has at most
64 bits.  The significand is rounded and then scaled, which rounds again, so this is
not always the nearest float.  An exponent below the powers of ten that are floats
takes two quotients, and two by the greatest power leave nothing. -/
def scaled? (negative : Bool) (significand : Nat) (exponent : Int) : Option Binary64 :=
  let x := ofQuotient negative significand 1
  if exponent.natAbs ≤ greatestPower then x.shift? exponent
  else if x.isZero then some x
  else if 0 ≤ exponent then none
  else if exponent.natAbs ≤ 2 * greatestPower then
    (x.div (powerOfTen greatestPower)).shift? (exponent + greatestPower)
  else some ⟨negative, 0, 0⟩

/-! ## The fewest digits -/

/-- The multiple of `10 ^ k` nearest to a float's size, counted in that unit, if it
stands for the float: it lies no farther than halfway to the next floats. -/
def onGrid? (x : Binary64) (k : Int) : Option Nat :=
  let factor := Number.twoTo x.exponent * Number.tenTo (-k)
  let unit := 4 * Number.twoTo (-x.exponent) * Number.tenTo k
  let below := if x.mantissa = mantissaBound / 2 ∧ leastExponent < x.exponent then 1 else 2
  let value := 4 * x.mantissa * factor
  let low := value - below * factor
  let high := value + 2 * factor
  let within (n : Nat) : Bool :=
    if x.mantissa % 2 = 0 then low ≤ n * unit && n * unit ≤ high
    else low < n * unit && n * unit < high
  let n := roundEven value unit
  let other := if n * unit ≤ value then n + 1 else n - 1
  if within n then some n else if within other then some other else none

/-- The first hit on ever finer grids. -/
def firstOnGrid (x : Binary64) (k : Int) : Nat → Nat × Int
  | 0 => (0, 0)
  | tries + 1 =>
    match onGrid? x k with
    | some n => if n = 0 then firstOnGrid x (k - 1) tries else (n, k)
    | none => firstOnGrid x (k - 1) tries

/-- The fewest digits that stand for a float, and the power of ten of their last. -/
def shortest (x : Binary64) : Nat × Int :=
  if x.isZero then (0, 0)
  else firstOnGrid x ((x.mantissa.log2 + x.exponent) * 30103 / 100000 + 2) 40

/-! ## Texts -/

/-- Zeros. -/
def zeros (n : Nat) : String := String.ofList (List.replicate n '0')

/-- Digits before and behind a decimal point. -/
def pointed (digits : String) (before : Nat) : String :=
  String.ofList (digits.toList.take before) ++ "." ++ String.ofList (digits.toList.drop before)

/-- A power of ten with its sign. -/
def powerText (exponent : Int) : String :=
  (if 0 ≤ exponent then "e+" else "e") ++ Number.wholeText exponent

/-- A float with a power of ten when it is very large or very small, and else with
a point. -/
def scientificText (x : Binary64) : String :=
  let (n, k) := x.shortest
  let digits := n.repr
  let size := (digits.length : Int) + k
  let sign := if x.negative then "-" else ""
  sign ++
    if x.isZero then "0.0"
    else if 0 ≤ k ∧ size ≤ 16 then digits ++ zeros k.toNat ++ ".0"
    else if 0 < size ∧ size ≤ 16 then pointed digits size.toNat
    else if -5 < size ∧ size ≤ 0 then "0." ++ zeros (-size).toNat ++ digits
    else (if digits.length = 1 then digits else pointed digits 1) ++ powerText (size - 1)

/-- A float without powers of ten, and without a point when it is whole. -/
def positionalText (x : Binary64) : String :=
  let (n, k) := x.shortest
  let digits := n.repr
  let size := (digits.length : Int) + k
  let sign := if x.negative then "-" else ""
  sign ++
    if x.isZero then "0"
    else if 0 ≤ k then digits ++ zeros k.toNat
    else if 0 < size then pointed digits size.toNat
    else "0." ++ zeros (-size).toNat ++ digits

end Binary64

end StreamFilter
