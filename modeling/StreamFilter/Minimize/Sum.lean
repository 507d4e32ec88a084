import StreamFilter.Cube.Basic
import StreamFilter.Formula.Basic
set_option autoImplicit false

/-!
# Sums of products

The result of two-level minimization is a constant or a sum of cubes, which is
written as a formula with smaller terms first.
-/

namespace StreamFilter

/-- A two-level form: a constant, or a sum of cubes. -/
inductive TwoLevel where
  | never
  | always
  | sum (cubes : List Cube)
  deriving DecidableEq, Repr, Inhabited

namespace Cube

/-- A literal as a number, by variable and with the positive literal first. -/
def literalKey : Nat × Bool → Nat
  | (i, positive) => 2 * i + if positive then 0 else 1

/-- The place of a cube among the terms of a sum: its number of literals, then the
literals one by one. -/
def termKey (c : Cube) : Nat × List Nat := (c.size, c.literals.map literalKey)

/-- The order of terms. -/
def termLe (a b : (Nat × List Nat) × Cube) : Bool :=
  a.1.1 < b.1.1 || (a.1.1 == b.1.1 && !decide (b.1.2 < a.1.2))

/-- A literal as a formula. -/
def literalFormula : Nat × Bool → Formula Nat
  | (i, true) => .var i
  | (i, false) => .not (.var i)

/-- A cube as a formula: one literal stands alone. -/
def toFormula (c : Cube) : Formula Nat :=
  Formula.unlessSingle .and (c.literals.map literalFormula)

end Cube

/-- The terms of a sum, smaller ones first. -/
def sumTerms (cubes : List Cube) : List (Formula Nat) :=
  ((cubes.map fun c => (c.termKey, c)).mergeSort Cube.termLe).map fun t => t.2.toFormula

/-- A sum of cubes as a formula: one term stands alone. -/
def sumFormula (cubes : List Cube) : Formula Nat := Formula.unlessSingle .or (sumTerms cubes)

end StreamFilter
