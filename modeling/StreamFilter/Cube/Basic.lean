set_option autoImplicit false

/-!
# Cubes

A cube is a product of literals over at most 64 variables.  Bit `i` of `care` is
set when variable `i` occurs, and then bit `i` of `value` is its polarity.  Bits
of `value` outside `care` have no meaning, but operations do not clear them
unless they say so.
-/

namespace StreamFilter

/-! ## Sets of variables as words -/

namespace Bits

/-- The word with one bit set. -/
def single (i : Nat) : UInt64 := 1 <<< UInt64.ofNat i

/-- Whether a bit of a word is set. -/
def has (w : UInt64) (i : Nat) : Bool := w &&& single i != 0

/-- The numbers of all bits. -/
def all : List Nat := List.range 64

/-- The numbers of the bits that are set, ascending. -/
def positions (w : UInt64) : List Nat := all.filter (has w)

end Bits

/-- A product of literals. -/
structure Cube where
  care : UInt64
  value : UInt64
  deriving DecidableEq, Repr, Inhabited, Hashable

namespace Cube

/-- The empty product, which holds everywhere. -/
def everything : Cube := ⟨0, 0⟩

/-- The product of one literal. -/
def literal (i : Nat) (positive : Bool) : Cube :=
  ⟨Bits.single i, if positive then Bits.single i else 0⟩

/-- The product that fixes every variable of `full`. -/
def minterm (value full : UInt64) : Cube := ⟨full, value⟩

/-- The number of literals. -/
def size (c : Cube) : Nat := (Bits.positions c.care).length

/-- Whether every point of another cube lies in this one. -/
def covers (c d : Cube) : Bool := c.care &&& d.care == c.care && d.value &&& c.care == c.value

/-- Whether a point lies in the cube. -/
def contains (c : Cube) (point : UInt64) : Bool := point &&& c.care == c.value

/-- Whether no variable occurs in both cubes with different polarity. -/
def compatible (c d : Cube) : Bool := c.care &&& d.care &&& (c.value ^^^ d.value) == 0

/-- The product of two cubes; none if a variable occurs in both polarities. -/
def inter? (c d : Cube) : Option Cube :=
  if c.compatible d then some ⟨c.care ||| d.care, c.value ||| d.value⟩ else none

/-- Drops the variables in a word. -/
def without (c : Cube) (bits : UInt64) : Cube := ⟨c.care &&& ~~~bits, c.value &&& ~~~bits⟩

/-- The literals as variables and polarities, by ascending variable. -/
def literals (c : Cube) : List (Nat × Bool) :=
  (Bits.positions c.care).map fun i => (i, Bits.has c.value i)

/-- Cubes in the order of `care`, then of `value`. -/
def le (c d : Cube) : Bool := c.care < d.care || (c.care == d.care && c.value ≤ d.value)

/-- A cube with its number of literals in front. -/
def sized (c : Cube) : Nat × Cube := (c.size, c)

/-- Fewer literals first, then in the order of cubes. -/
def sizedLe (a b : Nat × Cube) : Bool := a.1 < b.1 || (a.1 == b.1 && a.2.le b.2)

/-- More literals first, then in the order of cubes. -/
def sizedGe (a b : Nat × Cube) : Bool := b.1 < a.1 || (a.1 == b.1 && a.2.le b.2)

/-! ## Dropping a variable makes a smaller word -/

theorem toNat_care_without_le (c : Cube) (bits : UInt64) :
    (c.without bits).care.toNat ≤ c.care.toNat := by
  rw [without, UInt64.toNat_and]
  exact Nat.and_le_left

theorem toNat_care_without_lt {c : Cube} {bits : UInt64} (h : c.care &&& bits ≠ 0) :
    (c.without bits).care.toNat < c.care.toNat := by
  refine Nat.lt_of_le_of_ne (toNat_care_without_le c bits) fun he => h ?_
  have he : c.care &&& ~~~bits = c.care := UInt64.toNat_inj.1 he
  rw [← he, UInt64.and_assoc, UInt64.and_comm (~~~bits)]
  simp

end Cube

end StreamFilter
