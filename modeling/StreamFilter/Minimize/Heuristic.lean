import StreamFilter.Cube.Cover
import StreamFilter.Minimize.Sum
set_option autoImplicit false

/-!
# Heuristic minimization

Multiplies a formula out to a list of cubes, enlarges each cube while it stays
inside the formula, and drops cubes that the others cover.  The list may not grow
past a limit, and every variable needs a position.
-/

namespace StreamFilter.Heuristic

/-- Why a formula has no minimized form. -/
inductive Stop where
  /-- There are more variables or cubes than the limit. -/
  | tooMany
  /-- A variable has no position. -/
  | unindexed (name : String)
  deriving DecidableEq, Repr, Inhabited

/-- All products of a cube of one list with a cube of another. -/
def products (cs ds : List Cube) : List Cube := cs.flatMap fun c => ds.filterMap c.inter?

/-- A list of cubes unless it is longer than the limit. -/
def within (limit : Nat) (cubes : List Cube) : Except Stop (List Cube) :=
  if cubes.length ≤ limit then .ok cubes else .error .tooMany

variable {α : Type}

mutual

/-- The cubes of a formula, or of its negation when `positive` is false.  The first
argument looks up the position of a variable. -/
def cubes (index : α → Except Stop Nat) (limit : Nat) (positive : Bool) :
    Formula α → Except Stop (List Cube)
  | .var x => do within limit [Cube.literal (← index x) positive]
  | .not f => cubes index limit (!positive) f
  | .and fs => do
    within limit (← if positive then multiplied index limit true fs [Cube.everything]
      else added index limit false fs [])
  | .or fs => do
    within limit (← if positive then added index limit true fs []
      else multiplied index limit false fs [Cube.everything])

/-- The product of a list of cubes with the formulas of a list. -/
def multiplied (index : α → Except Stop Nat) (limit : Nat) (positive : Bool) :
    List (Formula α) → List Cube → Except Stop (List Cube)
  | [], acc => .ok acc
  | f :: fs, acc => do
    let factor ← cubes index limit positive f
    let product ← within limit (Cover.absorb (products acc factor))
    multiplied index limit positive fs product

/-- The sum of a list of cubes with the formulas of a list. -/
def added (index : α → Except Stop Nat) (limit : Nat) (positive : Bool) :
    List (Formula α) → List Cube → Except Stop (List Cube)
  | [], acc => .ok (Cover.absorb acc)
  | f :: fs, acc => do
    let more ← cubes index limit positive f
    added index limit positive fs (acc ++ more)

end

/-- Drops a literal if the cube stays inside the cover. -/
def dropLiteral (cover : List Cube) (c : Cube) (i : Nat) : Cube :=
  let larger := c.without (Bits.single i)
  if Cover.implies cover larger then larger else c

/-- Drops the literals of a cube one by one, the lowest variable first, while the
cube stays inside the cover. -/
def enlarge (cover : List Cube) (c : Cube) : Cube :=
  (Bits.positions c.care).foldl (dropLiteral cover) c

/-- Drops each cube that the others cover.  The first list holds the cubes that
stay, the last of them in front. -/
def dropCovered : List Cube → List Cube → List Cube
  | kept, [] => kept.reverse
  | kept, c :: after =>
    if Cover.implies (kept.reverse ++ after) c then dropCovered kept after
    else dropCovered (c :: kept) after

/-- Drops cubes that the others cover, those with most literals first. -/
def irredundant (cubes : List Cube) : List Cube :=
  dropCovered [] (((cubes.map Cube.sized).mergeSort Cube.sizedGe).map Prod.snd)

/-- The minimized form of a formula, unless multiplying out stops. -/
def minimize (index : α → Except Stop Nat) (limit : Nat) (f : Formula α) :
    Except Stop TwoLevel :=
  (cubes index limit true f).map fun onset =>
    if onset.isEmpty then .never
    else if Cover.isTautology onset then .always
    else .sum (irredundant (Cover.absorb (onset.map (enlarge onset))))

end StreamFilter.Heuristic
