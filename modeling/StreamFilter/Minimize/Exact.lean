import Std.Data.HashSet
import StreamFilter.Ascending
import StreamFilter.Cube.Basic
import StreamFilter.Minimize.Sum
set_option autoImplicit false

/-!
# Exact minimization

Lists the points at which a formula holds, finds all prime implicants by splitting
the points on one variable after the other, and selects a cover: the essential
primes first, then greedily, and at last without those that turned out redundant.

Where a choice is open the prime with fewer literals wins, and then the smaller
cube.
-/

namespace StreamFilter.Exact

/-- The number of points over `n` variables. -/
def pointCount (n : Nat) : Nat := Nat.pow 2 n

/-- The points over `n` variables at which a formula holds, ascending.  Bit `i` of
a point is the value of variable `i`. -/
def onset (n : Nat) (f : Formula Nat) : List UInt64 :=
  ((List.range (pointCount n)).map UInt64.ofNat).filter fun point => f.holds (Bits.has point)

/-! ## Prime implicants

Split the points by their highest variable.  A prime without this variable is a
prime of the points that both halves share.  A prime with one of its literals is a
prime of that half which is none of the shared points: otherwise the literal could
go. -/

/-- The points in which a bit is clear. -/
def lower (bit : UInt64) (points : List UInt64) : List UInt64 :=
  points.filter fun point => point &&& bit == 0

/-- The points in which a bit is set, with the bit taken away. -/
def upper (bit : UInt64) (points : List UInt64) : List UInt64 :=
  (points.filter fun point => point &&& bit != 0).map fun point => point ^^^ bit

/-- The points of one list that are in another. -/
def shared (points others : List UInt64) : List UInt64 :=
  let set := Std.HashSet.ofList others
  points.filter set.contains

/-- The cubes of one list that are not in another, each with a literal more. -/
def extended (bit : UInt64) (positive : Bool) (cubes others : List Cube) : List Cube :=
  let set := Std.HashSet.ofList others
  (cubes.filter fun c => !set.contains c).map fun c =>
    ⟨c.care ||| bit, if positive then c.value ||| bit else c.value⟩

/-- The prime implicants of distinct points over `n` variables. -/
def primesOf : Nat → List UInt64 → List Cube
  | 0, points => if points.isEmpty then [] else [Cube.everything]
  | n + 1, points =>
    if points.isEmpty then []
    else if points.length == pointCount (n + 1) then [Cube.everything]
    else
      let bit := Bits.single n
      let low := lower bit points
      let high := upper bit points
      let free := primesOf n (shared low high)
      free ++ extended bit false (primesOf n low) free ++ extended bit true (primesOf n high) free

/-- The prime implicants of a list of points over `n` variables. -/
def primeImplicants (n : Nat) (points : List UInt64) : List Cube :=
  primesOf n (ascending (· ≤ ·) points)

/-! ## Selecting a cover -/

/-- The prime that alone contains a point. -/
def onlyContaining? (point : UInt64) : List Cube → Option Cube
  | [] => none
  | p :: ps =>
    if p.contains point then
      if ps.any (·.contains point) then none else some p
    else onlyContaining? point ps

/-- The primes that alone contain some point, in the order of those points. -/
def essential (primes : List Cube) (points : List UInt64) : List Cube :=
  (points.filterMap fun point => onlyContaining? point primes).eraseDups

/-- Whether a cube covers more of some points than another.  The number of points
comes first, then fewer literals, then the smaller cube. -/
def isBetter (gain : Nat) (c : Cube) (otherGain : Nat) (other : Cube) : Bool :=
  otherGain < gain || (otherGain == gain &&
    (c.size < other.size || (c.size == other.size && c.le other)))

/-- The better of a prime found so far, kept with the number of points it covers, and
another one.  Primes that were chosen before or cover no point are left out. -/
def better (chosen : List Cube) (points : List UInt64) (best : Option (Nat × Cube)) (p : Cube) :
    Option (Nat × Cube) :=
  let gain := points.countP p.contains
  if gain == 0 || chosen.contains p then best
  else match best with
    | some (g, b) => if isBetter gain p g b then some (gain, p) else best
    | none => some (gain, p)

/-- The best prime for some points among those not chosen yet. -/
def best? (primes chosen : List Cube) (points : List UInt64) : Option Cube :=
  (primes.foldl (better chosen points) none).map Prod.snd

/-- A prime that can be chosen: it covers a point, and was not chosen before. -/
structure Candidate (chosen : List Cube) (points : List UInt64) (p : Cube) : Prop where
  covers : ∃ point ∈ points, p.contains point = true
  fresh : p ∉ chosen

theorem candidate_iff {chosen : List Cube} {points : List UInt64} {p : Cube} :
    Candidate chosen points p ↔
      (points.countP p.contains == 0 || chosen.contains p) = false := by
  rw [Bool.or_eq_false_iff, beq_eq_false_iff_ne, ← Nat.pos_iff_ne_zero, List.countP_pos_iff,
    Bool.eq_false_iff, ne_eq, List.contains_iff_mem]
  exact ⟨fun h => ⟨h.covers, h.fresh⟩, fun h => ⟨h.1, h.2⟩⟩

section Better

variable {chosen : List Cube} {points : List UInt64} {best : Option (Nat × Cube)} {p : Cube}

theorem better_of_not_candidate (h : ¬Candidate chosen points p) :
    better chosen points best p = best :=
  if_pos (Bool.of_not_eq_false (mt candidate_iff.2 h))

theorem better_none (h : Candidate chosen points p) :
    better chosen points none p = some (points.countP p.contains, p) :=
  if_neg (Bool.eq_false_iff.1 (candidate_iff.1 h))

theorem better_some (h : Candidate chosen points p) (y : Nat × Cube) :
    better chosen points (some y) p =
      if isBetter (points.countP p.contains) p y.1 y.2 then some (points.countP p.contains, p)
      else some y :=
  if_neg (Bool.eq_false_iff.1 (candidate_iff.1 h))

/-- A comparison keeps what was found, or takes the other prime if that can be chosen. -/
theorem better_eq_some {x : Nat × Cube} (h : better chosen points best p = some x) :
    best = some x ∨ Candidate chosen points p ∧ x = (points.countP p.contains, p) := by
  by_cases hp : Candidate chosen points p
  · cases best with
    | none =>
      rw [better_none hp] at h
      exact .inr ⟨hp, (Option.some.inj h).symm⟩
    | some y =>
      rw [better_some hp] at h
      split at h
      · exact .inr ⟨hp, (Option.some.inj h).symm⟩
      · exact .inl h
  · rw [better_of_not_candidate hp] at h
    exact .inl h

end Better

theorem foldl_better_eq_some {primes chosen : List Cube} {points : List UInt64}
    {best : Option (Nat × Cube)} {x : Nat × Cube}
    (h : primes.foldl (better chosen points) best = some x) :
    best = some x ∨ ∃ p ∈ primes, Candidate chosen points p ∧
      x = (points.countP p.contains, p) := by
  induction primes generalizing best with
  | nil => exact .inl h
  | cons p primes ih =>
    rcases ih h with hstep | ⟨q, hq, hx⟩
    · exact (better_eq_some hstep).imp_right fun hx => ⟨p, List.mem_cons_self, hx⟩
    · exact .inr ⟨q, List.mem_cons_of_mem p hq, hx⟩

/-- The best prime is one that can be chosen. -/
theorem candidate_of_best? {primes chosen : List Cube} {points : List UInt64} {p : Cube}
    (h : best? primes chosen points = some p) : p ∈ primes ∧ Candidate chosen points p := by
  obtain ⟨x, hx, rfl⟩ := Option.map_eq_some_iff.1 h
  obtain ⟨p, hp, hcandidate, rfl⟩ := (foldl_better_eq_some hx).resolve_left (by simp)
  exact ⟨hp, hcandidate⟩

/-- The points that a cube does not contain. -/
def outside (c : Cube) (points : List UInt64) : List UInt64 :=
  points.filter fun point => !c.contains point

theorem length_outside_lt {primes chosen : List Cube} {points : List UInt64} {p : Cube}
    (h : best? primes chosen points = some p) : (outside p points).length < points.length := by
  obtain ⟨point, hm, hc⟩ := (candidate_of_best? h).2.covers
  exact List.length_filter_lt_length_iff_exists.2 ⟨point, hm, by simp [hc]⟩

/-- Adds the best prime until every point is covered. -/
def complete (primes chosen : List Cube) (points : List UInt64) : List Cube :=
  match found : best? primes chosen points with
  | some p =>
    have : (outside p points).length < points.length := length_outside_lt found
    complete primes (chosen ++ [p]) (outside p points)
  | none => chosen
termination_by points.length

/-- Drops each cube, the last first, whose points other cubes contain.  The first
list holds the cubes still to be looked at, the last of them in front. -/
def dropRedundant (points : List UInt64) : List Cube → List Cube → List Cube
  | [], kept => kept
  | c :: before, kept =>
    let others := before ++ kept
    if points.all fun point => !c.contains point || others.any (·.contains point) then
      dropRedundant points before kept
    else dropRedundant points before (c :: kept)

/-- A cover of the points by primes. -/
def selectCover (primes : List Cube) (points : List UInt64) : List Cube :=
  let chosen := essential primes points
  let uncovered := points.filter fun point => !chosen.any (·.contains point)
  dropRedundant points (complete primes chosen uncovered).reverse []

/-- The minimized form of a formula over `n` variables. -/
def minimize (n : Nat) (f : Formula Nat) : TwoLevel :=
  let points := onset n f
  if points.isEmpty then .never
  else if points.length == pointCount n then .always
  else .sum (selectCover (primeImplicants n points) points)

end StreamFilter.Exact
