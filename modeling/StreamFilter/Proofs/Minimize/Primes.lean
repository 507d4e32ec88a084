import StreamFilter.Minimize.Exact
import StreamFilter.Proofs.Minimize.Sum
set_option autoImplicit false

/-!
# Implicants of a list of points

A point over `n` variables has no bit from `n` on, `Bits.Below`.  An implicant of such
points is a cube over the `n` variables all of whose points are among them.

Splitting the points on their highest variable yields implicants only
(`isImplicant_of_mem_primesOf`), and every point lies in one of them
(`exists_mem_primesOf`).
-/

namespace StreamFilter

namespace Bits

/-! ## Points over the first variables -/

/-- Whether a point has no bit from `n` on. -/
def Below (n : Nat) (point : UInt64) : Prop := ∀ i < 64, has point i = true → i < n

/-- A point without its bits from `n` on. -/
def restrict (n : Nat) (point : UInt64) : UInt64 := ofTruth fun i => decide (i < n) && has point i

theorem has_restrict (n : Nat) (point : UInt64) {i : Nat} (hi : i < 64) :
    has (restrict n point) i = (decide (i < n) && has point i) :=
  has_ofTruth _ hi

theorem below_restrict (n : Nat) (point : UInt64) : Below n (restrict n point) := by
  intro i hi hbit
  rw [has_restrict n point hi, Bool.and_eq_true, decide_eq_true_eq] at hbit
  exact hbit.1

theorem below_iff {n : Nat} {point : UInt64} :
    Below n point ↔ point.toNat < Exact.pointCount n := by
  constructor
  · intro h
    apply Nat.lt_pow_two_of_testBit
    intro i hi
    by_cases hlt : i < 64
    · rw [← has_eq_testBit point hlt]
      exact Bool.eq_false_iff.2 fun hbit => absurd (h i hlt hbit) (by omega)
    · have hpow : point.toNat < 2 ^ i :=
        Nat.lt_of_lt_of_le point.toNat_lt (Nat.pow_le_pow_right (by decide) (by omega))
      exact Nat.testBit_lt_two_pow hpow
  · intro h i hi hbit
    rw [has_eq_testBit point hi] at hbit
    refine Classical.byContradiction fun hge => ?_
    have hpow : point.toNat < 2 ^ i :=
      Nat.lt_of_lt_of_le h (Nat.pow_le_pow_right (by decide) (by omega))
    rw [Nat.testBit_lt_two_pow hpow] at hbit
    cases hbit

/-- The points over `n` variables, ascending. -/
def points (n : Nat) : List UInt64 := (List.range (Exact.pointCount n)).map UInt64.ofNat

theorem mem_points {n : Nat} {point : UInt64} : point ∈ points n ↔ Below n point := by
  rw [below_iff, points, List.mem_map]
  constructor
  · rintro ⟨k, hk, rfl⟩
    rw [List.mem_range] at hk
    rw [UInt64.toNat_ofNat']
    exact Nat.lt_of_le_of_lt (Nat.mod_le k _) hk
  · intro h
    exact ⟨point.toNat, List.mem_range.2 h, UInt64.ofNat_toNat⟩

theorem nodup_points {n : Nat} (hn : n ≤ 64) : (points n).Nodup := by
  refine List.Pairwise.map _ ?_ (List.Pairwise.and_mem.1 (List.nodup_range (n := Exact.pointCount n)))
  rintro a b ⟨ha, hb, hne⟩ heq
  rw [List.mem_range] at ha hb
  have hpow : Exact.pointCount n ≤ 2 ^ 64 := Nat.pow_le_pow_right (by decide) hn
  have hnat := congrArg UInt64.toNat heq
  rw [UInt64.toNat_ofNat', UInt64.toNat_ofNat', Nat.mod_eq_of_lt (Nat.lt_of_lt_of_le ha hpow),
    Nat.mod_eq_of_lt (Nat.lt_of_lt_of_le hb hpow)] at hnat
  exact hne hnat

theorem length_points (n : Nat) : (points n).length = Exact.pointCount n := by
  simp [points]

/-- As many distinct points as there are over `n` variables are all of them. -/
theorem mem_of_length_eq {n : Nat} {ps : List UInt64} (hnodup : ps.Nodup)
    (hbelow : ∀ p ∈ ps, Below n p) (hlength : ps.length = Exact.pointCount n) {point : UInt64}
    (hpoint : Below n point) : point ∈ ps := by
  refine Classical.byContradiction fun hmem => ?_
  have hsubset : (point :: ps) ⊆ points n := by
    intro p hp
    rw [mem_points]
    rcases List.mem_cons.1 hp with rfl | hp
    · exact hpoint
    · exact hbelow p hp
  have hle := (List.nodup_cons.2 ⟨hmem, hnodup⟩).length_le_of_subset hsubset
  rw [List.length_cons, length_points, hlength] at hle
  omega

end Bits

namespace Cube

/-- A cube over the first variables looks at these variables only. -/
theorem Within.agrees_congr {n : Nat} {c : Cube} (h : c.Within n) {p q : UInt64}
    (hpq : ∀ i < 64, i < n → Bits.has p i = Bits.has q i) : c.agrees p = c.agrees q := by
  rw [Bool.eq_iff_iff, agrees_iff, agrees_iff]
  constructor <;> intro hagrees i hi hcare
  · rw [← hpq i hi (h i hi hcare)]
    exact hagrees i hi hcare
  · rw [hpq i hi (h i hi hcare)]
    exact hagrees i hi hcare

theorem Within.agrees_restrict {n : Nat} {c : Cube} (h : c.Within n) (point : UInt64) :
    c.agrees (Bits.restrict n point) = c.agrees point :=
  h.agrees_congr fun i hi hin => by rw [Bits.has_restrict n point hi]; simp [hin]

end Cube

namespace Exact

/-! ## Implicants -/

/-- A canonical cube over `n` variables all of whose points are in a list. -/
structure IsImplicant (n : Nat) (points : List UInt64) (c : Cube) : Prop where
  canonical : c.Canonical
  within : c.Within n
  inside : ∀ p, Bits.Below n p → c.agrees p = true → p ∈ points

theorem isImplicant_everything {n : Nat} {points : List UInt64}
    (h : ∀ p, Bits.Below n p → p ∈ points) : IsImplicant n points Cube.everything :=
  ⟨Cube.canonical_everything, Cube.within_everything n, fun p hp _ => h p hp⟩

/-! ## The two halves of a list of points -/

section Halves

variable {n : Nat} {points : List UInt64} {p : UInt64}

theorem and_single_eq_zero {i : Nat} : (p &&& Bits.single i == 0) = !Bits.has p i := by
  simp [Bits.has, bne]

theorem mem_lower : p ∈ lower (Bits.single n) points ↔ p ∈ points ∧ Bits.has p n = false := by
  simp [lower, and_single_eq_zero]

theorem has_flip (hn : n < 64) {i : Nat} (hi : i < 64) :
    Bits.has (p ^^^ Bits.single n) i = (Bits.has p i ^^ decide (i = n)) := by
  rw [Bits.has_xor, Bits.has_single hi hn]

theorem flip_flip : p ^^^ Bits.single n ^^^ Bits.single n = p := by
  rw [UInt64.xor_assoc, UInt64.xor_self, UInt64.xor_zero]

theorem mem_upper (hn : n < 64) : p ∈ upper (Bits.single n) points ↔
    p ^^^ Bits.single n ∈ points ∧ Bits.has p n = false := by
  rw [upper, List.mem_map]
  constructor
  · rintro ⟨q, hq, rfl⟩
    obtain ⟨hq, hbit⟩ := List.mem_filter.1 hq
    have hqn : Bits.has q n = true := hbit
    exact ⟨by rwa [flip_flip], by rw [has_flip hn hn, hqn]; simp⟩
  · rintro ⟨hq, hbit⟩
    refine ⟨p ^^^ Bits.single n, List.mem_filter.2 ⟨hq, ?_⟩, flip_flip⟩
    show Bits.has (p ^^^ Bits.single n) n = true
    rw [has_flip hn hn, hbit]
    simp

theorem mem_shared {others : List UInt64} : p ∈ shared points others ↔ p ∈ points ∧ p ∈ others := by
  simp [shared]

theorem below_of_clear (hp : Bits.Below (n + 1) p) (hbit : Bits.has p n = false) :
    Bits.Below n p := by
  intro i hi hpi
  have hle := hp i hi hpi
  have hne : i ≠ n := by
    rintro rfl
    rw [hbit] at hpi
    cases hpi
  omega

theorem below_flip (hn : n < 64) (hp : Bits.Below (n + 1) p) (hbit : Bits.has p n = true) :
    Bits.Below n (p ^^^ Bits.single n) := by
  intro i hi hpi
  rw [has_flip hn hi] at hpi
  have hne : i ≠ n := by
    rintro rfl
    simp [hbit] at hpi
  have hle := hp i hi (by simpa [hne] using hpi)
  omega

theorem below_lower (hpoints : ∀ q ∈ points, Bits.Below (n + 1) q) :
    ∀ q ∈ lower (Bits.single n) points, Bits.Below n q := fun q hq =>
  below_of_clear (hpoints q (mem_lower.1 hq).1) (mem_lower.1 hq).2

theorem below_upper (hn : n < 64) (hpoints : ∀ q ∈ points, Bits.Below (n + 1) q) :
    ∀ q ∈ upper (Bits.single n) points, Bits.Below n q := by
  intro q hq
  obtain ⟨hmem, hbit⟩ := (mem_upper hn).1 hq
  have hflip := below_flip hn (hpoints _ hmem) (by rw [has_flip hn hn, hbit]; simp)
  rwa [flip_flip] at hflip

theorem nodup_lower (h : points.Nodup) : (lower (Bits.single n) points).Nodup :=
  h.sublist List.filter_sublist

theorem nodup_shared {others : List UInt64} (h : points.Nodup) : (shared points others).Nodup :=
  h.sublist List.filter_sublist

theorem nodup_upper (h : points.Nodup) : (upper (Bits.single n) points).Nodup := by
  refine List.Pairwise.map _ ?_ (h.sublist List.filter_sublist)
  intro a b hne heq
  refine hne ?_
  rw [← flip_flip (p := a) (n := n), ← flip_flip (p := b) (n := n), heq]

end Halves

theorem mem_extended {bit : UInt64} {positive : Bool} {cubes others : List Cube} {e : Cube} :
    e ∈ extended bit positive cubes others ↔ ∃ c ∈ cubes, c ∉ others ∧
      e = ⟨c.care ||| bit, if positive then c.value ||| bit else c.value⟩ := by
  rw [extended, List.mem_map]
  constructor
  · rintro ⟨c, hc, rfl⟩
    obtain ⟨hmem, hnot⟩ := List.mem_filter.1 hc
    exact ⟨c, hmem, by simpa using hnot, rfl⟩
  · rintro ⟨c, hmem, hnot, rfl⟩
    exact ⟨c, List.mem_filter.2 ⟨hmem, by simpa using hnot⟩, rfl⟩

/-! ## A literal of the highest variable -/

/-- A cube with one literal more holds where the cube and the literal do. -/
theorem agrees_extended {n : Nat} {c : Cube} (hn : n < 64) (hcanonical : c.Canonical)
    (hwithin : c.Within n) (positive : Bool) (p : UInt64) :
    (⟨c.care ||| Bits.single n, if positive then c.value ||| Bits.single n else c.value⟩ :
      Cube).agrees p = (c.agrees p && (Bits.has p n == positive)) := by
  have hvalue : ∀ i < 64, i ≠ n →
      Bits.has (if positive then c.value ||| Bits.single n else c.value) i = Bits.has c.value i := by
    intro i hi hne
    cases positive <;> simp [Bits.has_single hi hn, hne]
  have hcarefree : Bits.has c.care n = false :=
    Bool.eq_false_iff.2 fun hcare => Nat.lt_irrefl n (hwithin n hn hcare)
  have hvaluefree : Bits.has c.value n = false :=
    Bool.eq_false_iff.2 fun hbit => by
      rw [Cube.canonical_iff.1 hcanonical n hn hbit] at hcarefree
      cases hcarefree
  have hself : Bits.has (if positive then c.value ||| Bits.single n else c.value) n = positive := by
    cases positive <;> simp [Bits.has_single hn hn, hvaluefree]
  rw [Bool.eq_iff_iff, Bool.and_eq_true, Cube.agrees_iff, Cube.agrees_iff, beq_iff_eq]
  constructor
  · intro h
    refine ⟨fun i hi hcare => ?_, ?_⟩
    · have hne : i ≠ n := by
        rintro rfl
        rw [hcarefree] at hcare
        cases hcare
      rw [h i hi (by simp [hcare]), hvalue i hi hne]
    · rw [h n hn (by simp [Bits.has_single hn hn]), hself]
  · rintro ⟨hc, hbit⟩ i hi hcare
    by_cases hne : i = n
    · subst hne
      rw [hbit, hself]
    · rw [hvalue i hi hne]
      exact hc i hi (by simpa [Bits.has_single hi hn, hne] using hcare)

theorem canonical_extended {n : Nat} {c : Cube} (hcanonical : c.Canonical) (positive : Bool) :
    (⟨c.care ||| Bits.single n, if positive then c.value ||| Bits.single n else c.value⟩ :
      Cube).Canonical := by
  rw [Cube.canonical_iff] at hcanonical ⊢
  intro i hi hbit
  cases positive with
  | false => simp [hcanonical i hi (by simpa using hbit)]
  | true =>
    simp only [if_true, Bits.has_or, Bool.or_eq_true] at hbit ⊢
    exact hbit.imp_left (hcanonical i hi)

theorem within_extended {n : Nat} {c : Cube} (hn : n < 64) (hwithin : c.Within n) (value : UInt64) :
    (⟨c.care ||| Bits.single n, value⟩ : Cube).Within (n + 1) := by
  intro i hi hcare
  simp only [Bits.has_or, Bool.or_eq_true, Bits.has_single hi hn, decide_eq_true_eq] at hcare
  rcases hcare with hcare | rfl
  · exact Nat.lt_succ_of_lt (hwithin i hi hcare)
  · exact Nat.lt_succ_self i

/-! ## Splitting finds implicants -/

section Split

variable {n : Nat} {points : List UInt64} {c : Cube}

theorem IsImplicant.of_shared (hn : n < 64)
    (h : IsImplicant n (shared (lower (Bits.single n) points) (upper (Bits.single n) points)) c) :
    IsImplicant (n + 1) points c := by
  refine ⟨h.canonical, fun i hi hcare => Nat.lt_succ_of_lt (h.within i hi hcare), ?_⟩
  intro p hp hagrees
  cases hbit : Bits.has p n with
  | false =>
    have hmem := h.inside p (below_of_clear hp hbit) hagrees
    exact (mem_lower.1 (mem_shared.1 hmem).1).1
  | true =>
    have hflip : c.agrees (p ^^^ Bits.single n) = true := by
      rw [h.within.agrees_congr fun i hi hin => ?_]
      · exact hagrees
      · rw [has_flip hn hi]
        simp [Nat.ne_of_lt hin]
    have hmem := h.inside _ (below_flip hn hp hbit) hflip
    have hupper := (mem_upper hn).1 (mem_shared.1 hmem).2
    rw [flip_flip] at hupper
    exact hupper.1

theorem IsImplicant.of_lower (hn : n < 64)
    (h : IsImplicant n (lower (Bits.single n) points) c) :
    IsImplicant (n + 1) points ⟨c.care ||| Bits.single n, c.value⟩ := by
  refine ⟨canonical_extended h.canonical false, within_extended hn h.within _, ?_⟩
  intro p hp hagrees
  have hsplit := agrees_extended hn h.canonical h.within false p
  simp only [Bool.false_eq_true, if_false] at hsplit
  rw [hsplit, Bool.and_eq_true, beq_iff_eq] at hagrees
  have hmem := h.inside p (below_of_clear hp hagrees.2) hagrees.1
  exact (mem_lower.1 hmem).1

theorem IsImplicant.of_upper (hn : n < 64)
    (h : IsImplicant n (upper (Bits.single n) points) c) :
    IsImplicant (n + 1) points ⟨c.care ||| Bits.single n, c.value ||| Bits.single n⟩ := by
  refine ⟨canonical_extended h.canonical true, within_extended hn h.within _, ?_⟩
  intro p hp hagrees
  have hsplit := agrees_extended hn h.canonical h.within true p
  simp only [if_true] at hsplit
  rw [hsplit, Bool.and_eq_true, beq_iff_eq] at hagrees
  have hflip : c.agrees (p ^^^ Bits.single n) = true := by
    rw [h.within.agrees_congr fun i hi hin => ?_]
    · exact hagrees.1
    · rw [has_flip hn hi]
      simp [Nat.ne_of_lt hin]
  have hmem := h.inside _ (below_flip hn hp hagrees.2) hflip
  have hupper := (mem_upper hn).1 hmem
  rw [flip_flip] at hupper
  exact hupper.1

end Split

theorem below_zero {p : UInt64} (hp : Bits.Below 0 p) : p = 0 :=
  Bits.eq_zero_iff.2 fun i hi =>
    Bool.eq_false_iff.2 fun hbit => Nat.not_lt_zero i (hp i hi hbit)

/-- The members of the list of primes, by where they come from. -/
theorem mem_primesOf_succ {n : Nat} {points : List UInt64} {c : Cube} :
    c ∈ primesOf (n + 1) points ↔
      points ≠ [] ∧
        ((points.length = pointCount (n + 1) ∧ c = Cube.everything) ∨
          points.length ≠ pointCount (n + 1) ∧
            (c ∈ primesOf n (shared (lower (Bits.single n) points) (upper (Bits.single n) points)) ∨
              c ∈ extended (Bits.single n) false (primesOf n (lower (Bits.single n) points))
                (primesOf n (shared (lower (Bits.single n) points)
                  (upper (Bits.single n) points))) ∨
              c ∈ extended (Bits.single n) true (primesOf n (upper (Bits.single n) points))
                (primesOf n (shared (lower (Bits.single n) points)
                  (upper (Bits.single n) points))))) := by
  rw [primesOf]
  by_cases hempty : points = []
  · simp [hempty]
  · by_cases hfull : points.length = pointCount (n + 1)
    · simp [hempty, hfull]
    · simp [hempty, hfull]

theorem isImplicant_of_mem_primesOf {n : Nat} (hn : n ≤ 64) {points : List UInt64}
    (hnodup : points.Nodup) (hbelow : ∀ p ∈ points, Bits.Below n p) {c : Cube}
    (hc : c ∈ primesOf n points) : IsImplicant n points c := by
  induction n generalizing points c with
  | zero =>
    rw [primesOf] at hc
    cases hpoints : points with
    | nil => simp [hpoints] at hc
    | cons p ps =>
      have hp : p = 0 := below_zero (hbelow p (by simp [hpoints]))
      have hc : c = Cube.everything := by simpa [hpoints] using hc
      rw [hc]
      refine isImplicant_everything fun q hq => ?_
      rw [below_zero hq, hp]
      exact List.mem_cons_self
  | succ n ih =>
    have hlt : n < 64 := hn
    have hlow := below_lower hbelow
    have hhigh := below_upper hlt hbelow
    obtain ⟨-, ⟨hfull, rfl⟩ | ⟨-, hfree | hmem | hmem⟩⟩ := mem_primesOf_succ.1 hc
    · exact isImplicant_everything fun p hp => Bits.mem_of_length_eq hnodup hbelow hfull hp
    · exact (ih (Nat.le_of_lt hlt) (nodup_shared (nodup_lower hnodup))
        (fun p hp => hlow p (mem_shared.1 hp).1) hfree).of_shared hlt
    · obtain ⟨d, hd, -, rfl⟩ := mem_extended.1 hmem
      exact (ih (Nat.le_of_lt hlt) (nodup_lower hnodup) hlow hd).of_lower hlt
    · obtain ⟨d, hd, -, rfl⟩ := mem_extended.1 hmem
      exact (ih (Nat.le_of_lt hlt) (nodup_upper hnodup) hhigh hd).of_upper hlt

/-- A point of a cube for one half lies in the cube itself, if both halves have it, or in the
cube with the literal of the half. -/
theorem exists_agrees_of_half {n : Nat} (hn : n < 64) {cubes free : List Cube} {c : Cube}
    (hc : c ∈ cubes) (hcanonical : c.Canonical) (hwithin : c.Within n) {p : UInt64}
    (hagrees : c.agrees p = true) {positive : Bool} (hbit : Bits.has p n = positive) :
    ∃ d, (d ∈ free ∨ d ∈ extended (Bits.single n) positive cubes free) ∧ d.agrees p = true := by
  by_cases hfree : c ∈ free
  · exact ⟨c, .inl hfree, hagrees⟩
  · refine ⟨_, .inr (mem_extended.2 ⟨c, hc, hfree, rfl⟩), ?_⟩
    rw [agrees_extended hn hcanonical hwithin, hagrees, hbit]
    simp

/-- Every point lies in one of the cubes. -/
theorem exists_mem_primesOf {n : Nat} (hn : n ≤ 64) {points : List UInt64}
    (hnodup : points.Nodup) (hbelow : ∀ p ∈ points, Bits.Below n p) {p : UInt64}
    (hp : p ∈ points) : ∃ c ∈ primesOf n points, c.agrees p = true := by
  induction n generalizing points p with
  | zero =>
    refine ⟨Cube.everything, ?_, Cube.agrees_everything p⟩
    have hne : points ≠ [] := List.ne_nil_of_mem hp
    simp [primesOf, hne]
  | succ n ih =>
    have hlt : n < 64 := hn
    have hne : points ≠ [] := List.ne_nil_of_mem hp
    by_cases hfull : points.length = pointCount (n + 1)
    · exact ⟨Cube.everything, mem_primesOf_succ.2 ⟨hne, .inl ⟨hfull, rfl⟩⟩,
        Cube.agrees_everything p⟩
    have hlow := below_lower hbelow
    have hhigh := below_upper hlt hbelow
    cases hbit : Bits.has p n with
    | false =>
      obtain ⟨c, hc, hagrees⟩ :=
        ih (Nat.le_of_lt hlt) (nodup_lower hnodup) hlow (mem_lower.2 ⟨hp, hbit⟩)
      have himplicant :=
        isImplicant_of_mem_primesOf (Nat.le_of_lt hlt) (nodup_lower hnodup) hlow hc
      obtain ⟨d, hfree | hmem, hd⟩ :=
        exists_agrees_of_half hlt hc himplicant.canonical himplicant.within hagrees hbit
      · exact ⟨d, mem_primesOf_succ.2 ⟨hne, .inr ⟨hfull, .inl hfree⟩⟩, hd⟩
      · exact ⟨d, mem_primesOf_succ.2 ⟨hne, .inr ⟨hfull, .inr (.inl hmem)⟩⟩, hd⟩
    | true =>
      have hflip : p ^^^ Bits.single n ∈ upper (Bits.single n) points := by
        rw [mem_upper hlt, flip_flip, has_flip hlt hlt, hbit]
        exact ⟨hp, by simp⟩
      obtain ⟨c, hc, hagrees⟩ := ih (Nat.le_of_lt hlt) (nodup_upper hnodup) hhigh hflip
      have himplicant :=
        isImplicant_of_mem_primesOf (Nat.le_of_lt hlt) (nodup_upper hnodup) hhigh hc
      have hagrees : c.agrees p = true := by
        rw [← hagrees]
        refine himplicant.within.agrees_congr fun i hi hin => ?_
        rw [has_flip hlt hi]
        simp [Nat.ne_of_lt hin]
      obtain ⟨d, hfree | hmem, hd⟩ :=
        exists_agrees_of_half hlt hc himplicant.canonical himplicant.within hagrees hbit
      · exact ⟨d, mem_primesOf_succ.2 ⟨hne, .inr ⟨hfull, .inl hfree⟩⟩, hd⟩
      · exact ⟨d, mem_primesOf_succ.2 ⟨hne, .inr ⟨hfull, .inr (.inr hmem)⟩⟩, hd⟩

end Exact

end StreamFilter
