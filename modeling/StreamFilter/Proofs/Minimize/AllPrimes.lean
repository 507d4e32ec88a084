import StreamFilter.Proofs.Minimize.Exact
set_option autoImplicit false

/-!
# Splitting finds the prime implicants

A prime implicant of a list of points is an implicant from which no literal can be dropped.
The cubes that are found by splitting the points on their highest variable are these and no
others (`mem_primesOf_iff`), each once (`nodup_primesOf`): a prime without the variable is a prime
of the points that both halves share, and a prime with one of its literals is a prime of that half
which is no implicant of the shared points.
-/

namespace StreamFilter

namespace Cube

/-- A canonical cube without literals is the empty product. -/
theorem Canonical.eq_everything {c : Cube} (h : c.Canonical)
    (hcare : ∀ i < 64, Bits.has c.care i = false) : c = everything := by
  apply eq_of_has
  · intro i hi
    rw [hcare i hi, everything, Bits.has_zero]
  · intro i hi
    rw [everything, Bits.has_zero, h.has_value_of_has_care hi (hcare i hi)]

/-- A cube over the first variables has a point over them. -/
theorem Within.exists_agrees {n : Nat} {c : Cube} (h : c.Within n) :
    ∃ p, Bits.Below n p ∧ c.agrees p = true := by
  refine ⟨c.place 0, fun i hi hbit => ?_, c.agrees_place 0⟩
  rw [has_place] at hbit
  split at hbit
  next hcare => exact h i hi hcare
  next => simp at hbit

end Cube

namespace Exact

/-- An implicant that has a point outside as soon as one of its literals is dropped. -/
structure IsPrime (n : Nat) (points : List UInt64) (c : Cube) : Prop
    extends IsImplicant n points c where
  tight : ∀ i < 64, Bits.has c.care i = true →
    ∃ p, Bits.Below n p ∧ (c.without (Bits.single i)).agrees p = true ∧ p ∉ points

variable {n : Nat} {points : List UInt64} {c : Cube}

theorem not_isPrime_nil : ¬IsPrime n [] c := by
  intro h
  obtain ⟨p, hp, hagrees⟩ := h.within.exists_agrees
  exact List.not_mem_nil (h.inside p hp hagrees)

/-- The only prime implicant of all points is the empty product. -/
theorem isPrime_of_forall_mem (hall : ∀ p, Bits.Below n p → p ∈ points) :
    IsPrime n points c ↔ c = Cube.everything := by
  constructor
  · intro h
    refine h.canonical.eq_everything fun i hi => Bool.eq_false_iff.2 fun hcare => ?_
    obtain ⟨p, hp, -, hnot⟩ := h.tight i hi hcare
    exact hnot (hall p hp)
  · rintro rfl
    refine ⟨isImplicant_everything hall, fun i _ hcare => ?_⟩
    simp [Cube.everything] at hcare

/-! ## Points of the halves -/

/-- The points in which the highest variable has a given value, without its bit. -/
def half (n : Nat) : Bool → List UInt64 → List UInt64
  | false, points => lower (Bits.single n) points
  | true, points => upper (Bits.single n) points

/-- The points that the two halves share. -/
def bothHalves (n : Nat) (points : List UInt64) : List UInt64 :=
  shared (lower (Bits.single n) points) (upper (Bits.single n) points)

/-- A point over the lower variables with a value for the highest one. -/
def lifted (n : Nat) : Bool → UInt64 → UInt64
  | false, p => p
  | true, p => p ^^^ Bits.single n

section Lifting

variable {p : UInt64} {positive : Bool}

theorem has_of_below (hn : n < 64) (hp : Bits.Below n p) : Bits.has p n = false :=
  Bool.eq_false_iff.2 fun hbit => Nat.lt_irrefl n (hp n hn hbit)

theorem has_lifted_self (hn : n < 64) (hp : Bits.Below n p) :
    Bits.has (lifted n positive p) n = positive := by
  have hclear := has_of_below hn hp
  cases positive with
  | false => exact hclear
  | true => rw [lifted, has_flip hn hn, hclear]; simp

theorem has_lifted (hn : n < 64) {i : Nat} (hi : i < 64) (hne : i ≠ n) :
    Bits.has (lifted n positive p) i = Bits.has p i := by
  cases positive with
  | false => rfl
  | true => rw [lifted, has_flip hn hi]; simp [hne]

theorem below_lifted (hn : n < 64) (hp : Bits.Below n p) :
    Bits.Below (n + 1) (lifted n positive p) := by
  intro i hi hbit
  by_cases hne : i = n
  · omega
  · rw [has_lifted hn hi hne] at hbit
    exact Nat.lt_succ_of_lt (hp i hi hbit)

theorem agrees_lifted (hn : n < 64) (hc : c.Within n) :
    c.agrees (lifted n positive p) = c.agrees p :=
  hc.agrees_congr fun _ hi hin => has_lifted hn hi (Nat.ne_of_lt hin)

/-- Every point is a point over the lower variables with a value for the highest one. -/
theorem exists_lifted (hn : n < 64) {q : UInt64} (hq : Bits.Below (n + 1) q) :
    ∃ value p, Bits.Below n p ∧ lifted n value p = q := by
  cases hbit : Bits.has q n with
  | false => exact ⟨false, q, below_of_clear hq hbit, rfl⟩
  | true => exact ⟨true, q ^^^ Bits.single n, below_flip hn hq hbit, flip_flip⟩

theorem mem_half (hn : n < 64) (hp : Bits.Below n p) :
    p ∈ half n positive points ↔ lifted n positive p ∈ points := by
  have hclear := has_of_below hn hp
  cases positive with
  | false => rw [half, mem_lower, and_iff_left hclear, lifted]
  | true => rw [half, mem_upper hn, and_iff_left hclear, lifted]

theorem mem_bothHalves (hn : n < 64) (hp : Bits.Below n p) :
    p ∈ bothHalves n points ↔ ∀ positive, lifted n positive p ∈ points := by
  rw [bothHalves, mem_shared, Bool.forall_bool, ← mem_half hn hp, ← mem_half hn hp]
  rfl

end Lifting

/-! ## A literal of the highest variable -/

/-- A cube with a literal of the highest variable. -/
def extend (n : Nat) (positive : Bool) (c : Cube) : Cube :=
  ⟨c.care ||| Bits.single n, if positive then c.value ||| Bits.single n else c.value⟩

section Extending

variable {positive : Bool}

theorem has_care_extend (hn : n < 64) {i : Nat} (hi : i < 64) :
    Bits.has (extend n positive c).care i = (Bits.has c.care i || decide (i = n)) := by
  rw [extend, Bits.has_or, Bits.has_single hi hn]

theorem has_value_extend (hn : n < 64) {i : Nat} (hi : i < 64) :
    Bits.has (extend n positive c).value i =
      (Bits.has c.value i || (decide (i = n) && positive)) := by
  cases positive <;> simp [extend, Bits.has_single hi hn]

/-- Neither a literal nor a value of the highest variable is left in a cube below it. -/
theorem clear_of_within (hn : n < 64) (hcanonical : c.Canonical) (hwithin : c.Within n) :
    Bits.has c.care n = false ∧ Bits.has c.value n = false := by
  have hcare : Bits.has c.care n = false :=
    Bool.eq_false_iff.2 fun hbit => Nat.lt_irrefl n (hwithin n hn hbit)
  refine ⟨hcare, Bool.eq_false_iff.2 fun hvalue => ?_⟩
  rw [Cube.canonical_iff.1 hcanonical n hn hvalue] at hcare
  cases hcare

theorem without_extend_of_clear (hn : n < 64) (hcare : Bits.has c.care n = false)
    (hvalue : Bits.has c.value n = false) :
    (extend n positive c).without (Bits.single n) = c := by
  apply Cube.eq_of_has
  · intro i hi
    simp only [Cube.without, Bits.has_and, Bits.has_not, Bits.has_single hi hn,
      has_care_extend hn hi]
    by_cases hne : i = n
    · simp [hne, hcare]
    · simp [hne]
  · intro i hi
    simp only [Cube.without, Bits.has_and, Bits.has_not, Bits.has_single hi hn,
      has_value_extend hn hi]
    by_cases hne : i = n
    · simp [hne, hvalue]
    · simp [hne]

theorem without_extend_self (hn : n < 64) (hcanonical : c.Canonical) (hwithin : c.Within n) :
    (extend n positive c).without (Bits.single n) = c := by
  obtain ⟨hcare, hvalue⟩ := clear_of_within hn hcanonical hwithin
  exact without_extend_of_clear hn hcare hvalue

theorem without_extend (hn : n < 64) {i : Nat} (hi : i < 64) (hne : i ≠ n) :
    (extend n positive c).without (Bits.single i) =
      extend n positive (c.without (Bits.single i)) := by
  apply Cube.eq_of_has
  · intro j hj
    simp only [Cube.without, Bits.has_and, Bits.has_not, Bits.has_single hj hi,
      has_care_extend hn hj]
    by_cases hjn : j = n
    · simp [hjn, Ne.symm hne]
    · simp [hjn]
  · intro j hj
    simp only [Cube.without, Bits.has_and, Bits.has_not, Bits.has_single hj hi,
      has_value_extend hn hj]
    by_cases hjn : j = n
    · simp [hjn, Ne.symm hne]
    · simp [hjn]

/-- A cube with a literal of the highest variable is the rest extended by the literal. -/
theorem extend_without_self (hn : n < 64) (hcare : Bits.has c.care n = true) :
    extend n (Bits.has c.value n) (c.without (Bits.single n)) = c := by
  apply Cube.eq_of_has
  · intro i hi
    rw [has_care_extend hn hi]
    simp only [Cube.without, Bits.has_and, Bits.has_not, Bits.has_single hi hn]
    by_cases hne : i = n
    · simp [hne, hcare]
    · simp [hne]
  · intro i hi
    rw [has_value_extend hn hi]
    simp only [Cube.without, Bits.has_and, Bits.has_not, Bits.has_single hi hn]
    by_cases hne : i = n
    · simp [hne]
    · simp [hne]

theorem within_without_self (hn : n < 64) (hc : c.Within (n + 1)) :
    (c.without (Bits.single n)).Within n := by
  intro i hi hcare
  simp only [Cube.without, Bits.has_and, Bits.has_not, Bits.has_single hi hn, Bool.and_eq_true,
    Bool.not_eq_true', decide_eq_false_iff_not] at hcare
  have hle := hc i hi hcare.1
  omega

/-- At a point with a value for the highest variable, an extended cube agrees if the values
are the same and the cube agrees. -/
theorem agrees_extend_lifted (hn : n < 64) (hcanonical : c.Canonical) (hwithin : c.Within n)
    {p : UInt64} (hp : Bits.Below n p) {value : Bool} :
    (extend n positive c).agrees (lifted n value p) = (c.agrees p && (value == positive)) := by
  rw [extend, agrees_extended hn hcanonical hwithin, agrees_lifted hn hwithin,
    has_lifted_self hn hp]

theorem IsImplicant.extend (hn : n < 64) (h : IsImplicant n (half n positive points) c) :
    IsImplicant (n + 1) points (extend n positive c) := by
  cases positive with
  | false => exact h.of_lower hn
  | true => exact h.of_upper hn

end Extending

/-! ## Primes without and with the highest variable -/

theorem isPrime_bothHalves_iff (hn : n < 64) :
    IsPrime n (bothHalves n points) c ↔
      IsPrime (n + 1) points c ∧ Bits.has c.care n = false := by
  constructor
  · intro h
    refine ⟨⟨h.toIsImplicant.of_shared hn, fun i hi hcare => ?_⟩,
      (clear_of_within hn h.canonical h.within).1⟩
    obtain ⟨p, hp, hagrees, hnot⟩ := h.tight i hi hcare
    rw [mem_bothHalves hn hp] at hnot
    obtain ⟨positive, hnot⟩ := Classical.not_forall.1 hnot
    refine ⟨lifted n positive p, below_lifted hn hp, ?_, hnot⟩
    rw [agrees_lifted hn (h.within.without _)]
    exact hagrees
  · rintro ⟨h, hfree⟩
    have hwithin : c.Within n := by
      intro i hi hcare
      have hle := h.within i hi hcare
      have hne : i ≠ n := by
        rintro rfl
        rw [hfree] at hcare
        cases hcare
      omega
    refine ⟨⟨h.canonical, hwithin, fun p hp hagrees => ?_⟩, fun i hi hcare => ?_⟩
    · rw [mem_bothHalves hn hp]
      intro positive
      apply h.inside _ (below_lifted hn hp)
      rw [agrees_lifted hn hwithin]
      exact hagrees
    · obtain ⟨q, hq, hagrees, hnot⟩ := h.tight i hi hcare
      obtain ⟨value, p, hp, rfl⟩ := exists_lifted hn hq
      rw [agrees_lifted hn (hwithin.without _)] at hagrees
      exact ⟨p, hp, hagrees, fun hmem => hnot ((mem_bothHalves hn hp).1 hmem _)⟩

/-- A prime of one half is a prime of the shared points if it is an implicant of them. -/
theorem IsPrime.bothHalves (hn : n < 64) {positive : Bool}
    (h : IsPrime n (half n positive points) c) (hboth : IsImplicant n (bothHalves n points) c) :
    IsPrime n (bothHalves n points) c := by
  refine ⟨hboth, fun i hi hcare => ?_⟩
  obtain ⟨p, hp, hagrees, hnot⟩ := h.tight i hi hcare
  refine ⟨p, hp, hagrees, fun hmem => hnot ?_⟩
  rw [mem_half hn hp]
  exact (mem_bothHalves hn hp).1 hmem positive

theorem isPrime_extend_iff (hn : n < 64) {positive : Bool} (hcanonical : c.Canonical)
    (hwithin : c.Within n) :
    IsPrime (n + 1) points (extend n positive c) ↔
      IsPrime n (half n positive points) c ∧ ¬IsImplicant n (bothHalves n points) c := by
  constructor
  · intro h
    refine ⟨⟨⟨hcanonical, hwithin, fun p hp hagrees => ?_⟩, fun i hi hcare => ?_⟩, fun hboth => ?_⟩
    · rw [mem_half hn hp]
      apply h.inside _ (below_lifted hn hp)
      rw [agrees_extend_lifted hn hcanonical hwithin hp, hagrees]
      simp
    · have hne : i ≠ n := Nat.ne_of_lt (hwithin i hi hcare)
      obtain ⟨q, hq, hagrees, hnot⟩ := h.tight i hi (by rw [has_care_extend hn hi, hcare]; rfl)
      obtain ⟨value, p, hp, rfl⟩ := exists_lifted hn hq
      rw [without_extend hn hi hne, agrees_extend_lifted hn (hcanonical.without _)
        (hwithin.without _) hp, Bool.and_eq_true, beq_iff_eq] at hagrees
      refine ⟨p, hp, hagrees.1, fun hmem => hnot ?_⟩
      rw [mem_half hn hp, ← hagrees.2] at hmem
      exact hmem
    · obtain ⟨q, hq, hagrees, hnot⟩ := h.tight n hn (by simp [has_care_extend hn hn])
      obtain ⟨value, p, hp, rfl⟩ := exists_lifted hn hq
      rw [without_extend_self hn hcanonical hwithin, agrees_lifted hn hwithin] at hagrees
      exact hnot ((mem_bothHalves hn hp).1 (hboth.inside p hp hagrees) _)
  · rintro ⟨h, hboth⟩
    refine ⟨h.toIsImplicant.extend hn, fun i hi hcare => ?_⟩
    by_cases hne : i = n
    · -- if the literal could go, the cube would be an implicant of the shared points
      subst hne
      rw [without_extend_self hn hcanonical hwithin]
      refine Classical.byContradiction fun hno => hboth ⟨hcanonical, hwithin, ?_⟩
      intro p hp hagrees
      rw [mem_bothHalves hn hp]
      intro value
      refine Classical.byContradiction fun hnot => hno ⟨_, below_lifted hn hp, ?_, hnot⟩
      rw [agrees_lifted hn hwithin]
      exact hagrees
    · have hcare : Bits.has c.care i = true := by simpa [has_care_extend hn hi, hne] using hcare
      obtain ⟨p, hp, hagrees, hnot⟩ := h.tight i hi hcare
      refine ⟨lifted n positive p, below_lifted hn hp, ?_, ?_⟩
      · rw [without_extend hn hi hne, agrees_extend_lifted hn (hcanonical.without _)
          (hwithin.without _) hp, hagrees]
        simp
      · rw [← mem_half hn hp]
        exact hnot

/-! ## The list of primes -/

theorem mem_primesOf_succ_iff :
    c ∈ primesOf (n + 1) points ↔
      points ≠ [] ∧
        ((points.length = pointCount (n + 1) ∧ c = Cube.everything) ∨
          points.length ≠ pointCount (n + 1) ∧
            (c ∈ primesOf n (bothHalves n points) ∨
              ∃ positive, ∃ d ∈ primesOf n (half n positive points),
                d ∉ primesOf n (bothHalves n points) ∧ c = extend n positive d)) := by
  rw [mem_primesOf_succ, mem_extended, mem_extended]
  simp only [Bool.exists_bool]
  rfl

theorem below_half (hn : n < 64) (hbelow : ∀ p ∈ points, Bits.Below (n + 1) p) (positive : Bool) :
    ∀ p ∈ half n positive points, Bits.Below n p := by
  cases positive with
  | false => exact below_lower hbelow
  | true => exact below_upper hn hbelow

theorem nodup_half (hnodup : points.Nodup) (positive : Bool) : (half n positive points).Nodup := by
  cases positive with
  | false => exact nodup_lower hnodup
  | true => exact nodup_upper hnodup

/-- The primes with a literal of the highest variable. -/
theorem isPrime_and_care_iff (hn : n < 64) :
    IsPrime (n + 1) points c ∧ Bits.has c.care n = true ↔
      ∃ positive d, IsPrime n (half n positive points) d ∧ ¬IsPrime n (bothHalves n points) d ∧
        c = extend n positive d := by
  constructor
  · rintro ⟨h, hcare⟩
    have hcanonical := h.canonical.without (Bits.single n)
    have hwithin := within_without_self hn h.within
    have hextend := extend_without_self hn hcare
    rw [← hextend, isPrime_extend_iff hn hcanonical hwithin] at h
    exact ⟨_, _, h.1, fun hprime => h.2 hprime.toIsImplicant, hextend.symm⟩
  · rintro ⟨positive, d, hprime, hnot, rfl⟩
    rw [isPrime_extend_iff hn hprime.canonical hprime.within]
    exact ⟨⟨hprime, fun hboth => hnot (hprime.bothHalves hn hboth)⟩, by simp [has_care_extend hn hn]⟩

/-- Splitting distinct points on one variable after the other gives their prime implicants. -/
theorem mem_primesOf_iff (hn : n ≤ 64) (hnodup : points.Nodup)
    (hbelow : ∀ p ∈ points, Bits.Below n p) : c ∈ primesOf n points ↔ IsPrime n points c := by
  induction n generalizing points c with
  | zero =>
    rw [primesOf]
    cases points with
    | nil => simp [not_isPrime_nil]
    | cons q ps =>
      have hq : q = 0 := below_zero (hbelow q List.mem_cons_self)
      rw [isPrime_of_forall_mem]
      · simp
      · intro p hp
        rw [below_zero hp, hq]
        exact List.mem_cons_self
  | succ n ih =>
    have hlt : n < 64 := hn
    rw [mem_primesOf_succ_iff]
    by_cases hempty : points = []
    · subst hempty
      simp [not_isPrime_nil]
    by_cases hfull : points.length = pointCount (n + 1)
    · rw [isPrime_of_forall_mem fun p hp => Bits.mem_of_length_eq hnodup hbelow hfull hp]
      simp [hempty, hfull]
    have hboth : ∀ {d}, d ∈ primesOf n (bothHalves n points) ↔ IsPrime n (bothHalves n points) d :=
      ih (Nat.le_of_lt hlt) (nodup_shared (nodup_lower hnodup))
        fun p hp => below_lower hbelow p (mem_shared.1 hp).1
    have hhalf : ∀ {positive d},
        d ∈ primesOf n (half n positive points) ↔ IsPrime n (half n positive points) d :=
      fun {positive _} => ih (Nat.le_of_lt hlt) (nodup_half hnodup positive)
        (below_half hlt hbelow positive)
    simp only [hempty, hfull, hboth, hhalf, ne_eq, not_false_eq_true, true_and, false_and, false_or]
    -- a prime has a literal of the highest variable or none
    rw [isPrime_bothHalves_iff hlt, ← isPrime_and_care_iff hlt]
    cases Bits.has c.care n <;> simp

/-! ## No prime is listed twice -/

section Distinct

variable {positive : Bool} {cubes others : List Cube}

theorem nodup_extended (hn : n < 64) (hnodup : cubes.Nodup)
    (hcubes : ∀ d ∈ cubes, IsImplicant n points d) :
    (extended (Bits.single n) positive cubes others).Nodup := by
  have hback : ∀ d ∈ cubes, (extend n positive d).without (Bits.single n) = d := fun d hd =>
    without_extend_self hn (hcubes d hd).canonical (hcubes d hd).within
  have hfilter := List.Pairwise.and_mem.1 (hnodup.sublist (List.filter_sublist
    (p := fun d => !(Std.HashSet.ofList others).contains d)))
  refine List.Pairwise.map _ ?_ hfilter
  rintro a b ⟨ha, hb, hne⟩ heq
  refine hne ?_
  rw [← hback a (List.mem_filter.1 ha).1, ← hback b (List.mem_filter.1 hb).1]
  exact congrArg (Cube.without · (Bits.single n)) heq

/-- The literal that the primes of a half get. -/
theorem has_of_mem_extended (hn : n < 64) (hcubes : ∀ d ∈ cubes, IsImplicant n points d)
    (h : c ∈ extended (Bits.single n) positive cubes others) :
    Bits.has c.care n = true ∧ Bits.has c.value n = positive := by
  obtain ⟨d, hd, -, hextend⟩ := mem_extended.1 h
  have hextend : c = extend n positive d := hextend
  have hclear := clear_of_within hn (hcubes d hd).canonical (hcubes d hd).within
  rw [hextend, has_care_extend hn hn, has_value_extend hn hn]
  simp [hclear.2]

end Distinct

/-- The three lists of primes are told apart by the literal of the highest variable. -/
theorem nodup_primesOf (hn : n ≤ 64) (hnodup : points.Nodup)
    (hbelow : ∀ p ∈ points, Bits.Below n p) : (primesOf n points).Nodup := by
  induction n generalizing points with
  | zero =>
    rw [primesOf]
    split <;> simp
  | succ n ih =>
    have hlt : n < 64 := hn
    have hle : n ≤ 64 := Nat.le_of_lt hlt
    have hboth : ∀ p ∈ bothHalves n points, Bits.Below n p :=
      fun p hp => below_lower hbelow p (mem_shared.1 hp).1
    have hbothNodup : (bothHalves n points).Nodup := nodup_shared (nodup_lower hnodup)
    have hfree : ∀ d ∈ primesOf n (bothHalves n points), Bits.has d.care n = false := by
      intro d hd
      have himplicant := isImplicant_of_mem_primesOf hle hbothNodup hboth hd
      exact (clear_of_within hlt himplicant.canonical himplicant.within).1
    have hhalf : ∀ positive, ∀ d ∈ primesOf n (half n positive points),
        IsImplicant n (half n positive points) d := fun positive _ hd =>
      isImplicant_of_mem_primesOf hle (nodup_half hnodup positive)
        (below_half hlt hbelow positive) hd
    have hnodupHalf : ∀ positive, (primesOf n (half n positive points)).Nodup := fun positive =>
      ih hle (nodup_half hnodup positive) (below_half hlt hbelow positive)
    rw [primesOf]
    split
    · simp
    split
    · simp
    · refine List.nodup_append.2 ⟨List.nodup_append.2 ⟨ih hle hbothNodup hboth,
        nodup_extended hlt (hnodupHalf false) (hhalf false), ?_⟩,
        nodup_extended hlt (hnodupHalf true) (hhalf true), ?_⟩
      · rintro a ha _ hb rfl
        have hmark := (has_of_mem_extended hlt (hhalf false) hb).1
        rw [hfree a ha] at hmark
        cases hmark
      · rintro a ha _ hb rfl
        have hmark := has_of_mem_extended hlt (hhalf true) hb
        rcases List.mem_append.1 ha with ha | ha
        · rw [hfree a ha] at hmark
          cases hmark.1
        · rw [(has_of_mem_extended hlt (hhalf false) ha).2] at hmark
          cases hmark.2

end Exact

end StreamFilter
