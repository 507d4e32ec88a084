import StreamFilter.Proofs.Cube.Order
import StreamFilter.Proofs.Minimize.AllPrimes
set_option autoImplicit false

/-!
# Merging finds the same primes as splitting

The prime implicants of some points are the implicants that no larger implicant contains
(`isPrime_iff_isMaximal`).  The Quine-McCluskey method, `mergedPrimes`, finds them from below: it
starts with the cubes of single points, merges cubes that differ in one polarity, level by level,
and keeps what merges with no other cube.  Each level holds the implicants with one number of
literals (`IsLevel`), as an implicant with a literal less is always the merge of two cubes of the
level (`IsLevel.merged`).  So merging and splitting list the same cubes (`perm_mergedPrimes`),
and as the selection does not depend on their order, minimizing with either gives the same sum
(`minimize_eq_merged`).
-/

namespace StreamFilter.Exact

variable {n : Nat} {points : List UInt64} {c d : Cube} {i : Nat}

/-! ## Maximal implicants -/

/-- Whether the points over `n` variables of one cube are points of another. -/
def Inside (n : Nat) (c d : Cube) : Prop :=
  ∀ p, Bits.Below n p → c.contains p = true → d.contains p = true

/-- An implicant that no larger implicant contains. -/
structure IsMaximal (n : Nat) (points : List UInt64) (c : Cube) : Prop
    extends IsImplicant n points c where
  maximal : ∀ d, IsImplicant n points d → Inside n c d → Inside n d c

theorem inside_iff (hc : c.Canonical) (hd : d.Canonical) :
    Inside n c d ↔ ∀ p, Bits.Below n p → c.agrees p = true → d.agrees p = true := by
  simp only [Inside, hc.contains_eq_agrees, hd.contains_eq_agrees]

theorem below_flip_of_lt (hi : i < 64) (hin : i < n) {p : UInt64} (hp : Bits.Below n p) :
    Bits.Below n (p ^^^ Bits.single i) := by
  intro j hj hbit
  rw [has_flip hi hj] at hbit
  by_cases hne : j = i
  · omega
  · exact hp j hj (by simpa [hne] using hbit)

theorem agrees_flip_of_free (hi : i < 64) (hfree : Bits.has c.care i = false) {p : UInt64}
    (h : c.agrees p = true) : c.agrees (p ^^^ Bits.single i) = true := by
  rw [Cube.agrees_iff] at h ⊢
  intro j hj hcare
  have hne : j ≠ i := by
    rintro rfl
    rw [hfree] at hcare
    cases hcare
  rw [has_flip hi hj, h j hj hcare]
  simp [hne]

/-- A cube that holds wherever another does has only literals of the other. -/
theorem literal_of_agrees (hc : c.Within n) (hd : d.Within n)
    (h : ∀ p, Bits.Below n p → c.agrees p = true → d.agrees p = true) (hi : i < 64)
    (hcare : Bits.has d.care i = true) :
    Bits.has c.care i = true ∧ Bits.has c.value i = Bits.has d.value i := by
  obtain ⟨p, hp, hagrees⟩ := hc.exists_agrees
  have hbit := Cube.agrees_iff.1 (h p hp hagrees) i hi hcare
  have hci : Bits.has c.care i = true := by
    -- otherwise both polarities of the variable agree with the first cube
    refine Bool.of_not_eq_false fun hfree => ?_
    have hflip := h _ (below_flip_of_lt hi (hd i hi hcare) hp)
      (agrees_flip_of_free hi hfree hagrees)
    have hother := Cube.agrees_iff.1 hflip i hi hcare
    rw [has_flip hi hi, hbit] at hother
    simp at hother
  exact ⟨hci, (Cube.agrees_iff.1 hagrees i hi hci).symm.trans hbit⟩

theorem IsPrime.maximal (h : IsPrime n points c) (hd : IsImplicant n points d)
    (hcd : Inside n c d) : Inside n d c := by
  rw [inside_iff h.canonical hd.canonical] at hcd
  rw [inside_iff hd.canonical h.canonical]
  have hliteral := fun i hi => literal_of_agrees (i := i) h.within hd.within hcd hi
  intro p hp hagrees
  rw [Cube.agrees_iff] at hagrees ⊢
  intro i hi hcare
  cases hdi : Bits.has d.care i with
  | true => rw [hagrees i hi hdi, (hliteral i hi hdi).2]
  | false =>
    -- the literal could be dropped inside the larger implicant
    obtain ⟨q, hq, hwithout, hnot⟩ := h.tight i hi hcare
    refine absurd (hd.inside q hq (Cube.agrees_iff.2 fun j hj hdj => ?_)) hnot
    have hne : j ≠ i := by
      rintro rfl
      rw [hdi] at hdj
      cases hdj
    rw [Cube.agrees_without] at hwithout
    rw [hwithout j hj (hliteral j hj hdj).1 (by simp [Bits.has_single hj hi, hne]),
      (hliteral j hj hdj).2]

theorem isPrime_iff_without :
    IsPrime n points c ↔ IsImplicant n points c ∧
      ∀ i < 64, Bits.has c.care i = true → ¬IsImplicant n points (c.without (Bits.single i)) := by
  constructor
  · intro h
    refine ⟨h.toIsImplicant, fun i hi hcare hwithout => ?_⟩
    obtain ⟨p, hp, hagrees, hnot⟩ := h.tight i hi hcare
    exact hnot (hwithout.inside p hp hagrees)
  · rintro ⟨h, hwithout⟩
    refine ⟨h, fun i hi hcare => Classical.byContradiction fun hno => hwithout i hi hcare ?_⟩
    refine ⟨h.canonical.without _, h.within.without _, fun p hp hagrees => ?_⟩
    exact Classical.byContradiction fun hnot => hno ⟨p, hp, hagrees, hnot⟩

theorem isPrime_iff_isMaximal : IsPrime n points c ↔ IsMaximal n points c := by
  constructor
  · intro h
    exact ⟨h.toIsImplicant, fun d hd => h.maximal hd⟩
  · intro h
    refine isPrime_iff_without.2 ⟨h.toIsImplicant, fun i hi hcare hlarger => ?_⟩
    have hinside : Inside n c (c.without (Bits.single i)) := by
      rw [inside_iff h.canonical hlarger.canonical]
      exact fun p _ hagrees => Cube.agrees_without_of_agrees _ hagrees
    have hback := h.maximal _ hlarger hinside
    rw [inside_iff hlarger.canonical h.canonical] at hback
    have hfree := (literal_of_agrees hlarger.within h.within hback hi hcare).1
    simp [Cube.without, Bits.has_single hi hi] at hfree

/-! ## Merging two cubes -/

/-- The cube with the polarity of one of its variables turned over. -/
def turned (c : Cube) (i : Nat) : Cube := ⟨c.care, c.value ^^^ Bits.single i⟩

theorem size_turned (c : Cube) (i : Nat) : (turned c i).size = c.size := rfl

/-- A cube and the one turned over hold together where the cube without the literal does. -/
theorem agrees_without_single (hi : i < 64) (hcare : Bits.has c.care i = true) (p : UInt64) :
    (c.without (Bits.single i)).agrees p = (c.agrees p || (turned c i).agrees p) := by
  rw [Bool.eq_iff_iff, Bool.or_eq_true, Cube.agrees_without]
  constructor
  · intro h
    have hother : ∀ j < 64, Bits.has c.care j = true → j ≠ i → Bits.has p j = Bits.has c.value j :=
      fun j hj hcj hne => h j hj hcj (by simp [Bits.has_single hj hi, hne])
    by_cases hbit : Bits.has p i = Bits.has c.value i
    · refine .inl (Cube.agrees_iff.2 fun j hj hcj => ?_)
      by_cases hne : j = i
      · rw [hne, hbit]
      · exact hother j hj hcj hne
    · refine .inr (Cube.agrees_iff.2 fun j hj hcj => ?_)
      rw [turned, has_flip hi hj]
      by_cases hne : j = i
      · rw [hne]
        cases hp : Bits.has p i <;> cases hv : Bits.has c.value i <;> simp [hp, hv] at hbit ⊢
      · rw [hother j hj hcj hne]
        simp [hne]
  · intro h j hj hcj hfree
    have hne : j ≠ i := by
      rintro rfl
      simp [Bits.has_single hj hj] at hfree
    rcases h with h | h
    · exact Cube.agrees_iff.1 h j hj hcj
    · have hbit := Cube.agrees_iff.1 h j hj hcj
      rwa [turned, has_flip hi hj, decide_eq_false hne, Bool.xor_false] at hbit

theorem canonical_turned (hi : i < 64) (hcare : Bits.has c.care i = true) (h : c.Canonical) :
    (turned c i).Canonical := by
  rw [Cube.canonical_iff] at h ⊢
  intro j hj hvalue
  by_cases hne : j = i
  · rw [hne]
    exact hcare
  · rw [turned, has_flip hi hj, decide_eq_false hne, Bool.xor_false] at hvalue
    exact h j hj hvalue

/-- A literal can be dropped if both of its polarities give implicants. -/
theorem isImplicant_without_iff (hi : i < 64) (hcare : Bits.has c.care i = true)
    (hcanonical : c.Canonical) (hwithin : c.Within n) :
    IsImplicant n points (c.without (Bits.single i)) ↔
      IsImplicant n points c ∧ IsImplicant n points (turned c i) := by
  constructor
  · intro h
    refine ⟨⟨hcanonical, hwithin, fun p hp hagrees => h.inside p hp ?_⟩,
      canonical_turned hi hcare hcanonical, hwithin, fun p hp hagrees => h.inside p hp ?_⟩
    · rw [agrees_without_single hi hcare, hagrees, Bool.true_or]
    · rw [agrees_without_single hi hcare, hagrees, Bool.or_true]
  · rintro ⟨h, hturned⟩
    refine ⟨hcanonical.without _, hwithin.without _, fun p hp hagrees => ?_⟩
    rw [agrees_without_single hi hcare, Bool.or_eq_true] at hagrees
    rcases hagrees with hagrees | hagrees
    · exact h.inside p hp hagrees
    · exact hturned.inside p hp hagrees

theorem isPrime_iff_turned :
    IsPrime n points c ↔ IsImplicant n points c ∧
      ∀ i < 64, Bits.has c.care i = true → ¬IsImplicant n points (turned c i) := by
  rw [isPrime_iff_without]
  refine and_congr_right fun h => forall_congr' fun i => forall_congr' fun hi =>
    forall_congr' fun hcare => ?_
  rw [isImplicant_without_iff hi hcare h.canonical h.within, and_iff_right h]

/-! ## Counting literals -/

/-- A cube over `n` variables has fewer than `n` literals if it lacks a variable. -/
theorem size_lt_iff (hn : n ≤ 64) (hc : c.Within n) :
    c.size < n ↔ ∃ i < n, Bits.has c.care i = false := by
  constructor
  · intro hlt
    refine Classical.byContradiction fun hno => ?_
    have hsubset : List.range n ⊆ Bits.positions c.care := by
      intro i hi
      rw [List.mem_range] at hi
      refine Bits.mem_positions.2 ⟨by omega, Bool.of_not_eq_false fun hfree => hno ⟨i, hi, hfree⟩⟩
    have hle := (List.nodup_range (n := n)).length_le_of_subset hsubset
    rw [List.length_range] at hle
    exact absurd hlt (Nat.not_lt.2 hle)
  · rintro ⟨i, hi, hfree⟩
    have hsubset : (i :: Bits.positions c.care) ⊆ List.range n := by
      intro j hj
      rw [List.mem_range]
      rcases List.mem_cons.1 hj with rfl | hj
      · exact hi
      · obtain ⟨hj, hcare⟩ := Bits.mem_positions.1 hj
        exact hc j hj hcare
    have hnodup : (i :: Bits.positions c.care).Nodup := by
      refine List.nodup_cons.2 ⟨fun hmem => ?_, Bits.nodup_positions c.care⟩
      rw [(Bits.mem_positions.1 hmem).2] at hfree
      cases hfree
    have hle := hnodup.length_le_of_subset hsubset
    rw [List.length_range] at hle
    exact hle

theorem size_le (hc : c.Within n) : c.size ≤ n := by
  have hsubset : Bits.positions c.care ⊆ List.range n := by
    intro i hi
    obtain ⟨hi, hcare⟩ := Bits.mem_positions.1 hi
    exact List.mem_range.2 (hc i hi hcare)
  have hle := (Bits.nodup_positions c.care).length_le_of_subset hsubset
  rwa [List.length_range] at hle

/-- An implicant that lacks a variable is the merge of two implicants with one literal more. -/
theorem exists_merging (hn : n ≤ 64) (h : IsImplicant n points d) (hlt : d.size < n) :
    ∃ c i, i < 64 ∧ Bits.has c.care i = true ∧ c.without (Bits.single i) = d ∧
      c.size = d.size + 1 ∧ IsImplicant n points c ∧ IsImplicant n points (turned c i) := by
  obtain ⟨i, hin, hfree⟩ := (size_lt_iff hn h.within).1 hlt
  have hi : i < 64 := by omega
  have hvalue : Bits.has d.value i = false := by
    refine Bool.eq_false_iff.2 fun hbit => ?_
    rw [Cube.canonical_iff.1 h.canonical i hi hbit] at hfree
    cases hfree
  have hcare : Bits.has (extend i true d).care i = true := by simp [has_care_extend hi hi]
  have hwithout : (extend i true d).without (Bits.single i) = d :=
    without_extend_of_clear hi hfree hvalue
  have hcanonical : (extend i true d).Canonical := canonical_extended h.canonical true
  have hwithin : (extend i true d).Within n := by
    intro j hj hbit
    rw [has_care_extend hi hj, Bool.or_eq_true, decide_eq_true_eq] at hbit
    rcases hbit with hbit | rfl
    · exact h.within j hj hbit
    · exact hin
  have hsize := Cube.size_without hi hcare
  rw [hwithout] at hsize
  rw [← hwithout] at h
  obtain ⟨hc, hturned⟩ := (isImplicant_without_iff hi hcare hcanonical hwithin).1 h
  exact ⟨extend i true d, i, hi, hcare, hwithout, hsize.symm, hc, hturned⟩

/-- There are implicants with any number of literals above that of one. -/
theorem exists_implicant_of_size (hn : n ≤ 64) (h : IsImplicant n points c) {k : Nat}
    (hk : k ≤ n) (hsize : c.size ≤ k) : ∃ d, IsImplicant n points d ∧ d.size = k := by
  induction k with
  | zero => exact ⟨c, h, by omega⟩
  | succ k ih =>
    by_cases heq : c.size = k + 1
    · exact ⟨c, h, heq⟩
    · obtain ⟨d, hd, hdk⟩ := ih (by omega) (by omega)
      obtain ⟨e, i, -, -, -, hesize, he, -⟩ := exists_merging hn hd (by omega)
      exact ⟨e, he, by omega⟩

/-! ## Levels -/

/-- The variables in whose polarity a cube differs from another cube of a list, and in nothing
else. -/
def mergingAt (level : List Cube) (c : Cube) : List Nat :=
  (Bits.positions c.care).filter fun i => level.contains (turned c i)

/-- The merges of the cubes of a list. -/
def mergedLevel (level : List Cube) : List Cube :=
  ascending Cube.le
    (level.flatMap fun c => (mergingAt level c).map fun i => c.without (Bits.single i))

/-- The cubes of a list that merge with no other. -/
def unmerged (level : List Cube) : List Cube :=
  level.filter fun c => (mergingAt level c).isEmpty

/-- A bound of the words of variables in a list of cubes. -/
def span : List Cube → Nat
  | [] => 0
  | c :: cs => max (c.care.toNat + 1) (span cs)

theorem span_le_iff {level : List Cube} {k : Nat} :
    span level ≤ k ↔ ∀ c ∈ level, c.care.toNat < k := by
  induction level with
  | nil => simp [span]
  | cons c cs ih => simp only [span, Nat.max_le, List.forall_mem_cons, ih, Nat.succ_le_iff]

theorem mem_mergingAt {level : List Cube} :
    i ∈ mergingAt level c ↔ i < 64 ∧ Bits.has c.care i = true ∧ turned c i ∈ level := by
  rw [mergingAt, List.mem_filter, Bits.mem_positions, List.contains_iff_mem, and_assoc]

theorem mem_mergedLevel {level : List Cube} :
    d ∈ mergedLevel level ↔ ∃ c ∈ level, ∃ i < 64, Bits.has c.care i = true ∧
      turned c i ∈ level ∧ c.without (Bits.single i) = d := by
  simp only [mergedLevel, mem_ascending, List.mem_flatMap, List.mem_map, mem_mergingAt, and_assoc]

/-- Merging drops a variable from each cube. -/
theorem span_mergedLevel_lt {level : List Cube} (h : level ≠ []) :
    span (mergedLevel level) < span level := by
  obtain ⟨c, cs, rfl⟩ := List.exists_cons_of_ne_nil h
  have hall : ∀ c' ∈ c :: cs, c'.care.toNat < span (c :: cs) := span_le_iff.1 (Nat.le_refl _)
  have hpos : 0 < span (c :: cs) := Nat.zero_lt_of_lt (hall c List.mem_cons_self)
  have hle : span (mergedLevel (c :: cs)) ≤ span (c :: cs) - 1 := by
    rw [span_le_iff]
    intro d hd
    obtain ⟨c', hc', i, hi, hcare, -, rfl⟩ := mem_mergedLevel.1 hd
    have hne : c'.care &&& Bits.single i ≠ 0 := by simpa [Bits.has] using hcare
    have hlt := Cube.toNat_care_without_lt hne
    have hbound := hall c' hc'
    omega
  omega

/-- The cubes that merge with no other, on this level and on those that follow. -/
def mergeLevels (level : List Cube) : List Cube :=
  if h : level = [] then []
  else
    have : span (mergedLevel level) < span level := span_mergedLevel_lt h
    unmerged level ++ mergeLevels (mergedLevel level)
termination_by span level

/-- The cube of a single point over `n` variables. -/
def pointCube (n : Nat) (p : UInt64) : Cube :=
  Cube.minterm p (Bits.ofTruth fun i => decide (i < n))

/-- The prime implicants of some points over `n` variables, by merging. -/
def mergedPrimes (n : Nat) (points : List UInt64) : List Cube :=
  mergeLevels (ascending Cube.le (points.map (pointCube n)))

/-- A list of the implicants with `k` literals. -/
structure IsLevel (n : Nat) (points : List UInt64) (k : Nat) (level : List Cube) : Prop where
  nodup : level.Nodup
  mem_iff : ∀ c, c ∈ level ↔ IsImplicant n points c ∧ c.size = k

theorem IsLevel.mem_unmerged {k : Nat} {level : List Cube} (h : IsLevel n points k level) :
    c ∈ unmerged level ↔ IsPrime n points c ∧ c.size = k := by
  rw [unmerged, List.mem_filter, List.isEmpty_iff, List.eq_nil_iff_forall_not_mem, h.mem_iff,
    isPrime_iff_turned]
  simp only [mem_mergingAt, h.mem_iff, size_turned]
  constructor
  · rintro ⟨⟨hc, hsize⟩, hnone⟩
    exact ⟨⟨hc, fun i hi hcare himplicant => hnone i ⟨hi, hcare, himplicant, hsize⟩⟩, hsize⟩
  · rintro ⟨⟨hc, hnone⟩, hsize⟩
    exact ⟨⟨hc, hsize⟩, fun i hi => hnone i hi.1 hi.2.1 hi.2.2.1⟩

/-- Merging a level gives the next one: nothing but implicants, and all of them. -/
theorem IsLevel.merged (hn : n ≤ 64) {k : Nat} (hk : k < n) {level : List Cube}
    (h : IsLevel n points (k + 1) level) : IsLevel n points k (mergedLevel level) := by
  refine ⟨Cube.nodup_ascending_cubes _, fun d => ?_⟩
  rw [mem_mergedLevel]
  constructor
  · rintro ⟨c, hc, i, hi, hcare, hturned, rfl⟩
    obtain ⟨hc, hsize⟩ := (h.mem_iff c).1 hc
    obtain ⟨hturned, -⟩ := (h.mem_iff _).1 hturned
    have hless := Cube.size_without hi hcare
    exact ⟨(isImplicant_without_iff hi hcare hc.canonical hc.within).2 ⟨hc, hturned⟩, by omega⟩
  · rintro ⟨hd, hsize⟩
    obtain ⟨c, i, hi, hcare, hwithout, hmore, hc, hturned⟩ := exists_merging hn hd (by omega)
    exact ⟨c, (h.mem_iff c).2 ⟨hc, by omega⟩, i, hi, hcare,
      (h.mem_iff _).2 ⟨hturned, by rw [size_turned]; omega⟩, hwithout⟩

theorem mergedLevel_of_size_zero {level : List Cube} (h : IsLevel n points 0 level) :
    mergedLevel level = [] := by
  refine List.eq_nil_iff_forall_not_mem.2 fun d hd => ?_
  obtain ⟨c, hc, i, hi, hcare, -⟩ := mem_mergedLevel.1 hd
  have hless := Cube.size_without hi hcare
  have hsize := ((h.mem_iff c).1 hc).2
  omega

/-! ## All levels -/

theorem mergeLevels_nil : mergeLevels [] = [] := by
  rw [mergeLevels, dif_pos rfl]

theorem mergeLevels_of_ne_nil {level : List Cube} (h : level ≠ []) :
    mergeLevels level = unmerged level ++ mergeLevels (mergedLevel level) := by
  rw [mergeLevels, dif_neg h]

section Levels

variable {k : Nat} {level : List Cube}

/-- Below an empty level there is no implicant, as there would be one on the level above it. -/
theorem IsLevel.lt_size_of_nil (hn : n ≤ 64) (hk : k ≤ n) (h : IsLevel n points k [])
    (hc : IsImplicant n points c) : k < c.size := by
  refine Nat.not_le.1 fun hle => ?_
  obtain ⟨d, hd, hsize⟩ := exists_implicant_of_size hn hc hk hle
  exact List.not_mem_nil ((h.mem_iff d).2 ⟨hd, hsize⟩)

theorem IsLevel.mem_mergeLevels_nil (hn : n ≤ 64) (hk : k ≤ n) (h : IsLevel n points k []) :
    c ∈ mergeLevels [] ↔ IsPrime n points c ∧ c.size ≤ k := by
  rw [mergeLevels_nil]
  refine iff_of_false List.not_mem_nil fun hc => ?_
  exact absurd hc.2 (Nat.not_le.2 (h.lt_size_of_nil hn hk hc.1.toIsImplicant))

/-- From the level with `k` literals on, merging finds the primes with at most `k` literals. -/
theorem IsLevel.mem_mergeLevels (hn : n ≤ 64) (hk : k ≤ n) (h : IsLevel n points k level) :
    c ∈ mergeLevels level ↔ IsPrime n points c ∧ c.size ≤ k := by
  induction k generalizing level with
  | zero =>
    by_cases hempty : level = []
    · subst hempty
      exact h.mem_mergeLevels_nil hn hk
    · rw [mergeLevels_of_ne_nil hempty, List.mem_append, h.mem_unmerged,
        mergedLevel_of_size_zero h, mergeLevels_nil]
      simp
  | succ k ih =>
    by_cases hempty : level = []
    · subst hempty
      exact h.mem_mergeLevels_nil hn hk
    · rw [mergeLevels_of_ne_nil hempty, List.mem_append, h.mem_unmerged,
        ih (by omega) (h.merged hn (by omega)), ← and_or_left]
      exact and_congr_right fun _ => by omega

theorem IsLevel.nodup_mergeLevels (hn : n ≤ 64) (hk : k ≤ n) (h : IsLevel n points k level) :
    (mergeLevels level).Nodup := by
  have hunmerged : (unmerged level).Nodup := h.nodup.sublist List.filter_sublist
  induction k generalizing level with
  | zero =>
    by_cases hempty : level = []
    · rw [hempty, mergeLevels_nil]
      exact List.nodup_nil
    · rw [mergeLevels_of_ne_nil hempty, mergedLevel_of_size_zero h, mergeLevels_nil,
        List.append_nil]
      exact hunmerged
  | succ k ih =>
    by_cases hempty : level = []
    · rw [hempty, mergeLevels_nil]
      exact List.nodup_nil
    · have hnext := h.merged hn (by omega)
      rw [mergeLevels_of_ne_nil hempty]
      refine List.nodup_append.2 ⟨hunmerged,
        ih (by omega) hnext (hnext.nodup.sublist List.filter_sublist), ?_⟩
      -- the cubes of later levels have fewer literals
      rintro c hc _ hd rfl
      have hsize := (h.mem_unmerged.1 hc).2
      have hless := ((hnext.mem_mergeLevels hn (by omega)).1 hd).2
      omega

end Levels

/-! ## The first level -/

theorem has_care_pointCube (n : Nat) (p : UInt64) (hi : i < 64) :
    Bits.has (pointCube n p).care i = decide (i < n) :=
  Bits.has_ofTruth _ hi

theorem isImplicant_pointCube {p : UInt64} (hp : p ∈ points) (hbelow : Bits.Below n p) :
    IsImplicant n points (pointCube n p) := by
  refine ⟨Cube.canonical_iff.2 fun i hi hvalue => ?_, fun i hi hcare => ?_, fun q hq hagrees => ?_⟩
  · rw [has_care_pointCube n p hi]
    exact decide_eq_true (hbelow i hi hvalue)
  · rw [has_care_pointCube n p hi] at hcare
    exact of_decide_eq_true hcare
  · have heq : q = p := by
      apply Bits.eq_of_has
      intro i hi
      by_cases hin : i < n
      · have hcare : Bits.has (pointCube n p).care i = true := by
          rw [has_care_pointCube n p hi, decide_eq_true hin]
        exact Cube.agrees_iff.1 hagrees i hi hcare
      · have hclear : ∀ r, Bits.Below n r → Bits.has r i = false := fun r hr =>
          Bool.eq_false_iff.2 fun hbit => hin (hr i hi hbit)
        rw [hclear q hq, hclear p hbelow]
    rw [heq]
    exact hp

/-- An implicant with a literal for each variable is the cube of one of the points. -/
theorem IsImplicant.eq_pointCube (hn : n ≤ 64) (h : IsImplicant n points c) (hsize : c.size = n) :
    c.value ∈ points ∧ pointCube n c.value = c := by
  have hfull : ∀ i < n, Bits.has c.care i = true := by
    intro i hi
    refine Bool.of_not_eq_false fun hfree => ?_
    have hlt := (size_lt_iff hn h.within).2 ⟨i, hi, hfree⟩
    omega
  have hbelow : Bits.Below n c.value := fun i hi hbit =>
    h.within i hi (Cube.canonical_iff.1 h.canonical i hi hbit)
  refine ⟨h.inside _ hbelow (Cube.agrees_iff.2 fun i _ _ => rfl), Cube.eq_of_has ?_ fun _ _ => rfl⟩
  intro i hi
  rw [has_care_pointCube n _ hi]
  by_cases hin : i < n
  · rw [hfull i hin, decide_eq_true hin]
  · rw [decide_eq_false hin, Bool.eq_false_iff.2 fun hcare => hin (h.within i hi hcare)]

theorem isLevel_pointCubes (hn : n ≤ 64) (hbelow : ∀ p ∈ points, Bits.Below n p) :
    IsLevel n points n (ascending Cube.le (points.map (pointCube n))) := by
  refine ⟨Cube.nodup_ascending_cubes _, fun c => ?_⟩
  rw [mem_ascending, List.mem_map]
  constructor
  · rintro ⟨p, hp, rfl⟩
    have himplicant := isImplicant_pointCube hp (hbelow p hp)
    refine ⟨himplicant, Nat.le_antisymm (size_le himplicant.within) (Nat.not_lt.1 fun hlt => ?_)⟩
    obtain ⟨i, hi, hfree⟩ := (size_lt_iff hn himplicant.within).1 hlt
    rw [has_care_pointCube n p (by omega), decide_eq_true hi] at hfree
    cases hfree
  · rintro ⟨h, hsize⟩
    obtain ⟨hmem, heq⟩ := h.eq_pointCube hn hsize
    exact ⟨c.value, hmem, heq⟩

theorem mem_mergedPrimes (hn : n ≤ 64) (hbelow : ∀ p ∈ points, Bits.Below n p) :
    c ∈ mergedPrimes n points ↔ IsPrime n points c := by
  rw [mergedPrimes, (isLevel_pointCubes hn hbelow).mem_mergeLevels hn (Nat.le_refl n)]
  exact and_iff_left_of_imp fun h => size_le h.within

theorem nodup_mergedPrimes (hn : n ≤ 64) (hbelow : ∀ p ∈ points, Bits.Below n p) :
    (mergedPrimes n points).Nodup :=
  (isLevel_pointCubes hn hbelow).nodup_mergeLevels hn (Nat.le_refl n)

/-! ## Both ways -/

theorem isPrime_congr {others : List UInt64} (h : ∀ p, p ∈ points ↔ p ∈ others) :
    IsPrime n points c ↔ IsPrime n others c := by
  constructor
  · intro hc
    refine ⟨⟨hc.canonical, hc.within, fun p hp hagrees => (h p).1 (hc.inside p hp hagrees)⟩, ?_⟩
    simpa only [h] using hc.tight
  · intro hc
    refine ⟨⟨hc.canonical, hc.within, fun p hp hagrees => (h p).2 (hc.inside p hp hagrees)⟩, ?_⟩
    simpa only [h] using hc.tight

theorem mem_primeImplicants_iff (hn : n ≤ 64) (hbelow : ∀ p ∈ points, Bits.Below n p) :
    c ∈ primeImplicants n points ↔ IsPrime n points c := by
  rw [primeImplicants, mem_primesOf_iff hn (nodup_ascending_points points)
    (fun p hp => hbelow p (mem_ascending.1 hp)), isPrime_congr fun p => mem_ascending]

theorem nodup_primeImplicants (hn : n ≤ 64) (hbelow : ∀ p ∈ points, Bits.Below n p) :
    (primeImplicants n points).Nodup :=
  nodup_primesOf hn (nodup_ascending_points points) fun p hp => hbelow p (mem_ascending.1 hp)

theorem perm_mergedPrimes (hn : n ≤ 64) (hbelow : ∀ p ∈ points, Bits.Below n p) :
    (primeImplicants n points).Perm (mergedPrimes n points) := by
  rw [List.perm_ext_iff_of_nodup (nodup_primeImplicants hn hbelow) (nodup_mergedPrimes hn hbelow)]
  intro c
  rw [mem_primeImplicants_iff hn hbelow, mem_mergedPrimes hn hbelow]

/-- Minimizing with the primes that merging finds, in the order in which it finds them, gives
the same sum. -/
theorem minimize_eq_merged (hn : n ≤ 64) (f : Formula Nat) :
    minimize n f =
      if (onset n f).isEmpty then .never
      else if (onset n f).length == pointCount n then .always
      else .sum (selectCover (mergedPrimes n (onset n f)) (onset n f)) := by
  have hbelow : ∀ p ∈ onset n f, Bits.Below n p := fun p hp => (mem_onset.1 hp).1
  rw [minimize, selectCover_eq_of_perm (perm_mergedPrimes hn hbelow)]

/-! ## Primes can be decided

There are finitely many points to look at.  They are listed with `all` and `any`, as deciding a
statement about every word would go through all words. -/

theorem isImplicant_iff_points :
    IsImplicant n points c ↔ c.Canonical ∧ (∀ i < 64, Bits.has c.care i = true → i < n) ∧
      (Bits.points n).all (fun p => !c.agrees p || points.contains p) = true := by
  simp only [List.all_eq_true, Bits.mem_points, Bool.or_eq_true, Bool.not_eq_true',
    ← Bool.not_eq_true, ← Decidable.imp_iff_not_or, List.contains_iff_mem]
  exact ⟨fun h => ⟨h.canonical, h.within, h.inside⟩, fun h => ⟨h.1, h.2.1, h.2.2⟩⟩

instance : Decidable (IsImplicant n points c) := decidable_of_iff _ isImplicant_iff_points.symm

theorem isPrime_iff_points :
    IsPrime n points c ↔ IsImplicant n points c ∧ ∀ i < 64, Bits.has c.care i = true →
      (Bits.points n).any (fun p =>
        (c.without (Bits.single i)).agrees p && !points.contains p) = true := by
  simp only [List.any_eq_true, Bits.mem_points, Bool.and_eq_true, Bool.not_eq_true',
    ← Bool.not_eq_true, List.contains_iff_mem]
  exact ⟨fun h => ⟨h.toIsImplicant, h.tight⟩, fun h => ⟨h.1, h.2⟩⟩

instance : Decidable (IsPrime n points c) := decidable_of_iff _ isPrime_iff_points.symm

/-! ## The list of primes is exact -/

/-- The prime implicants of a list of points are found without repetition, they are the cubes
that merging finds, and they are the cubes over the variables that have no other points and lie
in no larger cube of this kind. -/
theorem primeImplicants_exact (hn : n ≤ 64) (hpoints : ∀ p ∈ points, p.toNat < pointCount n) :
    (primeImplicants n points).Nodup ∧
    (primeImplicants n points).Perm (mergedPrimes n points) ∧
    ∀ c, c ∈ primeImplicants n points ↔ IsMaximal n points c := by
  have hbelow : ∀ p ∈ points, Bits.Below n p := fun p hp => Bits.below_iff.2 (hpoints p hp)
  refine ⟨nodup_primeImplicants hn hbelow, perm_mergedPrimes hn hbelow, fun c => ?_⟩
  rw [mem_primeImplicants_iff hn hbelow, isPrime_iff_isMaximal]

/-- Two primes that share a point; its own cube is an implicant, but no prime. -/
theorem primeImplicants_exact_overlapping :
    (∀ p ∈ ([3, 1, 7, 3] : List UInt64), p.toNat < pointCount 3) ∧
      (⟨5, 1⟩ : Cube) ∈ primeImplicants 3 [3, 1, 7, 3] ∧
      (⟨3, 3⟩ : Cube) ∈ primeImplicants 3 [3, 1, 7, 3] ∧
      (⟨7, 3⟩ : Cube) ∉ primeImplicants 3 [3, 1, 7, 3] := by
  have hpoints : ∀ p ∈ ([3, 1, 7, 3] : List UInt64), p.toNat < pointCount 3 := by
    simp [pointCount]
  have hexact := (primeImplicants_exact (by decide) hpoints).2.2
  simp only [← isPrime_iff_isMaximal] at hexact
  refine ⟨hpoints, (hexact _).2 ?_, (hexact _).2 ?_, mt (hexact _).1 ?_⟩ <;> decide +kernel

end StreamFilter.Exact
