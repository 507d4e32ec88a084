import StreamFilter.Proofs.Minimize.AllPrimes
import StreamFilter.Proofs.Minimize.Heuristic
set_option autoImplicit false

/-!
# Minimized sums are irredundant sums of primes

No literal of a minimized sum can be dropped, and no term (`IsPrimeSumOf`).  The exact
way selects among prime implicants, the heuristic one enlarges each cube until every
literal left has been tried.  Both then pass over the cubes once and keep those that
have a point of their own.  Cubes looked at later can only go, so such a point stays one
(`Cover.IrredundantBeside`).
-/

namespace StreamFilter

namespace Cover

/-- Distinct cubes each of which has a point where no other of them holds, nor any cube
of a second list. -/
structure IrredundantBeside (others cubes : List Cube) : Prop where
  nodup : cubes.Nodup
  alone : ∀ c ∈ cubes, ∃ point, c.agrees point = true ∧
    ∀ d ∈ others ++ cubes, d ≠ c → d.agrees point = false

variable {others cubes : List Cube} {c : Cube}

theorem irredundantBeside_nil (others : List Cube) : IrredundantBeside others [] :=
  ⟨List.nodup_nil, by simp⟩

theorem IrredundantBeside.drop (h : IrredundantBeside (c :: others) cubes) :
    IrredundantBeside others cubes := by
  refine ⟨h.nodup, fun e he => ?_⟩
  obtain ⟨point, hagrees, hfail⟩ := h.alone e he
  exact ⟨point, hagrees, fun d hd => hfail d (List.mem_cons_of_mem c hd)⟩

/-- A cube with a point of its own can be kept: it holds at no point that is another's own. -/
theorem IrredundantBeside.keep (h : IrredundantBeside (c :: others) cubes) (own : UInt64)
    (hown : c.agrees own = true) (hothers : holdsAt (others ++ cubes) own = false) :
    IrredundantBeside others (c :: cubes) := by
  have hfail : ∀ d ∈ others ++ cubes, d.agrees own = false := fun d hd =>
    Bool.eq_false_iff.2 (List.any_eq_false.1 hothers d hd)
  have hnew : c ∉ cubes := by
    intro hmem
    have hclash := hfail c (List.mem_append_right others hmem)
    rw [hown] at hclash
    cases hclash
  refine ⟨List.nodup_cons.2 ⟨hnew, h.nodup⟩, fun e he => ?_⟩
  rcases List.mem_cons.1 he with rfl | he
  · refine ⟨own, hown, fun d hd hne => hfail d ?_⟩
    simpa [hne] using hd
  · obtain ⟨point, hagrees, hothers⟩ := h.alone e he
    refine ⟨point, hagrees, fun d hd => hothers d ?_⟩
    simpa [or_left_comm] using hd

theorem IrredundantBeside.perm {ds : List Cube} (h : IrredundantBeside others cubes)
    (hperm : cubes.Perm ds) : IrredundantBeside others ds := by
  refine ⟨hperm.nodup h.nodup, fun c hc => ?_⟩
  obtain ⟨point, hagrees, hfail⟩ := h.alone c (hperm.mem_iff.2 hc)
  refine ⟨point, hagrees, fun d hd => hfail d ?_⟩
  simpa [hperm.mem_iff] using hd

theorem exists_of_not_implies (h : implies cubes c = false) :
    ∃ point, c.agrees point = true ∧ holdsAt cubes point = false := by
  refine Classical.byContradiction fun hno => Bool.eq_false_iff.1 h (implies_iff.2 ?_)
  intro point hagrees
  exact Bool.of_not_eq_false fun hfalse => hno ⟨point, hagrees, hfalse⟩

end Cover

/-- A cube inside a function of points that has a point outside as soon as one of its
literals is dropped. -/
structure Cube.IsPrimeOf (value : UInt64 → Bool) (c : Cube) : Prop where
  canonical : c.Canonical
  inside : ∀ point, c.agrees point = true → value point = true
  tight : ∀ i < 64, Bits.has c.care i = true →
    ∃ point, (c.without (Bits.single i)).agrees point = true ∧ value point = false

/-- A sum of primes of a formula, none of which is covered by the others. -/
structure IsPrimeSumOf (n : Nat) (f : Formula Nat) (cubes : List Cube) : Prop
    extends IsSumOf n f cubes where
  prime : ∀ c ∈ cubes, c.IsPrimeOf fun point => f.holds (Bits.has point)
  irredundant : Cover.IrredundantBeside [] cubes

/-! ## Exact minimization -/

namespace Exact

variable {n : Nat} {f : Formula Nat}

/-- Each cube that stays has a point that no cube before it and no cube kept contains. -/
theorem irredundantBeside_dropRedundant {points : List UInt64} {before kept : List Cube}
    (hbefore : ∀ c ∈ before, c.Canonical) (hkept : ∀ c ∈ kept, c.Canonical)
    (h : Cover.IrredundantBeside before kept) :
    Cover.IrredundantBeside [] (dropRedundant points before kept) := by
  fun_induction dropRedundant points before kept with
  | case1 kept => exact h
  | case2 c before kept others _ ih =>
    exact ih (fun d hd => hbefore d (List.mem_cons_of_mem c hd)) hkept h.drop
  | case3 c before kept others hneeded ih =>
    have hc : c.Canonical := hbefore c List.mem_cons_self
    have hrest : ∀ d ∈ before, d.Canonical := fun d hd => hbefore d (List.mem_cons_of_mem c hd)
    rw [Bool.not_eq_true, List.all_eq_false] at hneeded
    obtain ⟨point, -, hpoint⟩ := hneeded
    simp only [Bool.or_eq_true, Bool.not_eq_true', not_or, Bool.not_eq_false, Bool.not_eq_true]
      at hpoint
    obtain ⟨hcontains, hothers⟩ := hpoint
    refine ih hrest (by simpa using ⟨hc, hkept⟩) (h.keep point ?_ ?_)
    · rw [← hc.contains_eq_agrees]
      exact hcontains
    · refine List.any_eq_false.2 fun d hd => ?_
      have hcanonical : d.Canonical := (List.mem_append.1 hd).elim (hrest d) (hkept d)
      rw [← hcanonical.contains_eq_agrees]
      exact List.any_eq_false.1 hothers d hd

theorem irredundantBeside_selectCover {primes : List Cube} {points : List UInt64}
    (hprimes : ∀ c ∈ primes, c.Canonical) :
    Cover.IrredundantBeside [] (selectCover primes points) := by
  refine irredundantBeside_dropRedundant (fun c hc => hprimes c ?_) (by simp)
    (Cover.irredundantBeside_nil _)
  rcases mem_of_mem_complete (List.mem_reverse.1 hc) with hmem | hmem
  · exact mem_of_mem_essential hmem
  · exact hmem

/-- The prime implicants of the points of a formula are primes of its value. -/
theorem isPrimeOf_of_mem_primeImplicants (hn : n ≤ 64) (hf : ∀ i ∈ f.occurrences, i < n)
    {c : Cube} (hc : c ∈ primeImplicants n (onset n f)) :
    c.IsPrimeOf fun point => f.holds (Bits.has point) := by
  have hprime := (mem_primesOf_iff hn (nodup_ascending_points (onset n f))
    fun p hp => (mem_onset.1 (mem_ascending.1 hp)).1).1 hc
  refine ⟨hprime.canonical, fun point hagrees => ?_, fun i hi hcare => ?_⟩
  · have hmem := hprime.inside (Bits.restrict n point) (Bits.below_restrict n point)
      (by rw [hprime.within.agrees_restrict]; exact hagrees)
    rw [← holds_restrict hn hf]
    exact (mem_onset.1 (mem_ascending.1 hmem)).2
  · obtain ⟨p, hp, hagrees, hnot⟩ := hprime.tight i hi hcare
    refine ⟨p, hagrees, Bool.eq_false_iff.2 fun hholds => hnot ?_⟩
    exact mem_ascending.2 (mem_onset.2 ⟨hp, hholds⟩)

theorem isPrimeSumOf_minimize (hn : n ≤ 64) (hf : ∀ i ∈ f.occurrences, i < n)
    {cubes : List Cube} (h : minimize n f = .sum cubes) : IsPrimeSumOf n f cubes := by
  have hsum : IsSumOf n f cubes := by
    have hrep := represents_minimize hn hf
    rw [h] at hrep
    exact hrep
  obtain rfl : selectCover (primeImplicants n (onset n f)) (onset n f) = cubes := by
    unfold minimize at h
    dsimp only at h
    split at h
    · cases h
    · split at h
      · cases h
      · exact TwoLevel.sum.inj h
  have hprime : ∀ c ∈ primeImplicants n (onset n f),
      c.IsPrimeOf fun point => f.holds (Bits.has point) :=
    fun c hc => isPrimeOf_of_mem_primeImplicants hn hf hc
  exact ⟨hsum, fun c hc => hprime c (mem_of_mem_selectCover hc),
    irredundantBeside_selectCover fun c hc => (hprime c hc).canonical⟩

end Exact

/-! ## Heuristic minimization -/

namespace Heuristic

variable {cover : List Cube} {c : Cube} {i j : Nat}

/-- Whether a variable has no literal in a cube or one that cannot be dropped. -/
def Tight (cover : List Cube) (c : Cube) (i : Nat) : Prop :=
  Bits.has c.care i = true →
    ∃ point, (c.without (Bits.single i)).agrees point = true ∧ Cover.holdsAt cover point = false

theorem canonical_dropLiteral (h : c.Canonical) : (dropLiteral cover c i).Canonical := by
  unfold dropLiteral
  dsimp only
  split
  · exact h.without _
  · exact h

/-- A step settles its own variable. -/
theorem tight_dropLiteral_self (hi : i < 64) : Tight cover (dropLiteral cover c i) i := by
  intro hcare
  unfold dropLiteral at hcare ⊢
  dsimp only at hcare ⊢
  split
  next himplies =>
    rw [if_pos himplies] at hcare
    simp [Cube.without, Bits.has_single hi hi] at hcare
  next himplies => exact Cover.exists_of_not_implies (Bool.eq_false_iff.2 himplies)

/-- A settled variable stays settled, since a point outside the cover is not lost when the
cube grows. -/
theorem Tight.dropLiteral (h : Tight cover c i) : Tight cover (dropLiteral cover c j) i := by
  unfold Heuristic.dropLiteral
  dsimp only
  split
  next =>
    intro hcare
    simp only [Cube.without, Bits.has_and, Bool.and_eq_true] at hcare
    obtain ⟨point, hagrees, hfails⟩ := h hcare.1
    refine ⟨point, Cube.agrees_without.2 fun k hk hcare hne => ?_, hfails⟩
    simp only [Cube.without, Bits.has_and, Bits.has_not, Bool.and_eq_true, Bool.not_eq_true']
      at hcare ⊢
    rw [Cube.agrees_without.1 hagrees k hk hcare.1 hne, hcare.2]
    simp
  next => exact h

theorem Tight.foldl (h : Tight cover c i) (js : List Nat) :
    Tight cover (js.foldl (Heuristic.dropLiteral cover) c) i := by
  induction js generalizing c with
  | nil => exact h
  | cons j js ih => exact ih h.dropLiteral

theorem tight_foldl_of_mem {js : List Nat} (hi : i < 64) (hmem : i ∈ js) :
    Tight cover (js.foldl (dropLiteral cover) c) i := by
  induction js generalizing c with
  | nil => exact absurd hmem List.not_mem_nil
  | cons j js ih =>
    rcases List.mem_cons.1 hmem with rfl | hmem
    · exact (tight_dropLiteral_self hi).foldl js
    · exact ih hmem

theorem canonical_enlarge (h : c.Canonical) : (enlarge cover c).Canonical := by
  rw [enlarge]
  exact List.foldlRecOn _ _ h fun _ hd _ _ => canonical_dropLiteral hd

theorem tight_enlarge (hi : i < 64) : Tight cover (enlarge cover c) i := by
  rw [enlarge]
  by_cases hcare : Bits.has c.care i = true
  · exact tight_foldl_of_mem hi (Bits.mem_positions.2 ⟨hi, hcare⟩)
  · exact Tight.foldl (fun h => absurd h hcare) _

theorem isPrimeOf_enlarge (hcanonical : c.Canonical) (hc : c ∈ cover) :
    (enlarge cover c).IsPrimeOf (Cover.holdsAt cover) :=
  ⟨canonical_enlarge hcanonical,
    (enlarged_enlarge (n := 64) hc fun _ hi _ => hi).stays,
    fun _ hi hcare => tight_enlarge hi hcare⟩

/-- Each cube that stays has a point where no cube kept and no cube after it holds. -/
theorem irredundantBeside_dropCovered {kept rest : List Cube}
    (h : Cover.IrredundantBeside rest kept) :
    Cover.IrredundantBeside [] (dropCovered kept rest) := by
  fun_induction dropCovered kept rest with
  | case1 kept => exact h.perm (List.reverse_perm kept).symm
  | case2 kept c rest _ ih => exact ih h.drop
  | case3 kept c rest hneeded ih =>
    obtain ⟨point, hagrees, hfails⟩ := Cover.exists_of_not_implies (Bool.eq_false_iff.2 hneeded)
    refine ih (h.keep point hagrees ?_)
    rw [← hfails]
    exact Cover.holdsAt_congr (fun d => by simp [or_comm]) point

theorem isPrimeSumOf_minimize {n limit : Nat} (hn : n ≤ 64) {f : Formula Nat}
    (hf : ∀ i ∈ f.occurrences, i < n) {cubes : List Cube}
    (h : minimize .ok limit f = .ok (.sum cubes)) : IsPrimeSumOf n f cubes := by
  have hsum : IsSumOf n f cubes := represents_minimize hn hf h
  obtain ⟨onset, honset, hform⟩ := exists_of_map_eq_ok h
  obtain rfl : irredundant (Cover.absorb (onset.map (enlarge onset))) = cubes := by
    split at hform
    · cases hform
    · split at hform
      · cases hform
      · exact TwoLevel.sum.inj hform
  have hcover := coverOf_cubes hn limit true f onset hf honset
  have hvalue : Cover.holdsAt onset = fun point => f.holds (Bits.has point) := by
    funext point
    rw [hcover.value]
    simp
  refine ⟨hsum, fun c hc => ?_, irredundantBeside_dropCovered (Cover.irredundantBeside_nil _)⟩
  obtain ⟨d, hd, rfl⟩ := List.mem_map.1 (Cover.mem_of_mem_absorb (mem_of_mem_irredundant hc))
  rw [← hvalue]
  exact isPrimeOf_enlarge (hcover.canonical d hd) hd

end Heuristic

end StreamFilter
