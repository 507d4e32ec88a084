import StreamFilter.Minimize.Sum
import StreamFilter.Proofs.Cube.Tautology
import StreamFilter.Proofs.Formula.Variables
set_option autoImplicit false

/-!
# What a two-level form says about a formula

`TwoLevel.Represents n f` is what both minimizers establish of their result for a
formula `f` over the variables below `n`: a constant is the value of `f` everywhere,
and a sum of cubes is a form of `f`, which is then no constant.  Its formula has the
value of the sum (`holds_sumFormula`) and mentions variables below `n` only.
-/

namespace StreamFilter

namespace Cube

/-- Whether every variable of the cube is below a bound. -/
def Within (n : Nat) (c : Cube) : Prop := ∀ i < 64, Bits.has c.care i = true → i < n

theorem Within.without {n : Nat} {c : Cube} (h : c.Within n) (bits : UInt64) :
    (c.without bits).Within n := by
  intro i hi hcare
  simp only [Cube.without, Bits.has_and, Bool.and_eq_true] at hcare
  exact h i hi hcare.1

theorem within_everything (n : Nat) : everything.Within n := by
  intro i _ hcare
  simp [everything] at hcare

theorem within_literal {n i : Nat} (hi : i < 64) (hin : i < n) (positive : Bool) :
    (literal i positive).Within n := by
  intro j hj hcare
  have hij : j = i := by simpa [literal, Bits.has_single hj hi] using hcare
  omega

theorem Within.inter? {n : Nat} {c d e : Cube} (hc : c.Within n) (hd : d.Within n)
    (h : c.inter? d = some e) : e.Within n := by
  unfold Cube.inter? at h
  split at h
  · cases h
    intro i hi hcare
    rw [Bits.has_or, Bool.or_eq_true] at hcare
    exact hcare.elim (hc i hi) (hd i hi)
  · cases h

/-! ## Cubes as formulas -/

theorem holds_literalFormula (truth : Nat → Bool) (l : Nat × Bool) :
    (literalFormula l).holds truth = (truth l.1 == l.2) := by
  obtain ⟨i, positive⟩ := l
  cases positive <;> simp [literalFormula, Formula.holds]

theorem occurrences_literalFormula (l : Nat × Bool) : (literalFormula l).occurrences = [l.1] := by
  obtain ⟨i, positive⟩ := l
  cases positive <;> rfl

/-- The formula of a cube holds at the points of the cube. -/
theorem holds_toFormula (c : Cube) (point : UInt64) :
    c.toFormula.holds (Bits.has point) = c.agrees point := by
  rw [toFormula, Formula.holds_unlessSingle_and, List.all_map, Bool.eq_iff_iff,
    agrees_iff_literals, List.all_eq_true]
  simp only [Function.comp_def, holds_literalFormula, beq_iff_eq]

theorem mem_occurrences_toFormula {c : Cube} {i : Nat} (h : i ∈ c.toFormula.occurrences) :
    i < 64 ∧ Bits.has c.care i = true := by
  rw [toFormula, Formula.occurrences_unlessSingle fun fs => by rw [Formula.occurrences]] at h
  obtain ⟨f, hf, hi⟩ := List.mem_flatMap.1 h
  obtain ⟨⟨j, positive⟩, hl, rfl⟩ := List.mem_map.1 hf
  rw [occurrences_literalFormula, List.mem_singleton] at hi
  subst hi
  obtain ⟨hlt, hcare, -⟩ := mem_literals.1 hl
  exact ⟨hlt, hcare⟩

end Cube

/-! ## Sums as formulas -/

theorem mem_sumTerms {cubes : List Cube} {f : Formula Nat} :
    f ∈ sumTerms cubes ↔ ∃ c ∈ cubes, c.toFormula = f := by
  rw [sumTerms, List.mem_map]
  constructor
  · rintro ⟨t, ht, rfl⟩
    obtain ⟨c, hc, rfl⟩ := List.mem_map.1 (List.mem_mergeSort.1 ht)
    exact ⟨c, hc, rfl⟩
  · rintro ⟨c, hc, rfl⟩
    exact ⟨(c.termKey, c), List.mem_mergeSort.2 (List.mem_map_of_mem hc), rfl⟩

/-- The formula of a sum has the value of the cover. -/
theorem holds_sumFormula (cubes : List Cube) (point : UInt64) :
    (sumFormula cubes).holds (Bits.has point) = Cover.holdsAt cubes point := by
  rw [sumFormula, Formula.holds_unlessSingle_or, Bool.eq_iff_iff, List.any_eq_true,
    Cover.holdsAt_iff]
  constructor
  · rintro ⟨f, hf, hholds⟩
    obtain ⟨c, hc, rfl⟩ := mem_sumTerms.1 hf
    exact ⟨c, hc, by rwa [← Cube.holds_toFormula]⟩
  · rintro ⟨c, hc, hagrees⟩
    exact ⟨c.toFormula, mem_sumTerms.2 ⟨c, hc, rfl⟩, by rwa [Cube.holds_toFormula]⟩

theorem mem_occurrences_sumFormula {cubes : List Cube} {i : Nat}
    (h : i ∈ (sumFormula cubes).occurrences) :
    i < 64 ∧ ∃ c ∈ cubes, Bits.has c.care i = true := by
  rw [sumFormula, Formula.occurrences_unlessSingle fun fs => by rw [Formula.occurrences]] at h
  obtain ⟨f, hf, hi⟩ := List.mem_flatMap.1 h
  obtain ⟨c, hc, rfl⟩ := mem_sumTerms.1 hf
  obtain ⟨hlt, hcare⟩ := Cube.mem_occurrences_toFormula hi
  exact ⟨hlt, c, hc, hcare⟩

/-! ## Forms of a formula -/

/-- A list of cubes whose sum is a form of a formula that is no constant. -/
structure IsSumOf (n : Nat) (f : Formula Nat) (cubes : List Cube) : Prop where
  /-- There is a term. -/
  nonempty : cubes ≠ []
  /-- Each term has a literal. -/
  proper : ∀ c ∈ cubes, c.care ≠ 0
  /-- Each literal is one of a variable below the bound. -/
  within : ∀ c ∈ cubes, c.Within n
  /-- The sum has the value of the formula. -/
  value : ∀ point, Cover.holdsAt cubes point = f.holds (Bits.has point)
  /-- The formula fails somewhere. -/
  fails : ∃ point, f.holds (Bits.has point) = false

/-- What a two-level form of a formula over the variables below `n` has to say. -/
def TwoLevel.Represents (n : Nat) (f : Formula Nat) : TwoLevel → Prop
  | never => ∀ point, f.holds (Bits.has point) = false
  | always => ∀ point, f.holds (Bits.has point) = true
  | sum cubes => IsSumOf n f cubes

/-- A formula with a sum of cubes holds somewhere. -/
theorem IsSumOf.holds {n : Nat} {f : Formula Nat} {cubes : List Cube} (h : IsSumOf n f cubes) :
    ∃ point, f.holds (Bits.has point) = true := by
  obtain ⟨c, cs, rfl⟩ := List.exists_cons_of_ne_nil h.nonempty
  refine ⟨c.place 0, ?_⟩
  rw [← h.value, Cover.holdsAt_cons, c.agrees_place]
  rfl

end StreamFilter
