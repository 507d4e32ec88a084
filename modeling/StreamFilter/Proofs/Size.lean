import StreamFilter.Proofs.EssentialAtoms
import StreamFilter.Proofs.Filter.Leaves
import StreamFilter.Proofs.Minimize.Unate
import StreamFilter.Proofs.Writing
set_option autoImplicit false

/-!
# The size of optimized filters

A filter that is put together from a formula has one leaf for each occurrence of a variable
(`Formula.leaves_toFilter`), and folding adds none.  So a minimized filter is no bigger than
the sum of products that it comes from (`Optimizer.optimize_native_leaves_le`).  It can be
bigger than the given filter, though, since what several products of the sum have in common is
written in each of them.
-/

namespace StreamFilter

/-- Both filters of a variable are one leaf. -/
theorem Variable.IsAtom.leaves {v : Vocabulary} {x : Variable} (h : x.IsAtom v) :
    x.stated.leaves = 1 ∧ x.denied.leaves = 1 := by
  obtain ⟨hstated, hdenied⟩ | ⟨t, -, -, -, -, hstated, hdenied⟩ := h
  · rw [hstated, hdenied]
    exact ⟨rfl, rfl⟩
  · rw [hstated, hdenied]
    exact ⟨Filter.leaves_node .plain t, Filter.leaves_node .negated t⟩

namespace Formula

variable {v : Vocabulary} {vs : Variables}

theorem leaves_not_parenthesized {g : Filter} (h : g.Plain v) :
    (Filter.not [g.parenthesized]).leaves = g.leaves := by
  have hstart := Filter.startsWithTarget_of_admitted h.parenthesized.admitted
  rw [Filter.leaves_not_singleton hstart, Filter.leaves_parenthesized]

mutual

/-- The filter for a printable formula has a leaf for each occurrence of a variable. -/
theorem leaves_toFilter (hvs : vs.Sound v) : ∀ (f : Formula String) {g : Filter}, Printable f →
    toFilter vs f = .ok g → g.leaves = f.occurrences.length
  | var name, g, _, h => by
    rw [toFilter] at h
    obtain ⟨x, hx, h⟩ := exists_of_bind_eq_ok h
    rw [← Except.ok.inj h, (isAtom_of_lookup hvs hx).leaves.1, occurrences]
    rfl
  | not (var name), g, _, h => by
    rw [toFilter] at h
    obtain ⟨x, hx, h⟩ := exists_of_bind_eq_ok h
    rw [← Except.ok.inj h, (isAtom_of_lookup hvs hx).leaves.2, occurrences, occurrences]
    rfl
  | not (not f), g, hf, h => by
    rw [Printable] at hf
    obtain ⟨part, hpart, rfl⟩ := toFilter_not_eq_ok (by simp) h
    rw [leaves_not_parenthesized (plain_toFilter hvs (not f) hf hpart),
      leaves_toFilter hvs (not f) hf hpart, occurrences, occurrences, occurrences]
  | not (and fs), g, hf, h => by
    rw [Printable] at hf
    obtain ⟨part, hpart, rfl⟩ := toFilter_not_eq_ok (by simp) h
    rw [leaves_not_parenthesized (plain_toFilter hvs (and fs) hf hpart),
      leaves_toFilter hvs (and fs) hf hpart, occurrences]
  | not (or fs), g, hf, h => by
    rw [Printable] at hf
    obtain ⟨part, hpart, rfl⟩ := toFilter_not_eq_ok (by simp) h
    rw [leaves_not_parenthesized (plain_toFilter hvs (or fs) hf hpart),
      leaves_toFilter hvs (or fs) hf hpart, occurrences]
  | and fs, g, hf, h => by
    rw [Printable] at hf
    rw [toFilter] at h
    obtain ⟨gs, hgs, h⟩ := exists_of_bind_eq_ok h
    rw [← Except.ok.inj h, occurrences, ← leavesAll_toFilters hvs fs hf.2 hgs]
    exact Filter.leaves_join .and gs
  | or fs, g, hf, h => by
    rw [Printable] at hf
    rw [toFilter] at h
    obtain ⟨gs, hgs, h⟩ := exists_of_bind_eq_ok h
    rw [← Except.ok.inj h, occurrences, ← leavesAll_toFilters hvs fs hf.2 hgs]
    exact Filter.leaves_join .or gs

theorem leavesAll_toFilters (hvs : vs.Sound v) : ∀ (fs : List (Formula String))
    {gs : List Filter}, AllPrintable fs → toFilters vs fs = .ok gs →
      Filter.leavesAll gs = (occurrencesAll fs).length
  | [], gs, _, h => by
    rw [toFilters] at h
    rw [← Except.ok.inj h, occurrencesAll]
    rfl
  | f :: fs, gs, hfs, h => by
    rw [AllPrintable] at hfs
    rw [toFilters] at h
    obtain ⟨first, hfirst, h⟩ := exists_of_bind_eq_ok h
    obtain ⟨others, hothers, h⟩ := exists_of_bind_eq_ok h
    rw [← Except.ok.inj h, Filter.leavesAll, Filter.leaves_parenthesized,
      leaves_toFilter hvs f hfs.1 hfirst, leavesAll_toFilters hvs fs hfs.2 hothers,
      occurrencesAll, List.length_append]

end

theorem length_occurrences_sumOfProducts {α : Type} (terms : List (List (α × Bool))) :
    (sumOfProducts terms).occurrences.length = terms.flatten.length := by
  rw [occurrences_sumOfProducts, List.flatMap_def, ← List.map_flatten, List.length_map]

end Formula

namespace Optimizer

/-- With the built-in minimizer, a filter that is folded without being minimized gets no more
leaves.  A minimized filter has no more leaves than the sum of products that the minimizer
found, an irredundant prime cover, has literals; so it is bigger than the filter only if that
sum is. -/
theorem optimize_native_leaves_le (v : Vocabulary) (limits : Limits) (mode : Mode)
    {f f' : Filter} (h : (Optimizer.mk v (.native limits) mode).optimize f = .ok (some f')) :
    ∃ s, f.skeleton v = .ok (some s) ∧
      ((mode = .foldOnly ∨ (Minimizer.native limits).minimize s.formula.text = .ok .skipped) ∧
          f'.leaves ≤ f.leaves ∨
        mode = .minimize ∧ ∃ text terms,
          (Minimizer.native limits).minimize s.formula.text = .ok (.formula text) ∧
            Formula.parse text = .ok (Formula.sumOfProducts terms) ∧
              s.formula.IsPrimeCover terms ∧ f'.leaves ≤ terms.flatten.length) := by
  obtain ⟨s, hs, ⟨hfolded, rfl⟩ | ⟨hmode, text, g, restored, hanswer, hg, hrestored, rfl⟩⟩ :=
    optimize_eq_some h
  · exact ⟨s, hs, .inl ⟨hfolded, Filter.leaves_fold_le (Filter.admitted_iff.2 ⟨s, hs⟩)⟩⟩
  · obtain ⟨hsound, hformula⟩ := Filter.describes_of_skeleton hs
    have hprintable := Formula.printable_of_parse hg
    have hle : restored.fold.leaves ≤ g.occurrences.length := by
      rw [← Formula.leaves_toFilter hsound g hprintable hrestored]
      exact Filter.leaves_fold_le (Formula.plain_toFilter hsound g hprintable hrestored).admitted
    have hnative := Minimizer.native_of_parse limits (Formula.parse_text hformula.printable)
    obtain ⟨terms, hparse, hcover⟩ := Formula.exists_isPrimeCover hformula.printable
      (Except.ok.inj (hnative.symm.trans hanswer))
    obtain rfl := Except.ok.inj (hg.symm.trans hparse)
    rw [Formula.length_occurrences_sumOfProducts] at hle
    exact ⟨s, hs, .inr ⟨hmode, text, terms, hanswer, hparse, hcover, hle⟩⟩

end Optimizer

/-- The product of two variables as a cube. -/
structure Cube.IsPair (c : Cube) (i j : Nat) : Prop where
  canonical : c.Canonical
  literals : c.literals = [(i, true), (j, true)]

namespace Cube.IsPair

variable {c : Cube} {i j : Nat}

theorem agrees (h : IsPair c i j) (point : UInt64) :
    c.agrees point = (Bits.has point i && Bits.has point j) := by
  rw [Bool.eq_iff_iff, agrees_iff_literals, h.literals]
  simp

theorem eq_or_eq (h : IsPair c i j) {k : Nat} (hk : k < 64) (hcare : Bits.has c.care k = true) :
    k = i ∨ k = j := by
  have hmem := mem_literals.2 ⟨hk, hcare, (rfl : Bits.has c.value k = _)⟩
  rw [h.literals, List.mem_cons, List.mem_singleton, Prod.mk.injEq, Prod.mk.injEq] at hmem
  exact hmem.imp And.left And.left

theorem toFormula (h : IsPair c i j) : c.toFormula = .and [.var i, .var j] := by
  rw [Cube.toFormula, h.literals]
  rfl

end Cube.IsPair

namespace Optimizer

/-- A product with a sum in it. -/
def factored : Filter := .and [.group [.or [.raw "a", .raw "b"]], .raw "c"]

/-- The skeleton of that filter. -/
def factoredSkeleton : Skeleton :=
  ⟨.and [.or [.var "v1", .var "v2"], .var "v3"],
    .registered [⟨"a", .raw "a", .not [.raw "a"]⟩, ⟨"b", .raw "b", .not [.raw "b"]⟩,
      ⟨"c", .raw "c", .not [.raw "c"]⟩]⟩

theorem skeleton_factored : factored.skeleton {} = .ok (some factoredSkeleton) := rfl

/-- The sum of two products that have a variable in common. -/
def factoredCubes : List Cube := [⟨5, 5⟩, ⟨6, 6⟩]

theorem isPair_first : Cube.IsPair ⟨5, 5⟩ 0 2 := ⟨by decide, by decide +kernel⟩

theorem isPair_second : Cube.IsPair ⟨6, 6⟩ 1 2 := ⟨by decide, by decide +kernel⟩

theorem isPrimeSumOf_factoredCubes :
    IsPrimeSumOf 3 (.and [.or [.var 0, .var 1], .var 2]) factoredCubes := by
  have hfirst := isPair_first
  have hsecond := isPair_second
  have hboth : ∀ {p : Cube → Prop}, p ⟨5, 5⟩ → p ⟨6, 6⟩ → ∀ c ∈ factoredCubes, p c := by
    intro p h5 h6
    simp [factoredCubes, h5, h6]
  have hholds : ∀ point, (Formula.and [.or [.var 0, .var 1], .var 2]).holds (Bits.has point) =
      ((Bits.has point 0 || Bits.has point 1) && Bits.has point 2) := by
    intro point
    simp [Formula.holds, Formula.allHold, Formula.anyHolds]
  constructor
  case toIsSumOf =>
    constructor
    case nonempty => decide
    case proper => decide
    case within =>
      refine hboth (fun k hk hcare => ?_) fun k hk hcare => ?_
      · have := hfirst.eq_or_eq hk hcare
        omega
      · have := hsecond.eq_or_eq hk hcare
        omega
    case value =>
      intro point
      rw [hholds, factoredCubes, Cover.holdsAt_cons, Cover.holdsAt_cons, Cover.holdsAt_nil,
        hfirst.agrees, hsecond.agrees, Bool.or_false, Bool.and_or_distrib_right]
    case fails => exact ⟨0, by rw [hholds]; decide⟩
  case prime =>
    refine hboth ⟨hfirst.canonical, fun point hpoint => ?_, fun k hk hcare => ?_⟩
      ⟨hsecond.canonical, fun point hpoint => ?_, fun k hk hcare => ?_⟩
    · rw [hfirst.agrees, Bool.and_eq_true] at hpoint
      rw [hholds, hpoint.1, hpoint.2]
      rfl
    · rcases hfirst.eq_or_eq hk hcare with rfl | rfl
      · exact ⟨4, by decide, by rw [hholds]; decide⟩
      · exact ⟨1, by decide, by rw [hholds]; decide⟩
    · rw [hsecond.agrees, Bool.and_eq_true] at hpoint
      rw [hholds, hpoint.1, hpoint.2, Bool.or_true]
      rfl
    · rcases hsecond.eq_or_eq hk hcare with rfl | rfl
      · exact ⟨4, by decide, by rw [hholds]; decide⟩
      · exact ⟨2, by decide, by rw [hholds]; decide⟩
  case irredundant =>
    exact ⟨by decide, hboth ⟨5, by decide, by decide⟩ ⟨6, by decide, by decide⟩⟩

theorem sumFormula_factoredCubes :
    sumFormula factoredCubes = .or [.and [.var 0, .var 2], .and [.var 1, .var 2]] := by
  have hsorted : (factoredCubes.map fun c => (c.termKey, c)).mergeSort Cube.termLe =
      factoredCubes.map fun c => (c.termKey, c) :=
    List.mergeSort_of_pairwise (by decide +kernel)
  rw [sumFormula, sumTerms, hsorted, factoredCubes]
  simp only [List.map_cons, List.map_nil, isPair_first.toFormula, isPair_second.toFormula]
  rfl

/-- The same filter as a sum of products. -/
def expanded : Filter :=
  .or [.group [.and [.raw "a", .raw "c"]], .group [.and [.raw "b", .raw "c"]]]

theorem fold_expanded : expanded.fold = expanded := by
  rw [expanded, Filter.fold_or]
  simp only [List.map_cons, List.map_nil, Filter.fold_group_singleton, Filter.fold_and,
    Filter.fold_raw]
  rfl

theorem optimize_factored :
    (Optimizer.mk {} (.native {}) .minimize).optimize factored = .ok (some expanded) := by
  have hprintable := (Filter.describes_of_skeleton skeleton_factored).2.printable
  have hskipped : factoredSkeleton.formula.minimized (Limits.clamped {}) ≠ .skipped :=
    Formula.minimized_ne_skipped (by decide) (by decide)
  obtain ⟨out, hout⟩ := Formula.exists_minimized_eq_formula hprintable hskipped
    (t := fun _ => true) (u := fun _ => false) (by decide) (by decide)
  have hnative := Minimizer.native_of_parse {} (Formula.parse_text hprintable)
  have hparse := Formula.parse_minimized_of_unate hprintable (by decide)
    isPrimeSumOf_factoredCubes hout
  rw [sumFormula_factoredCubes] at hparse
  rw [hout] at hnative
  rw [optimize_of_answer skeleton_factored hnative, rebuild, Formula.restore, hparse]
  exact congrArg (fun f => Except.ok (some f)) fold_expanded

theorem optimize_native_leaves_le_factored :
    (Optimizer.mk {} (.native {}) .minimize).optimize factored = .ok (some expanded) ∧
      factored.leaves = 3 ∧ expanded.leaves = 4 ∧
      ∃ terms, factoredSkeleton.formula.IsPrimeCover terms ∧
        expanded.leaves ≤ terms.flatten.length := by
  refine ⟨optimize_factored, by decide, by decide, ?_⟩
  obtain ⟨s, hs, ⟨-, hle⟩ | ⟨-, text, terms, -, -, hcover, hle⟩⟩ :=
    optimize_native_leaves_le {} {} .minimize optimize_factored
  · exact absurd hle (by decide)
  · obtain rfl := Option.some.inj (Except.ok.inj (hs.symm.trans skeleton_factored))
    exact ⟨terms, hcover, hle⟩

end Optimizer

end StreamFilter
