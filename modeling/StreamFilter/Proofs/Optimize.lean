import StreamFilter.Optimize
import StreamFilter.Proofs.Minimize.Native
import StreamFilter.Proofs.Skeleton.Restore
set_option autoImplicit false

/-!
# Optimized filters are equivalent

Minimizing a filter is composed of four steps: its skeleton is extracted, the text of the
formula minimized, conditions are put back for the variables of the answer, and the result
is folded.  Each keeps the truth value, so the whole does.  It has no result exactly for
filters that hold always, and fails exactly for those that never hold.
-/

namespace StreamFilter

/-! ## Assignments of variables and sets of atoms -/

namespace Variables

variable {v : Vocabulary} {vs : Variables}

/-- The texts of the variables that an assignment makes true. -/
def trueTexts (vs : Variables) (truth : String → Bool) : Std.HashSet String :=
  .ofList ((vs.entries.filter fun x => truth x.name).map (·.text))

/-- Every assignment of the variables comes from a set of atoms, since variables have
distinct texts. -/
theorem truth_trueTexts {name : String} {x : Variable}
    (hx : vs.find? name = some x) (truth : String → Bool) :
    vs.truth (vs.trueTexts truth).contains name = truth name := by
  obtain ⟨hmem, rfl⟩ := mem_of_find? hx
  rw [truth_of_find? hx, trueTexts, Std.HashSet.contains_ofList, Bool.eq_iff_iff,
    List.contains_iff_mem, List.mem_map]
  constructor
  · rintro ⟨y, hy, htext⟩
    obtain ⟨hy, htrue⟩ := List.mem_filter.1 hy
    rwa [eq_of_text hy hmem htext] at htrue
  · intro htrue
    exact ⟨x, List.mem_filter.2 ⟨hmem, htrue⟩, rfl⟩

end Variables

namespace Filter

variable {v : Vocabulary} {f : Filter} {s : Skeleton}

/-- A filter is constant under sets of atoms exactly if its skeleton is under assignments. -/
theorem forall_holds_iff (hs : f.skeleton v = .ok (some s)) (b : Bool) :
    (∀ truth, s.formula.holds truth = b) ↔
      ∀ atoms : Std.HashSet String, f.holds atoms.contains = b := by
  obtain ⟨hsound, hformula⟩ := describes_of_skeleton hs
  constructor
  · intro h atoms
    rw [← hformula.value]
    exact h _
  · intro h truth
    rw [← h (s.table.trueTexts truth), ← hformula.value]
    refine Formula.holds_congr _ fun name hname => ?_
    obtain ⟨x, hx⟩ := hformula.known name hname
    rw [Variables.truth_trueTexts hx]

end Filter

namespace Optimizer

variable {v : Vocabulary} {minimizer : Minimizer} {f : Filter} {s : Skeleton}

/-! ## From an answer to the result -/

theorem optimize_of_answer (hs : f.skeleton v = .ok (some s)) {answer : Minimized}
    (hanswer : minimizer.minimize s.formula.text = .ok answer) :
    (Optimizer.mk v minimizer .minimize).optimize f =
      (rebuild f s.table answer).map (Option.map Filter.fold) := by
  simp only [optimize, hs, hanswer, bind, Except.bind]
  cases rebuild f s.table answer with
  | error e => rfl
  | ok g => rfl

/-- An answer that reads as a formula over known variables is put back and folded. -/
theorem optimize_eq_fold (hs : f.skeleton v = .ok (some s)) {text : String}
    (hanswer : minimizer.minimize s.formula.text = .ok (.formula text)) {g : Formula String}
    (hg : Formula.parse text = .ok g)
    (hknown : ∀ name ∈ g.occurrences, ∃ x, s.table.find? name = some x) :
    ∃ restored, Formula.Restored s.table g restored ∧
      (Optimizer.mk v minimizer .minimize).optimize f = .ok (some restored.fold) := by
  obtain ⟨restored, hrestored, hputBack⟩ :=
    Formula.restores (Filter.describes_of_skeleton hs).1 g hknown
  refine ⟨restored, hputBack, ?_⟩
  rw [optimize_of_answer hs hanswer, rebuild, Formula.restore, hg]
  show Except.map _ (Except.map some (Formula.toFilter s.table g)) = _
  rw [hrestored]
  rfl

/-- An answer that reads as a formula over known variables gives a filter of its value. -/
theorem optimize_of_formula (hs : f.skeleton v = .ok (some s)) {text : String}
    (hanswer : minimizer.minimize s.formula.text = .ok (.formula text)) {g : Formula String}
    (hg : Formula.parse text = .ok g)
    (hknown : ∀ name ∈ g.occurrences, ∃ x, s.table.find? name = some x) :
    ∃ f', (Optimizer.mk v minimizer .minimize).optimize f = .ok (some f') ∧
      ∀ truths, f'.holds truths = g.holds (s.table.truth truths) := by
  obtain ⟨restored, hrestored, hresult⟩ := optimize_eq_fold hs hanswer hg hknown
  refine ⟨restored.fold, hresult, fun truths => ?_⟩
  rw [← hrestored.value]
  exact Filter.value_fold (.truth false truths) rfl hrestored.targetsFirst

/-- With the built-in minimizer, minimizing gives an equivalent filter, unless the filter
holds for every set of atoms (then there is no result) or for none (then it fails). -/
theorem optimize_native_equivalent (v : Vocabulary) (limits : Limits) {f : Filter} {s : Skeleton}
    (hs : f.skeleton v = .ok (some s))
    (hanswer : (Minimizer.native limits).minimize s.formula.text ≠ .ok .skipped) :
    let result := (Optimizer.mk v (.native limits) .minimize).optimize f
    (∀ f', result = .ok (some f') → ∀ atoms : Std.HashSet String,
      f'.holds atoms.contains = f.holds atoms.contains) ∧
    (result = .ok none ↔ ∀ atoms : Std.HashSet String, f.holds atoms.contains = true) ∧
    (result = .error .neverMatches ↔
      ∀ atoms : Std.HashSet String, f.holds atoms.contains = false) ∧
    (result = .ok none ∨ result = .error .neverMatches ∨ ∃ f', result = .ok (some f')) := by
  obtain ⟨-, hformula⟩ := Filter.describes_of_skeleton hs
  have hnative := Minimizer.native_of_parse limits (Formula.parse_text hformula.printable)
  rw [hnative] at hanswer
  have hsettles : (s.formula.minimized limits.clamped).Settles s.formula :=
    Formula.settles_minimized hformula.printable fun h => hanswer (by rw [h])
  rw [← Filter.forall_holds_iff hs, ← Filter.forall_holds_iff hs, ← hsettles.always_iff,
    ← hsettles.never_iff]
  intro result
  by_cases halways : s.formula.minimized limits.clamped = .always
  · rw [halways] at hnative ⊢
    have hresult : result = .ok none := optimize_of_answer hs hnative
    simp [hresult]
  by_cases hnever : s.formula.minimized limits.clamped = .never
  · rw [hnever] at hnative ⊢
    have hresult : result = .error .neverMatches := optimize_of_answer hs hnative
    simp [hresult]
  obtain ⟨text, g, htext, hg, hvars, hvalue⟩ := hsettles.formula halways hnever
  rw [htext] at hnative
  obtain ⟨f', hf', hholds⟩ := optimize_of_formula hs hnative hg fun name hname =>
    hformula.known name (Formula.mem_vars.1 (hvars name (Formula.mem_vars.2 hname)))
  have hresult : result = .ok (some f') := hf'
  refine ⟨?_, by simp [hresult, halways], by simp [hresult, hnever], .inr (.inr ⟨f', hresult⟩)⟩
  intro f'' hf'' atoms
  obtain rfl : f' = f'' := Option.some.inj (Except.ok.inj (hresult.symm.trans hf''))
  rw [hholds, hvalue, hformula.value]

/-- A skeleton with few variables is not skipped. -/
theorem native_ne_skipped {limits : Limits} (hs : f.skeleton v = .ok (some s))
    (hvars : s.formula.vars.length ≤ limits.clamped.exactVariables) :
    (Minimizer.native limits).minimize s.formula.text ≠ .ok .skipped := by
  have hprintable := (Filter.describes_of_skeleton hs).2.printable
  have hmost : limits.clamped.exactVariables ≤ Limits.mostVariables :=
    Nat.le_trans (Nat.min_le_right _ _) (by decide)
  rw [Minimizer.native_of_parse limits (Formula.parse_text hprintable)]
  intro hskipped
  exact Formula.minimized_ne_skipped hvars (Nat.le_trans hvars hmost) (Except.ok.inj hskipped)

/-- A filter in which one atom is both stated and denied, and a list condition does not
start with its target. -/
def overlapping : Filter :=
  .and [.or [.condition [.operator "contains_any", .target "fb.content",
    .argument (.string "x,y")], .raw "r"], .not [.group [.raw "r"]]]

/-- The skeleton of that filter. -/
def overlappingSkeleton : Skeleton :=
  ⟨.and [.or [.or [.var "v1", .var "v2"], .var "v3"], .not (.var "v3")],
    .registered [⟨"fb.content contains \"x\"",
        .condition (Filter.ofTriple (.containing "fb.content" "x")),
        .not (Filter.ofTriple (.containing "fb.content" "x"))⟩,
      ⟨"fb.content contains \"y\"",
        .condition (Filter.ofTriple (.containing "fb.content" "y")),
        .not (Filter.ofTriple (.containing "fb.content" "y"))⟩,
      ⟨"r", .raw "r", .not [.raw "r"]⟩]⟩

theorem skeleton_overlapping : overlapping.skeleton {} = .ok (some overlappingSkeleton) := by
  rfl

theorem native_overlapping :
    (Minimizer.native {}).minimize overlappingSkeleton.formula.text ≠ .ok .skipped :=
  native_ne_skipped skeleton_overlapping (by decide)

theorem optimize_native_equivalent_overlapping :
    overlapping.skeleton {} = .ok (some overlappingSkeleton) ∧
      (Minimizer.native {}).minimize overlappingSkeleton.formula.text ≠ .ok .skipped ∧
      ∀ f', (Optimizer.mk {} (.native {}) .minimize).optimize overlapping = .ok (some f') →
        ∀ atoms : Std.HashSet String,
          f'.holds atoms.contains = overlapping.holds atoms.contains :=
  ⟨skeleton_overlapping, native_overlapping,
    (optimize_native_equivalent {} {} skeleton_overlapping native_overlapping).1⟩

end Optimizer

end StreamFilter
