import StreamFilter.Minimize.Native
import StreamFilter.Optimize
import StreamFilter.Proofs.Filter.Admission
set_option autoImplicit false

/-!
# When folding alone is safe

Folding an admitted filter is safe if the result is admitted and equivalent.  This fails
for conditions that are misread: below a negation, a condition that does not start with
its target and is not written anew comes out as a negation of its first child.  Safety is
decided by them (`Optimizer.optimize_foldOnly_safe_iff`): what their children say as a
group has to be admitted, and the filter with these groups in place of the conditions has
to be equivalent.  Where nothing is misread, folding is safe.
-/

namespace StreamFilter

namespace Filter

mutual

/-- The conditions that folding takes for groups, each as its children. -/
def misread (negated : Bool) (parent : Option Connective) : Filter → List (List Filter)
  | and cs => misreadAll negated (some .and) cs
  | or cs => misreadAll negated (some .or) cs
  | group [f] => misread negated parent f
  | not [f] => misread true none f
  | condition cs =>
    if negated && !startsWithTarget cs && !rewritten parent cs then [cs] else []
  | _ => []

/-- The misread conditions of the filters of a list. -/
def misreadAll (negated : Bool) (parent : Option Connective) : List Filter → List (List Filter)
  | [] => []
  | f :: fs => misread negated parent f ++ misreadAll negated parent fs

end

mutual

theorem asFolded_of_misread : ∀ (f : Filter) {negated : Bool} {parent : Option Connective},
    misread negated parent f = [] → f.asFolded negated parent = f
  | and fs, _, _, h => by
    rw [misread] at h
    rw [asFolded, asFoldedAll_of_misreadAll fs h]
  | or fs, _, _, h => by
    rw [misread] at h
    rw [asFolded, asFoldedAll_of_misreadAll fs h]
  | group [f], _, _, h => by
    rw [misread] at h
    rw [asFolded, asFolded_of_misread f h]
  | not [f], _, _, h => by
    rw [misread] at h
    rw [asFolded, asFolded_of_misread f h]
  | condition cs, _, _, h => by
    rw [misread] at h
    rw [asFolded]
    split at h
    · cases h
    next hread => rw [if_neg hread]
  | group [], _, _, _ | group (_ :: _ :: _), _, _, _ | not [], _, _, _ | not (_ :: _ :: _), _, _, _
  | raw _, _, _, _ | target _, _, _, _ | operator _, _, _, _ | argument _, _, _, _
  | string _, _, _, _ => by unfold asFolded; rfl

theorem asFoldedAll_of_misreadAll : ∀ (fs : List Filter) {negated : Bool}
    {parent : Option Connective}, misreadAll negated parent fs = [] →
      asFoldedAll negated parent fs = fs
  | [], _, _, _ => rfl
  | f :: fs, _, _, h => by
    rw [misreadAll, List.append_eq_nil_iff] at h
    rw [asFoldedAll, asFolded_of_misread f h.1, asFoldedAll_of_misreadAll fs h.2]

end

variable {v : Vocabulary}

mutual

/-- Folding takes an admitted filter for an admitted one exactly if the children of each
misread condition are admitted as a group. -/
theorem admitted_asFolded_iff : ∀ (f : Filter) {negated : Bool} {parent : Option Connective},
    admitted v f = true → (admitted v (f.asFolded negated parent) = true ↔
      ∀ cs ∈ misread negated parent f, admitted v (group cs) = true)
  | and fs, _, _, h => by
    simp only [admitted, Bool.and_eq_true, decide_eq_true_eq] at h
    rw [asFolded, misread, ← allAdmitted_asFoldedAll_iff fs h.2, admitted, asFoldedAll_eq,
      List.length_map, decide_eq_true h.1, Bool.true_and]
  | or fs, _, _, h => by
    simp only [admitted, Bool.and_eq_true, decide_eq_true_eq] at h
    rw [asFolded, misread, ← allAdmitted_asFoldedAll_iff fs h.2, admitted, asFoldedAll_eq,
      List.length_map, decide_eq_true h.1, Bool.true_and]
  | group [f], _, _, h => by
    rw [admitted, firstAdmitted] at h
    rw [asFolded, misread, ← admitted_asFolded_iff f h, admitted, firstAdmitted]
  | not [f], _, _, h => by
    have hnot : ∀ g, admitted v (not [g]) = admitted v g :=
      (Reading.admission v).value_not_singleton
    rw [hnot] at h
    rw [asFolded, misread, ← admitted_asFolded_iff f h, hnot]
  | condition cs, _, _, h => by
    rw [asFolded, misread]
    split
    · simp
    · simp [h]
  | group [], _, _, h | group (_ :: _ :: _), _, _, h | not [], _, _, h | not (_ :: _ :: _), _, _, h
  | raw _, _, _, h | target _, _, _, h | operator _, _, _, h | argument _, _, _, h
  | string _, _, _, h => by simpa [asFolded, misread] using h

theorem allAdmitted_asFoldedAll_iff : ∀ (fs : List Filter) {negated : Bool}
    {parent : Option Connective}, allAdmitted v fs = true →
      (allAdmitted v (asFoldedAll negated parent fs) = true ↔
        ∀ cs ∈ misreadAll negated parent fs, admitted v (group cs) = true)
  | [], _, _, _ => by simp [asFoldedAll, misreadAll, allAdmitted]
  | f :: fs, _, _, h => by
    rw [allAdmitted, Bool.and_eq_true] at h
    rw [asFoldedAll, misreadAll, List.forall_mem_append, allAdmitted, Bool.and_eq_true,
      admitted_asFolded_iff f h.1, allAdmitted_asFoldedAll_iff fs h.2]

end

end Filter

namespace Optimizer

/-- In fold-only mode an admitted filter has a result.  It is admitted and equivalent
exactly if every misread condition is admitted as a group and the filter with these groups
is equivalent; so it is if nothing is misread. -/
theorem optimize_foldOnly_safe_iff (v : Vocabulary) (minimizer : Minimizer) {f : Filter}
    {s : Skeleton} (hs : f.skeleton v = .ok (some s)) :
    ∃ f', (Optimizer.mk v minimizer .foldOnly).optimize f = .ok (some f') ∧
      (((∃ s', f'.skeleton v = .ok (some s')) ∧
          ∀ atoms : Std.HashSet String, f'.holds atoms.contains = f.holds atoms.contains) ↔
        (∀ cs ∈ f.misread false none, ∃ s', (Filter.group cs).skeleton v = .ok (some s')) ∧
          ∀ atoms : Std.HashSet String,
            (f.asFolded false none).holds atoms.contains = f.holds atoms.contains) ∧
      (f.misread false none = [] → (∃ s', f'.skeleton v = .ok (some s')) ∧
        ∀ atoms : Std.HashSet String, f'.holds atoms.contains = f.holds atoms.contains) := by
  have hadmitted : f.admitted v = true := Filter.admitted_iff.2 ⟨s, hs⟩
  have hfolds : Filter.Folds true f :=
    Filter.folds_of_regular f (Filter.regular_of_admitted f hadmitted)
  have hresult : (∃ s', f.fold.skeleton v = .ok (some s')) ↔
      ∀ cs ∈ f.misread false none, ∃ s', (Filter.group cs).skeleton v = .ok (some s') := by
    simp only [← Filter.admitted_iff]
    rw [← Filter.admitted_asFolded_iff f hadmitted]
    exact Bool.eq_iff_iff.1 (hfolds.value_fold (.admission v) rfl)
  have hvalue : ∀ truths, f.fold.holds truths = (f.asFolded false none).holds truths :=
    fun truths => hfolds.value_fold (.truth true truths) rfl
  refine ⟨f.fold, by simp [optimize, hs, bind, Except.bind, pure, Except.pure], ?_, ?_⟩
  · simp only [hresult, hvalue]
  · intro hnone
    rw [hresult, hnone]
    refine ⟨by simp, fun atoms => ?_⟩
    rw [hvalue, Filter.asFolded_of_misread f hnone]

/-- A negated condition with its operator before its target. -/
def swapped : Filter :=
  .not [.condition [.operator "contains", .target "fb.content", .argument (.string "a")]]

/-- Its skeleton. -/
def swappedSkeleton : Skeleton :=
  ⟨.not (.var "v1"), .registered [⟨"fb.content contains \"a\"",
    .condition (Filter.ofTriple (.containing "fb.content" "a")),
    .not (Filter.ofTriple (.containing "fb.content" "a"))⟩]⟩

/-- Folding alone is not safe for it. -/
theorem optimize_foldOnly_swapped :
    swapped.skeleton {} = .ok (some swappedSkeleton) ∧
      ∃ f', (Optimizer.mk {} (.native {}) .foldOnly).optimize swapped = .ok (some f') ∧
        ¬ ((∃ s', f'.skeleton {} = .ok (some s')) ∧
          ∀ atoms : Std.HashSet String,
            f'.holds atoms.contains = swapped.holds atoms.contains) := by
  have hs : swapped.skeleton {} = .ok (some swappedSkeleton) := by rfl
  obtain ⟨f', hf', hsafe, -⟩ := optimize_foldOnly_safe_iff {} (.native {}) hs
  refine ⟨hs, f', hf', fun h => ?_⟩
  obtain ⟨s', hs'⟩ := (hsafe.1 h).1
    [.operator "contains", .target "fb.content", .argument (.string "a")] (by decide)
  cases hs'

end Optimizer

end StreamFilter
