import StreamFilter.Proofs.Skeleton.Extract
import StreamFilter.Skeleton.Restore
set_option autoImplicit false

/-!
# Putting conditions back for variables

A formula over the variables of a sound table becomes a filter of the same value
(`Formula.restores`), in which every condition starts with its target.  The filter mentions
the atoms of the formula's variables, in their order.
-/

namespace StreamFilter

namespace Filter

theorem holds_parenthesized (truths : String → Bool) (f : Filter) :
    f.parenthesized.holds truths = f.holds truths := by
  unfold parenthesized
  split
  · rw [holds, firstHolds]
  · rfl

theorem targetsFirst_parenthesized (f : Filter) :
    f.parenthesized.targetsFirst = f.targetsFirst := by
  unfold parenthesized
  split
  · rw [targetsFirst, allTargetsFirst, allTargetsFirst, Bool.and_true]
  · rfl

end Filter

namespace Formula

/-- A filter in place of a formula over a table. -/
structure Restored (vs : Variables) (f : Formula String) (g : Filter) : Prop where
  targetsFirst : g.targetsFirst = true
  value : ∀ truths, g.holds truths = f.holds (vs.truth truths)
  occurrences : g.occurrences = f.occurrences.filterMap vs.text?

/-- Filters in place of the formulas of a list. -/
structure RestoredAll (vs : Variables) (fs : List (Formula String)) (gs : List Filter) :
    Prop where
  targetsFirst : Filter.allTargetsFirst gs = true
  values : ∀ truths, gs.map (Filter.holds truths) = fs.map (holds (vs.truth truths))
  occurrences : Filter.occurrencesAll gs = (occurrencesAll fs).filterMap vs.text?

variable {v : Vocabulary} {vs : Variables}

theorem lookup_of_find? {name : String} {x : Variable} (h : vs.find? name = some x) :
    lookup vs name = .ok x := by
  rw [lookup, h]

theorem find?_of_lookup {name : String} {x : Variable} (h : lookup vs name = .ok x) :
    vs.find? name = some x := by
  unfold lookup at h
  split at h
  next y hy => rw [hy, Except.ok.inj h]
  next => cases h

/-- What a name stands for in a sound table is an atom. -/
theorem isAtom_of_lookup (hvs : vs.Sound v) {name : String} {x : Variable}
    (h : lookup vs name = .ok x) : x.IsAtom v :=
  hvs.atoms x (Variables.mem_of_find? (find?_of_lookup h)).1

/-- The filter for a negated formula that is no variable. -/
theorem toFilter_not_eq_ok {f : Formula String} (hvar : ∀ name, f ≠ var name) {g : Filter}
    (h : toFilter vs (not f) = .ok g) :
    ∃ part, toFilter vs f = .ok part ∧ g = .not [part.parenthesized] := by
  rw [toFilter] at h
  · obtain ⟨part, hpart, h⟩ := exists_of_bind_eq_ok h
    exact ⟨part, hpart, (Except.ok.inj h).symm⟩
  · exact hvar

/-- The filter of a negation, where the negated formula is no variable. -/
theorem exists_restored_not {f : Formula String} (hvar : ∀ name, f ≠ var name)
    (h : ∃ g, toFilter vs f = .ok g ∧ Restored vs f g) :
    ∃ g, toFilter vs (not f) = .ok g ∧ Restored vs (not f) g := by
  obtain ⟨g, hg, hrestored⟩ := h
  refine ⟨.not [g.parenthesized], ?_, ?_, fun truths => ?_, ?_⟩
  · rw [toFilter, hg]
    · rfl
    · exact hvar
  · rw [Filter.targetsFirst, Filter.allTargetsFirst, Filter.allTargetsFirst,
      Filter.targetsFirst_parenthesized, hrestored.targetsFirst]
    rfl
  · rw [Filter.holds_not_singleton, Filter.holds_parenthesized, hrestored.value, holds]
  · rw [Filter.occurrences_not_singleton, Filter.occurrences_parenthesized,
      hrestored.occurrences, Formula.occurrences]

/-- The filters of the parts of a connective, joined. -/
theorem RestoredAll.join {fs : List (Formula String)} {gs : List Filter}
    (h : RestoredAll vs fs gs) (c : Connective) :
    Restored vs (Filter.formulaOf c fs) (c.join gs) := by
  constructor
  · cases c <;> rw [Connective.join, Filter.targetsFirst, h.targetsFirst]
  · intro truths
    have hgs := Connective.value_map c id (Filter.holds truths) gs
    have hfs := Connective.value_map c id (holds (vs.truth truths)) fs
    have hvalue : (c.join gs).holds truths = c.value (holds (vs.truth truths)) fs := by
      rw [Filter.holds_join]
      exact hgs.symm.trans ((congrArg _ (h.values truths)).trans hfs)
    cases c with
    | and => rw [hvalue, Filter.formulaOf, holds, allHold_eq, Connective.value]
    | or => rw [hvalue, Filter.formulaOf, holds, anyHolds_eq, Connective.value]
  · rw [Filter.occurrences_join, ← Filter.occurrencesAll_eq, h.occurrences, occurrences_formulaOf]

mutual

/-- Over known variables every formula has a filter. -/
theorem restores (hvs : vs.Sound v) : ∀ f : Formula String,
    (∀ name ∈ f.occurrences, ∃ x, vs.find? name = some x) →
      ∃ g, toFilter vs f = .ok g ∧ Restored vs f g
  | var name, hf => by
    obtain ⟨x, hx⟩ := hf name (by simp [occurrences])
    have hatom := hvs.atoms x (Variables.mem_of_find? hx).1
    refine ⟨x.stated, ?_, hatom.targetsFirst.1, fun truths => ?_, ?_⟩
    · rw [toFilter, lookup_of_find? hx]
      rfl
    · rw [hatom.holds_stated, holds, Variables.truth_of_find? hx]
    · simp [hatom.occurrences.1, Formula.occurrences, Variables.text?_of_find? hx]
  | not (var name), hf => by
    obtain ⟨x, hx⟩ := hf name (by simp [occurrences])
    have hatom := hvs.atoms x (Variables.mem_of_find? hx).1
    refine ⟨x.denied, ?_, hatom.targetsFirst.2, fun truths => ?_, ?_⟩
    · rw [toFilter, lookup_of_find? hx]
      rfl
    · rw [hatom.holds_denied, holds, holds, Variables.truth_of_find? hx]
    · simp [hatom.occurrences.2, Formula.occurrences, Variables.text?_of_find? hx]
  | not (not f), hf => by
    rw [occurrences] at hf
    exact exists_restored_not (by simp) (restores hvs (not f) hf)
  | not (and fs), hf => by
    rw [occurrences] at hf
    exact exists_restored_not (by simp) (restores hvs (and fs) hf)
  | not (or fs), hf => by
    rw [occurrences] at hf
    exact exists_restored_not (by simp) (restores hvs (or fs) hf)
  | and fs, hf => by
    rw [occurrences] at hf
    obtain ⟨gs, hgs, hrestored⟩ := restoresAll hvs fs hf
    refine ⟨.and gs, ?_, hrestored.join .and⟩
    rw [toFilter, hgs]
    rfl
  | or fs, hf => by
    rw [occurrences] at hf
    obtain ⟨gs, hgs, hrestored⟩ := restoresAll hvs fs hf
    refine ⟨.or gs, ?_, hrestored.join .or⟩
    rw [toFilter, hgs]
    rfl

theorem restoresAll (hvs : vs.Sound v) : ∀ fs : List (Formula String),
    (∀ name ∈ occurrencesAll fs, ∃ x, vs.find? name = some x) →
      ∃ gs, toFilters vs fs = .ok gs ∧ RestoredAll vs fs gs
  | [], _ => ⟨[], rfl, rfl, fun _ => rfl, rfl⟩
  | f :: fs, hf => by
    rw [occurrencesAll] at hf
    obtain ⟨g, hg, hfirst⟩ := restores hvs f fun name hname =>
      hf name (List.mem_append_left _ hname)
    obtain ⟨gs, hgs, hrest⟩ := restoresAll hvs fs fun name hname =>
      hf name (List.mem_append_right _ hname)
    refine ⟨g.parenthesized :: gs, ?_, ?_, fun truths => ?_, ?_⟩
    · rw [toFilters, hg, hgs]
      rfl
    · rw [Filter.allTargetsFirst, Filter.targetsFirst_parenthesized, hfirst.targetsFirst,
        hrest.targetsFirst]
      rfl
    · rw [List.map_cons, List.map_cons, Filter.holds_parenthesized, hfirst.value, hrest.values]
    · rw [Filter.occurrencesAll, Filter.occurrences_parenthesized, hfirst.occurrences,
        hrest.occurrences, occurrencesAll, List.filterMap_append]

end

end Formula

end StreamFilter
