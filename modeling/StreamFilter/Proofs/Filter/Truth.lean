import StreamFilter.Proofs.Filter.Fold
set_option autoImplicit false

/-!
# Folding keeps the truth value

Truth under given atoms is a reading of filters, so folding keeps it wherever conditions
start with their targets (`Filter.holds_fold`).  Nothing else is asked of the tree.
-/

namespace StreamFilter

namespace Triple

theorem expansion?_containing (target word : String) : (containing target word).expansion? = none := by
  simp [expansion?, containing]

theorem holds_containing (truths : String → Bool) (target word : String) :
    (containing target word).holds truths = truths (containing target word).text := by
  rw [holds, expansion?_containing]

/-- The parts of a list condition are the `contains` conditions of its words. -/
theorem expansion?_eq_some {t : Triple} {c : Connective} {parts : List Triple}
    (h : t.expansion? = some (c, parts)) :
    ∃ list, t.argument = some list ∧
      parts = (Text.WordList.words list).map (containing t.target) ∧
        (t.operator = "contains_any" ∧ c = .or ∨ t.operator = "contains_all" ∧ c = .and) := by
  unfold expansion? at h
  split at h
  next list hlist =>
    refine ⟨list, hlist, ?_⟩
    split at h
    next hany =>
      obtain ⟨rfl, rfl⟩ := Prod.mk.inj (Option.some.inj h)
      exact ⟨rfl, .inl ⟨hany, rfl⟩⟩
    next =>
      split at h
      next hall =>
        obtain ⟨rfl, rfl⟩ := Prod.mk.inj (Option.some.inj h)
        exact ⟨rfl, .inr ⟨hall, rfl⟩⟩
      next => cases h
  next => cases h

theorem holds_of_expansion? {t : Triple} {c : Connective} {parts : List Triple}
    (h : t.expansion? = some (c, parts)) (truths : String → Bool) :
    t.holds truths = c.value (holds truths) parts := by
  obtain ⟨list, -, rfl, -⟩ := expansion?_eq_some h
  rw [holds, h]
  dsimp only
  rw [Connective.value_map, Connective.value_map]
  simp only [holds_containing]

end Triple

namespace Filter

variable (truths : String → Bool)

theorem holds_join (c : Connective) (fs : List Filter) :
    (c.join fs).holds truths = c.value (holds truths) fs := by
  cases c with
  | and => rw [Connective.join, holds, allHold_eq, Connective.value]
  | or => rw [Connective.join, holds, anyHolds_eq, Connective.value]

theorem holds_not_target {cs : List Filter} (h : startsWithTarget cs = true) :
    (not cs).holds truths = !(triple? cs).any (·.holds truths) := by
  rw [holds, h]
  match cs, h with
  | target name :: cs, _ =>
    cases triple? (target name :: cs) with
    | some t => rfl
    | none => rfl

theorem holds_not {cs : List Filter} (h : startsWithTarget cs = false) :
    (not cs).holds truths = !(group cs).holds truths := by
  simp [holds, h]

end Filter

namespace Reading

/-- Truth, given which atoms hold.  It reads every connective by its parts, so it may also
be taken as strict. -/
def truth (strict : Bool) (truths : String → Bool) : Reading where
  strict := strict
  value := Filter.holds truths
  triple := Triple.holds truths
  connective := id
  negation := Bool.not
  value_join c cs _ := Filter.holds_join truths c cs
  value_group f := by rw [Filter.holds, Filter.firstHolds]
  value_target name := by rw [Filter.holds, Filter.holds]; rfl
  value_condition cs t h := by rw [Filter.holds, h]; rfl
  value_not_target cs h := by rw [Filter.holds_not_target truths h, Filter.holds]
  value_not cs h := Filter.holds_not truths h
  triple_expansion t c parts h := Triple.holds_of_expansion? h truths
  negation_negation x := Bool.not_not x
  value_dual c xs := by
    cases c <;> simp [Connective.value, Connective.dual, List.not_all_eq_any_not,
      List.not_any_eq_all_not]

end Reading

namespace Filter

theorem holds_not_singleton (truths : String → Bool) (f : Filter) :
    (not [f]).holds truths = !f.holds truths :=
  (Reading.truth false truths).value_not_singleton f

mutual

/-- Whether every condition of a filter has its target as first child. -/
def targetsFirst : Filter → Bool
  | condition cs => startsWithTarget cs && allTargetsFirst cs
  | and cs | or cs | not cs | group cs => allTargetsFirst cs
  | argument content => targetsFirst content
  | raw _ | target _ | operator _ | string _ => true

/-- Whether this is so for every filter of a list. -/
def allTargetsFirst : List Filter → Bool
  | [] => true
  | f :: fs => targetsFirst f && allTargetsFirst fs

end

mutual

theorem regular_of_targetsFirst : ∀ f : Filter, targetsFirst f = true → Regular false f
  | and fs, h => by
    rw [targetsFirst] at h
    rw [Regular]
    exact ⟨fun hstrict => absurd hstrict Bool.false_ne_true, allRegular_of_allTargetsFirst fs h⟩
  | or fs, h => by
    rw [targetsFirst] at h
    rw [Regular]
    exact ⟨fun hstrict => absurd hstrict Bool.false_ne_true, allRegular_of_allTargetsFirst fs h⟩
  | group [f], h => by
    simp only [targetsFirst, allTargetsFirst, Bool.and_true] at h
    rw [Regular]
    exact regular_of_targetsFirst f h
  | not [f], h => by
    simp only [targetsFirst, allTargetsFirst, Bool.and_true] at h
    rw [Regular]
    exact regular_of_targetsFirst f h
  | condition cs, h => by
    simp only [targetsFirst, Bool.and_eq_true] at h
    rw [Regular]
    exact .inl h.1
  | group [], _ | group (_ :: _ :: _), _ | not [], _ | not (_ :: _ :: _), _ | raw _, _
  | target _, _ | operator _, _ | argument _, _ | string _, _ => by unfold Regular; trivial

theorem allRegular_of_allTargetsFirst :
    ∀ fs : List Filter, allTargetsFirst fs = true → AllRegular false fs
  | [], _ => by rw [AllRegular]; trivial
  | f :: fs, h => by
    simp only [allTargetsFirst, Bool.and_eq_true] at h
    rw [AllRegular]
    exact ⟨regular_of_targetsFirst f h.1, allRegular_of_allTargetsFirst fs h.2⟩

end

/-- Every reading that need not be strict finds in a folded filter what it finds in the
filter, if conditions start with their targets. -/
theorem value_fold (E : Reading) (hE : E.strict = false) {f : Filter}
    (hf : targetsFirst f = true) : E.value f.fold = E.value f := by
  have hreg : Regular false f := regular_of_targetsFirst f hf
  rw [(folds_of_regular f hreg).value_fold E hE, asFolded_of_regular f hreg]

/-- Folding keeps the truth value of every filter whose conditions start with their
targets, however malformed it is otherwise. -/
theorem holds_fold {f : Filter} (hf : targetsFirst f = true) (truths : String → Bool) :
    f.fold.holds truths = f.holds truths :=
  value_fold (.truth false truths) rfl hf

/-- A filter that folding merges, distributes and unwraps: it negates a connective with an
empty part, a part without operator, a group of two and words with commas and backslashes. -/
def tangled : Filter :=
  not [group [and [
    condition [target "a", operator "contains", argument (string "x,y")],
    condition [target "a", operator "contains_all", argument (string "u\\,v,w")],
    condition [target "a", operator "contains", argument (string "z\\")],
    not [target "a", operator "contains_any", argument (string "t")],
    or [], condition [target "a"], group [raw "r", raw "s"]]]]

theorem holds_fold_tangled :
    tangled.targetsFirst = true ∧ ∀ truths, tangled.fold.holds truths = tangled.holds truths :=
  ⟨by decide, fun truths => holds_fold (by decide) truths⟩

end Filter

end StreamFilter
