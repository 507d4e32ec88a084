import StreamFilter.Proofs.Ascending
import StreamFilter.Proofs.Filter.Truth
set_option autoImplicit false

/-!
# The atoms that a filter mentions

The value of a filter depends on the atoms that it mentions and on no others
(`Filter.holds_congr`).  Folding neither invents nor loses an atom where conditions start
with their targets (`Filter.mem_occurrences_fold`), since whether an atom is mentioned is a
reading of filters.
-/

namespace StreamFilter

namespace Triple

theorem atoms_containing (target word : String) :
    (containing target word).atoms = [(containing target word).text] := by
  rw [atoms, expansion?_containing]

/-- A list condition mentions the atoms of its parts. -/
theorem atoms_of_expansion? {t : Triple} {c : Connective} {parts : List Triple}
    (h : t.expansion? = some (c, parts)) : t.atoms = parts.flatMap atoms := by
  obtain ⟨list, -, rfl, -⟩ := expansion?_eq_some h
  rw [atoms, h, List.flatMap_map]
  simp only [atoms_containing, List.map_map, Function.comp_def]
  exact List.map_eq_flatMap

theorem holds_congr {p q : String → Bool} (t : Triple) (h : ∀ a ∈ t.atoms, p a = q a) :
    t.holds p = t.holds q := by
  unfold atoms at h
  unfold holds
  split
  next c parts hexpansion =>
    simp only [hexpansion, List.mem_map] at h
    refine Connective.value_congr (exists_congr fun s => and_congr_right fun hs => ?_)
    rw [h s.text ⟨s, hs, rfl⟩]
  next hexpansion =>
    simp only [hexpansion, List.mem_singleton] at h
    exact h t.text rfl

end Triple

namespace Filter

mutual

/-- Sets of atoms that agree on what a filter mentions give it one value. -/
theorem holds_congr {p q : String → Bool} : ∀ f : Filter,
    (∀ a ∈ f.occurrences, p a = q a) → f.holds p = f.holds q
  | and fs, h => by
    rw [occurrences] at h
    rw [holds, holds, allHold_congr fs h]
  | or fs, h => by
    rw [occurrences] at h
    rw [holds, holds, anyHolds_congr fs h]
  | group fs, h => by
    rw [occurrences] at h
    rw [holds, holds, firstHolds_congr fs h]
  | not cs, h => by
    rw [occurrences] at h
    rw [holds, holds]
    split at h
    next t _ _ => rw [t.holds_congr h]
    next => rw [firstHolds_congr cs h]
  | condition cs, h => by
    rw [occurrences] at h
    rw [holds, holds]
    cases ht : triple? cs with
    | none => rfl
    | some t =>
      rw [ht] at h
      exact t.holds_congr h
  | raw text, h => by
    rw [occurrences] at h
    rw [holds, holds]
    exact h text List.mem_cons_self
  | target _, _ | operator _, _ | argument _, _ | string _, _ => by rw [holds, holds]

theorem allHold_congr {p q : String → Bool} : ∀ fs : List Filter,
    (∀ a ∈ occurrencesAll fs, p a = q a) → allHold p fs = allHold q fs
  | [], _ => rfl
  | f :: fs, h => by
    rw [occurrencesAll, List.forall_mem_append] at h
    rw [allHold, allHold, holds_congr f h.1, allHold_congr fs h.2]

theorem anyHolds_congr {p q : String → Bool} : ∀ fs : List Filter,
    (∀ a ∈ occurrencesAll fs, p a = q a) → anyHolds p fs = anyHolds q fs
  | [], _ => rfl
  | f :: fs, h => by
    rw [occurrencesAll, List.forall_mem_append] at h
    rw [anyHolds, anyHolds, holds_congr f h.1, anyHolds_congr fs h.2]

theorem firstHolds_congr {p q : String → Bool} : ∀ fs : List Filter,
    (∀ a ∈ occurrencesAll fs, p a = q a) → firstHolds p fs = firstHolds q fs
  | [], _ => rfl
  | f :: fs, h => by
    rw [occurrencesAll, List.forall_mem_append] at h
    rw [firstHolds, firstHolds, holds_congr f h.1]

end

theorem occurrences_join (c : Connective) (fs : List Filter) :
    (c.join fs).occurrences = fs.flatMap occurrences := by
  cases c <;> rw [Connective.join, occurrences, occurrencesAll_eq]

theorem occurrences_condition {cs : List Filter} {t : Triple} (h : triple? cs = some t) :
    (condition cs).occurrences = t.atoms := by
  rw [occurrences, h]

theorem occurrences_not_target {cs : List Filter} (h : startsWithTarget cs = true) :
    (not cs).occurrences = (condition cs).occurrences := by
  rw [occurrences, occurrences, h]
  cases triple? cs with
  | none => rfl
  | some t => rfl

theorem occurrences_not {cs : List Filter} (h : startsWithTarget cs = false) :
    (not cs).occurrences = (group cs).occurrences := by
  rw [occurrences, occurrences, h]

theorem occurrences_not_singleton (f : Filter) : (not [f]).occurrences = f.occurrences := by
  rw [occurrences, triple?_singleton]
  simp [occurrencesAll]

end Filter

namespace Reading

/-- Mention of an atom.  Every node mentions what one of its parts does, and a negation
what it negates. -/
def mention (atom : String) : Reading where
  strict := false
  value f := decide (atom ∈ f.occurrences)
  triple t := decide (atom ∈ t.atoms)
  connective _ := .or
  negation := id
  value_join c cs _ := by
    rw [Filter.occurrences_join, Connective.value, Bool.eq_iff_iff]
    simp
  value_group f := by simp [Filter.occurrences, Filter.occurrencesAll]
  value_target name := rfl
  value_condition cs t h := by rw [Filter.occurrences_condition h]
  value_not_target cs h := by rw [Filter.occurrences_not_target h]; rfl
  value_not cs h := by rw [Filter.occurrences_not h]; rfl
  triple_expansion t c parts h := by
    rw [Triple.atoms_of_expansion? h, Connective.value, Bool.eq_iff_iff]
    simp
  negation_negation := id_eq
  value_dual c xs := rfl

end Reading

namespace Filter

/-- Folding neither invents nor loses an atom. -/
theorem mem_occurrences_fold {f : Filter} (hf : targetsFirst f = true) {atom : String} :
    atom ∈ f.fold.occurrences ↔ atom ∈ f.occurrences :=
  decide_eq_decide.1 (value_fold (.mention atom) rfl hf)

theorem mem_atoms {f : Filter} {atom : String} : atom ∈ f.atoms ↔ atom ∈ f.occurrences :=
  mem_ascending

theorem atoms_fold {f : Filter} (hf : targetsFirst f = true) : f.fold.atoms = f.atoms :=
  ascendingTexts_congr fun _ => mem_occurrences_fold hf

/-- Putting a connective into a group adds no atom. -/
theorem occurrences_parenthesized (f : Filter) :
    f.parenthesized.occurrences = f.occurrences := by
  unfold parenthesized
  split
  · rw [occurrences, occurrencesAll, occurrencesAll, List.append_nil]
  · rfl

end Filter

end StreamFilter
