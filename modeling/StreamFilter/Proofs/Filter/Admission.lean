import StreamFilter.Proofs.Filter.Fold
import StreamFilter.Proofs.Skeleton.Extract
set_option autoImplicit false

/-!
# Which filters have a skeleton

A filter has a skeleton exactly if it is admitted (`Filter.admitted_iff`): its connectives
have two parts or more, the names of its conditions are in the vocabulary, and no part of
a condition stands where a filter has to.  Of groups and negations only the first child
counts.  Admission is a reading of filters, and admitted filters are regular, so folding
is described for all of them.
-/

namespace StreamFilter

/-- Whether the names of a triple are in the vocabulary. -/
def Triple.admitted (v : Vocabulary) (t : Triple) : Bool :=
  v.admitsTarget t.target && v.admitsOperator t.operator

namespace Filter

mutual

/-- Whether a filter has a skeleton. -/
def admitted (v : Vocabulary) : Filter → Bool
  | and cs | or cs => decide (2 ≤ cs.length) && allAdmitted v cs
  | not cs =>
    if startsWithTarget cs then (triple? cs).any (·.admitted v) else firstAdmitted v cs
  | group cs => firstAdmitted v cs
  | condition cs => (triple? cs).any (·.admitted v)
  | raw _ => true
  | target _ | operator _ | argument _ | string _ => false

/-- Whether every filter of a list has a skeleton. -/
def allAdmitted (v : Vocabulary) : List Filter → Bool
  | [] => true
  | f :: fs => admitted v f && allAdmitted v fs

/-- Whether the first filter of a list has a skeleton. -/
def firstAdmitted (v : Vocabulary) : List Filter → Bool
  | [] => false
  | f :: _ => admitted v f

end

variable {v : Vocabulary}

theorem allAdmitted_eq (v : Vocabulary) (fs : List Filter) :
    allAdmitted v fs = fs.all (admitted v) := by
  induction fs with
  | nil => rfl
  | cons f fs ih => rw [allAdmitted, ih, List.all_cons]

/-! ## Admission and extraction -/

theorem exists_ok_pure {α : Type} (a : α) : ∃ b, (pure a : Except Fault α) = .ok b := ⟨a, rfl⟩

theorem exists_requireTwo_iff {parent : Kind} {cs : List Filter} :
    (∃ u, requireTwo parent cs = .ok u) ↔ 2 ≤ cs.length := by
  refine ⟨fun ⟨_, h⟩ => requireTwo_eq_ok h, fun h => ⟨(), ?_⟩⟩
  rw [requireTwo, if_neg (Nat.not_lt.2 h)]

/-- An admitted filter is no part of a condition. -/
theorem isTerminal_of_admitted {f : Filter} (h : admitted v f = true) :
    f.kind.isTerminal = false := by
  match f, h with
  | and _, _ | or _, _ | not _, _ | group _, _ | condition _, _ | raw _, _ => rfl

theorem startsWithTarget_of_admitted {f : Filter} (h : admitted v f = true) :
    startsWithTarget [f] = false := by
  match f, h with
  | and _, _ | or _, _ | not _, _ | group _, _ | condition _, _ | raw _, _ => rfl

theorem exists_requireBoolean {parent : Kind} {f : Filter} (h : admitted v f = true) :
    ∃ u, requireBoolean parent f = .ok u := by
  refine ⟨(), ?_⟩
  rw [requireBoolean, isTerminal_of_admitted h, if_neg Bool.false_ne_true]

theorem exists_extractTriple_iff {kind : Kind} {cs : List Filter} {vs : Variables} :
    (∃ r, extractTriple v kind cs vs = .ok r) ↔ (triple? cs).any (·.admitted v) = true := by
  constructor
  · rintro ⟨r, hr⟩
    obtain ⟨t, ht, htarget, hoperator, -⟩ := extractTriple_eq_ok hr
    simp [ht, Triple.admitted, htarget, hoperator]
  · intro h
    obtain ⟨t, ht, hadmitted⟩ := (Option.any_eq_true _ _).1 h
    obtain ⟨htarget, hoperator⟩ := Bool.and_eq_true_iff.1 hadmitted
    have hcsdl : t.csdl v = .ok t.text := by simp [Triple.csdl, htarget, hoperator]
    simp only [extractTriple, requireTriple, ht, hcsdl, bind, Except.bind]
    split
    · exact exists_ok_pure _
    · exact exists_ok_pure _

mutual

theorem exists_extractWith_iff : ∀ (f : Filter) (vs : Variables),
    (∃ r, extractWith v f vs = .ok r) ↔ admitted v f = true
  | and cs, vs => by
    rw [extractWith, admitted, Bool.and_eq_true, decide_eq_true_eq,
      exists_bind_eq_ok_iff fun _ => exists_bind_eq_ok_iff fun _ => iff_true_intro (exists_ok_pure _),
      exists_requireTwo_iff, exists_extractAll_iff cs vs, and_true]
  | or cs, vs => by
    rw [extractWith, admitted, Bool.and_eq_true, decide_eq_true_eq,
      exists_bind_eq_ok_iff fun _ => exists_bind_eq_ok_iff fun _ => iff_true_intro (exists_ok_pure _),
      exists_requireTwo_iff, exists_extractAll_iff cs vs, and_true]
  | not [], vs => by simp [extractWith, admitted, startsWithTarget, firstAdmitted]
  | not (c :: cs), vs => by
    cases hstart : startsWithTarget (c :: cs) with
    | true =>
      rw [extractWith_not_target hstart, admitted, if_pos hstart,
        exists_bind_eq_ok_iff fun _ => iff_true_intro (exists_ok_pure _), exists_extractTriple_iff,
        and_true]
    | false =>
      rw [extractWith_not hstart, admitted, hstart, if_neg Bool.false_ne_true, firstAdmitted,
        exists_bind_eq_ok_iff fun _ => exists_bind_eq_ok_iff fun _ =>
          iff_true_intro (exists_ok_pure _), exists_extractWith_iff c vs, and_true]
      exact and_iff_right_of_imp exists_requireBoolean
  | group [], vs => by simp [extractWith, admitted, firstAdmitted]
  | group (c :: cs), vs => by
    rw [extractWith, admitted, firstAdmitted,
      exists_bind_eq_ok_iff fun _ => exists_extractWith_iff c vs]
    exact and_iff_right_of_imp exists_requireBoolean
  | condition cs, vs => by rw [extractWith, admitted, exists_extractTriple_iff]
  | raw text, vs => by
    rw [extractWith, admitted]
    exact iff_of_true (exists_ok_pure _) rfl
  | target _, _ | operator _, _ | argument _, _ | string _, _ => by simp [extractWith, admitted]

theorem exists_extractAll_iff : ∀ (cs : List Filter) (vs : Variables) {parent : Kind},
    (∃ r, extractAll v parent cs vs = .ok r) ↔ allAdmitted v cs = true
  | [], vs, _ => by
    rw [extractAll, allAdmitted]
    exact iff_of_true (exists_ok_pure _) rfl
  | c :: cs, vs, parent => by
    have hrest : ∀ r : Formula String × Variables,
        (∃ b, (do
          let (fs, vs) ← extractAll v parent cs r.2
          return (r.1 :: fs, vs)) = Except.ok b) ↔ allAdmitted v cs = true := fun r => by
      rw [exists_bind_eq_ok_iff fun _ => iff_true_intro (exists_ok_pure _),
        exists_extractAll_iff cs r.2, and_true]
    rw [extractAll, allAdmitted, Bool.and_eq_true,
      exists_bind_eq_ok_iff fun _ => exists_bind_eq_ok_iff hrest, exists_extractWith_iff c vs]
    exact and_iff_right_of_imp fun h => exists_requireBoolean h.1

end

/-- The filters that have a skeleton are the admitted ones. -/
theorem admitted_iff {f : Filter} :
    admitted v f = true ↔ ∃ s, f.skeleton v = .ok (some s) := by
  rw [← exists_extractWith_iff f {}]
  unfold skeleton
  constructor
  · rintro ⟨⟨formula, table⟩, h⟩
    have hboolean := isTerminal_of_admitted ((exists_extractWith_iff f {}).1 ⟨_, h⟩)
    refine ⟨⟨formula, table⟩, ?_⟩
    rw [hboolean, if_neg Bool.false_ne_true, h]
    rfl
  · rintro ⟨s, h⟩
    split at h
    · cases h
    · obtain ⟨r, hr, -⟩ := exists_of_bind_eq_ok h
      exact ⟨r, hr⟩

theorem admitted_join (c : Connective) {cs : List Filter} (h : 2 ≤ cs.length) :
    admitted v (c.join cs) = Connective.and.value (admitted v) cs := by
  cases c <;> simp [Connective.join, admitted, h, allAdmitted_eq, Connective.value]

end Filter

/-- A list condition is admitted if the conditions of its words are. -/
theorem Triple.admitted_of_expansion? {v : Vocabulary} {t : Triple} {c : Connective}
    {parts : List Triple} (h : t.expansion? = some (c, parts)) :
    t.admitted v = Connective.and.value (Triple.admitted v) parts := by
  have hne := Filter.expansion_ne_nil h
  obtain ⟨list, -, rfl, hoperator⟩ := Triple.expansion?_eq_some h
  have hlist : v.admitsOperator t.operator = true := by
    rcases hoperator with ⟨hoperator, -⟩ | ⟨hoperator, -⟩ <;>
      simp [Vocabulary.admitsOperator, Vocabulary.operators, hoperator]
  have hpart : ∀ p ∈ (Text.WordList.words list).map (containing t.target),
      p.admitted v = v.admitsTarget t.target := by
    intro p hp
    obtain ⟨word, -, rfl⟩ := List.mem_map.1 hp
    simp [admitted, containing, Filter.admitsOperator_contains]
  obtain ⟨p, hp⟩ := List.exists_mem_of_ne_nil _ hne
  rw [admitted, hlist, Bool.and_true, Connective.value, Bool.eq_iff_iff, List.all_eq_true]
  constructor
  · intro htarget q hq
    rw [hpart q hq, htarget]
  · intro hall
    rw [← hpart p hp, hall p hp]

namespace Reading

/-- Admission.  Every connective asks for all its parts, and a negation for what it
negates. -/
def admission (v : Vocabulary) : Reading where
  strict := true
  value := Filter.admitted v
  triple := Triple.admitted v
  connective _ := .and
  negation := id
  value_join c cs h := Filter.admitted_join c (h rfl)
  value_group f := by rw [Filter.admitted, Filter.firstAdmitted]
  value_target name := by rw [Filter.admitted, Filter.admitted]; rfl
  value_condition cs t h := by rw [Filter.admitted, h]; rfl
  value_not_target cs h := by rw [Filter.admitted, if_pos h, Filter.admitted]; rfl
  value_not cs h := by
    rw [Filter.admitted, h, if_neg Bool.false_ne_true, Filter.admitted]
    rfl
  triple_expansion t c parts h := Triple.admitted_of_expansion? h
  negation_negation x := rfl
  value_dual c xs := rfl

end Reading

namespace Filter

/-! ## Admitted filters are regular -/

mutual

theorem regular_of_admitted {v : Vocabulary} : ∀ f : Filter, admitted v f = true → Regular true f
  | and fs, h => by
    simp only [admitted, Bool.and_eq_true, decide_eq_true_eq] at h
    rw [Regular]
    exact ⟨fun _ => h.1, allRegular_of_allAdmitted fs h.2⟩
  | or fs, h => by
    simp only [admitted, Bool.and_eq_true, decide_eq_true_eq] at h
    rw [Regular]
    exact ⟨fun _ => h.1, allRegular_of_allAdmitted fs h.2⟩
  | group [f], h => by
    rw [admitted, firstAdmitted] at h
    rw [Regular]
    exact regular_of_admitted f h
  | not [f], h => by
    rw [Regular]
    rw [admitted, firstAdmitted] at h
    split at h
    next hstart =>
      match f, hstart with
      | target _, _ => unfold Regular; trivial
    next => exact regular_of_admitted f h
  | condition cs, h => by
    rw [admitted] at h
    obtain ⟨t, ht, -⟩ := (Option.any_eq_true _ _).1 h
    rw [Regular]
    exact .inr ⟨rfl, length_ne_one_of_triple? ht⟩
  | group [], _ | group (_ :: _ :: _), _ | not [], _ | not (_ :: _ :: _), _ | raw _, _
  | target _, _ | operator _, _ | argument _, _ | string _, _ => by unfold Regular; trivial

theorem allRegular_of_allAdmitted {v : Vocabulary} :
    ∀ fs : List Filter, allAdmitted v fs = true → AllRegular true fs
  | [], _ => by rw [AllRegular]; trivial
  | f :: fs, h => by
    rw [allAdmitted, Bool.and_eq_true] at h
    rw [AllRegular]
    exact ⟨regular_of_admitted f h.1, allRegular_of_allAdmitted fs h.2⟩

end

end Filter

end StreamFilter
