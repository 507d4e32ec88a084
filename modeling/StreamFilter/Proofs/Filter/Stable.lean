import StreamFilter.Proofs.Filter.Fold
set_option autoImplicit false

/-!
# Folding again changes nothing

A filter is `Stable` if every step of folding leaves it as it is: below a connective nothing
can be inlined or merged, only connectives stand in groups, below a negation stands what
folding keeps, and no list condition has a single word.  A stable filter is its own folding
(`Filter.Stable.fold_eq`), and folding gives a stable filter (`Filter.stable_fold`).

The latter needs that conditions have a triple.  Denied, a condition keeps its children; so
one with a single child that is no target becomes the negation of this child, and the
negation can be folded further.
-/

namespace StreamFilter.Filter

mutual

/-- A filter that no step of folding changes.  Of a condition with one child, which has no
triple, it is asked that its denial is no negation of this child. -/
def Stable : Filter → Prop
  | and cs => cs.length ≠ 1 ∧ Merged .and cs ∧ AllStable cs
  | or cs => cs.length ≠ 1 ∧ Merged .or cs ∧ AllStable cs
  | group [f] => f.connective?.isSome = true ∧ Stable f
  | not cs => (not cs).degrade = not cs ∧ ∀ f, cs = [f] → isKept f = true
  | condition cs =>
    (condition cs).degrade = condition cs ∧ (cs.length = 1 → startsWithTarget cs = true)
  | _ => True

/-- Every filter of a list is stable. -/
def AllStable : List Filter → Prop
  | [] => True
  | f :: fs => Stable f ∧ AllStable fs

end

theorem allStable_iff {fs : List Filter} : AllStable fs ↔ ∀ f ∈ fs, Stable f := by
  induction fs with
  | nil => simp [AllStable]
  | cons f fs ih => simp [AllStable, ih]

theorem stable_join {c : Connective} {fs : List Filter} :
    Stable (c.join fs) ↔ fs.length ≠ 1 ∧ Merged c fs ∧ ∀ f ∈ fs, Stable f := by
  cases c <;> simp [Connective.join, Stable, allStable_iff]

theorem Stable.of_exposed? {f : Filter} (hf : Stable f) {c : Connective} {fs : List Filter}
    (h : f.exposed? = some (c, fs)) : Merged c fs ∧ ∀ g ∈ fs, Stable g := by
  rcases exposed?_cases h with rfl | rfl
  · exact (stable_join.1 hf).2
  · rw [Stable] at hf
    exact (stable_join.1 hf.2).2

/-! ## A stable filter is its own folding -/

theorem exposed?_of_isKept {f : Filter} (h : isKept f = true) : f.exposed? = none := by
  match f, h with
  | not _, _ | raw _, _ | target _, _ | operator _, _ | argument _, _ | string _, _ => rfl
  | group [], _ | group (_ :: _ :: _), _ => rfl

theorem negate_of_isKept : ∀ {f : Filter}, isKept f = true → f.negate = not [f]
  | not cs, h => by
    simp only [isKept, Bool.and_eq_true, Bool.not_eq_true', bne_iff_ne] at h
    unfold negate
    dsimp only
    rw [if_neg (by simp [h.1])]
    split
    · exact absurd rfl h.2
    · rfl
  | group _, _ | raw _, _ | target _, _ | operator _, _ | argument _, _ | string _, _ => rfl

/-- What folding keeps is wrapped by a negation. -/
theorem foldNegation_of_isKept {f : Filter} (h : isKept f = true) : foldNegation f = not [f] := by
  rw [foldNegation, exposed?_of_isKept h]
  exact negate_of_isKept h

theorem fold_not_eq_self {cs : List Filter} (hdegrade : (not cs).degrade = not cs)
    (hkept : ∀ f, cs = [f] → isKept f = true) : (not cs).fold = not cs := by
  cases hstart : startsWithTarget cs with
  | true => rw [fold_not_target cs hstart, hdegrade]
  | false =>
    by_cases hlen : cs.length = 1
    · obtain ⟨f, rfl⟩ := List.length_eq_one_iff.1 hlen
      have hf := hkept f rfl
      rw [fold_not_singleton f hstart, fold_of_isKept hf, foldNegation_of_isKept hf]
    · exact fold_not cs hstart hlen

theorem collapse_of_length_ne_one {c : Connective} {fs : List Filter} (h : fs.length ≠ 1) :
    collapse c fs = c.join fs := by
  match fs, h with
  | [], _ | _ :: _ :: _, _ => rfl

theorem Merged.merge_eq_join {c : Connective} {fs : List Filter} (h : Merged c fs)
    (hlen : fs.length ≠ 1) : merge c fs = c.join fs := by
  rw [merge_eq, h.parts, collapse_of_length_ne_one hlen]

mutual

theorem Stable.fold_eq : ∀ {f : Filter}, Stable f → f.fold = f
  | and fs, h => by
    rw [Stable] at h
    rw [fold_and, AllStable.map_fold h.2.2]
    exact h.2.1.merge_eq_join h.1
  | or fs, h => by
    rw [Stable] at h
    rw [fold_or, AllStable.map_fold h.2.2]
    exact h.2.1.merge_eq_join h.1
  | group [f], h => by
    rw [Stable] at h
    obtain ⟨exposed, hexposed⟩ := Option.isSome_iff_exists.1 h.1
    rw [fold_group_singleton, Stable.fold_eq h.2, parenthesized, hexposed]
  | group [], _ | group (_ :: _ :: _), _ => fold_group _ (by simp)
  | not cs, h => by
    rw [Stable] at h
    exact fold_not_eq_self h.1 h.2
  | condition cs, h => by
    rw [Stable] at h
    rw [fold_condition, h.1]
  | raw _, _ | target _, _ | operator _, _ | argument _, _ | string _, _ => by simp

theorem AllStable.map_fold : ∀ {fs : List Filter}, AllStable fs → fs.map fold = fs
  | [], _ => rfl
  | f :: fs, h => by
    rw [AllStable] at h
    rw [List.map_cons, Stable.fold_eq h.1, AllStable.map_fold h.2]

end

/-! ## Conditions -/

theorem degrade_of_containment?_eq_none {f : Filter} (h : f.containment? = none) :
    f.degrade = f := by
  rw [degrade, h]

theorem degrade_contains (p : Polarity) {t : Triple} (h : t.operator = "contains") :
    (p.node (ofTriple t)).degrade = p.node (ofTriple t) := by
  unfold degrade
  rw [containment?_node]
  cases hk : Containment.ofTriple? p t with
  | none => rfl
  | some k =>
    obtain ⟨-, htriple, -⟩ := Containment.ofTriple?_eq_some hk
    have hoperator : k.operator = "contains" := by rw [← h, ← htriple]; rfl
    exact if_pos hoperator

theorem containment?_not {cs : List Filter} (h : startsWithTarget cs = true) :
    (not cs).containment? =
      (condition cs).containment?.map fun k => { k with polarity := .negated } := by
  rw [containment?, containment?, if_pos h, Option.map_bind]
  congr 1
  funext t
  simp only [Containment.ofTriple?, Function.comp_apply]
  split
  · split <;> rfl
  · rfl

/-- Whether a triple is left as it is does not depend on its polarity. -/
theorem degrade_not_iff {cs : List Filter} (h : startsWithTarget cs = true) :
    (not cs).degrade = not cs ↔ (condition cs).degrade = condition cs := by
  unfold degrade
  rw [containment?_not h]
  cases hk : (condition cs).containment? with
  | none => simp
  | some k =>
    have hplain : k.polarity = .plain := by
      obtain ⟨-, ⟨hp, -⟩ | ⟨-, ds, hds, -⟩⟩ := containment?_cases hk
      · exact hp
      · cases hds
    have hwords : Containment.encodedWords { k with polarity := .negated } = k.encodedWords := rfl
    dsimp only [Option.map_some]
    rw [hwords, hplain]
    split
    · simp
    · split
      · simp [Containment.node, Polarity.node]
      · simp

theorem degrade_not_singleton (f : Filter) : (not [f]).degrade = not [f] := by
  refine degrade_of_containment?_eq_none ?_
  rw [containment?, triple?_singleton]
  simp

theorem stable_node {p : Polarity} {t : Triple}
    (h : (p.node (ofTriple t)).degrade = p.node (ofTriple t)) : Stable (p.node (ofTriple t)) := by
  cases p with
  | plain =>
    rw [Polarity.node, Stable]
    exact ⟨h, fun _ => startsWithTarget_ofTriple t⟩
  | negated =>
    rw [Polarity.node, Stable]
    refine ⟨h, fun f hf => absurd ?_ (length_ne_one_of_triple? (triple?_ofTriple t))⟩
    rw [hf]
    rfl

/-- A filter that is stable but for its operator is stable once it is degraded. -/
theorem stable_degrade {f : Filter} (h : f.degrade = f → Stable f) : Stable f.degrade := by
  obtain ⟨p, t, hcontains, hnew⟩ | hsame := degrade_cases f
  · rw [hnew]
    exact stable_node (degrade_contains p hcontains)
  · rw [hsame]
    exact h hsame

theorem stable_not_target {cs : List Filter} (hstart : startsWithTarget cs = true)
    (hdegrade : (not cs).degrade = not cs) : Stable (not cs) := by
  rw [Stable]
  refine ⟨hdegrade, ?_⟩
  rintro f rfl
  match f, hstart with
  | target _, _ => rfl

theorem stable_fold_not_target {cs : List Filter} (hstart : startsWithTarget cs = true) :
    Stable (not cs).fold := by
  rw [fold_not_target cs hstart]
  exact stable_degrade (stable_not_target hstart)

/-! ## Merging and grouping -/

theorem stable_of_isKept {f : Filter} (h : isKept f = true) : Stable f := by
  match f, h with
  | raw _, _ | target _, _ | operator _, _ | argument _, _ | string _, _ => simp [Stable]
  | group [], _ | group (_ :: _ :: _), _ => simp [Stable]
  | not cs, h =>
    simp only [isKept, Bool.and_eq_true, Bool.not_eq_true', bne_iff_ne] at h
    rw [Stable]
    refine ⟨?_, fun f hf => absurd (by rw [hf]; rfl) h.2⟩
    exact degrade_of_containment?_eq_none (by simp [containment?, h.1])

theorem stable_mergedParts {c : Connective} {fs : List Filter} (hfs : ∀ f ∈ fs, Stable f) :
    ∀ f ∈ mergedParts c fs, Stable f := by
  intro f hf
  rcases List.mem_append.1 hf with hf | hf
  · obtain ⟨g, hg, hf⟩ := List.mem_flatMap.1 (List.mem_filter.1 hf).1
    obtain ⟨gs, hexposed, hmem⟩ | ⟨rfl, -⟩ := mem_inlined hf
    · exact ((hfs g hg).of_exposed? hexposed).2 f hmem
    · exact hfs f hg
  · obtain ⟨key, hkey, rfl⟩ := List.mem_map.1 hf
    have hwords := Containment.joinable_wordsOf mergesUnder_of_mem_filterMap hkey
    have hdegrade := degrade_node c key hwords
    rw [← Containment.mergeKey_eq] at hdegrade
    obtain ⟨t, ht⟩ := exists_mergeKey_eq c ((fs.flatMap (inlined c)).filterMap (mergeable? c)) key
    rw [ht] at hdegrade ⊢
    exact stable_node hdegrade

/-- Of stable filters, none that is inlined holds a part of the same connective: its own
connective has been merged. -/
theorem unlike_of_mem_flatMap_inlined {c : Connective} {fs : List Filter}
    (hfs : ∀ f ∈ fs, Stable f) : ∀ f ∈ fs.flatMap (inlined c), Unlike c f := by
  intro f hf
  obtain ⟨g, hg, hf⟩ := List.mem_flatMap.1 hf
  obtain ⟨gs, hexposed, hmem⟩ | ⟨rfl, hunlike⟩ := mem_inlined hf
  · exact ((hfs g hg).of_exposed? hexposed).1.unlike f hmem
  · exact hunlike

theorem stable_merge {c : Connective} {fs : List Filter} (hfs : ∀ f ∈ fs, Stable f) :
    Stable (merge c fs) := by
  have hparts := stable_mergedParts (c := c) hfs
  rw [merge_eq]
  by_cases hlen : (mergedParts c fs).length = 1
  · obtain ⟨f, hf⟩ := List.length_eq_one_iff.1 hlen
    rw [hf] at hparts ⊢
    exact hparts f List.mem_cons_self
  · rw [collapse_of_length_ne_one hlen, stable_join]
    exact ⟨hlen, merged_mergedParts (unlike_of_mem_flatMap_inlined hfs), hparts⟩

theorem stable_parenthesized {f : Filter} (hf : Stable f) : Stable f.parenthesized := by
  unfold parenthesized
  split
  next c h =>
    rw [Stable]
    exact ⟨by simp [h], hf⟩
  next => exact hf

/-! ## Negating -/

theorem stable_not_of_isKept {f : Filter} (h : isKept f = true) : Stable (not [f]) := by
  rw [Stable]
  refine ⟨degrade_not_singleton f, ?_⟩
  rintro g hg
  rwa [← List.singleton_inj.1 hg]

/-- A stable condition, denied, is stable: either it starts with its target, or it has
several children and is no negation that folding looks into. -/
theorem Stable.not_of_condition {cs : List Filter} (h : Stable (condition cs)) :
    Stable (not cs) := by
  rw [Stable] at h
  cases hstart : startsWithTarget cs with
  | true => exact stable_not_target hstart ((degrade_not_iff hstart).2 h.1)
  | false =>
    have hlen : cs.length ≠ 1 := fun hlen => by
      rw [h.2 hlen] at hstart
      cases hstart
    exact stable_of_isKept (by simp [isKept, hstart, hlen])

theorem Stable.negate_not {cs : List Filter} (h : Stable (not cs)) : Stable (not cs).negate := by
  rw [Stable] at h
  cases hstart : startsWithTarget cs with
  | true =>
    have hnegate : (not cs).negate = condition cs := by simp [negate, hstart]
    rw [hnegate, Stable]
    exact ⟨(degrade_not_iff hstart).1 h.1, fun _ => hstart⟩
  | false =>
    by_cases hlen : cs.length = 1
    · obtain ⟨f, rfl⟩ := List.length_eq_one_iff.1 hlen
      have hnegate : (not [f]).negate = f := by simp [negate, hstart]
      rw [hnegate]
      exact stable_of_isKept (h.2 f rfl)
    · have hkept : isKept (not cs) = true := by simp [isKept, hstart, hlen]
      rw [negate_of_isKept hkept]
      exact stable_not_of_isKept hkept

theorem Stable.negate {f : Filter} (hf : Stable f) (h : f.exposed? = none) : Stable f.negate := by
  match f, hf, h with
  | condition cs, hf, _ => exact hf.not_of_condition
  | not cs, hf, _ => exact hf.negate_not
  | group [f], hf, h =>
    -- The group of a connective is exposed.
    rw [Stable] at hf
    rw [exposed?] at h
    rw [h] at hf
    cases hf.1
  | group [], _, _ | group (_ :: _ :: _), _, _ | raw _, _, _ | target _, _, _
  | operator _, _, _ | argument _, _, _ | string _, _, _ => exact stable_not_of_isKept rfl

/-- The negation of a stable filter folds to a stable one.  The induction is on the height,
since De Morgan's laws go on with the parts of a connective. -/
theorem stable_foldNegation (f : Filter) (hf : Stable f) : Stable (foldNegation f) := by
  induction hn : f.height using Nat.strongRecOn generalizing f with
  | ind n ih =>
    subst hn
    unfold foldNegation
    split
    next c items hexposed =>
      refine stable_parenthesized (stable_merge fun g hg => ?_)
      obtain ⟨i, hi, rfl⟩ := List.mem_map.1 hg
      have hstable := (hf.of_exposed? hexposed).2 i hi
      have hlow : i.height < f.height :=
        Nat.lt_of_le_of_lt (height_le_tallest hi) (height_lt_of_mem_exposed? hexposed)
      have honce : Stable (not [i]).fold := by
        cases hstart : startsWithTarget [i] with
        | true => exact stable_fold_not_target hstart
        | false =>
          rw [fold_not_singleton i hstart, hstable.fold_eq]
          exact ih i.height hlow i hstable rfl
      rwa [honce.fold_eq]
    next hexposed => exact hf.negate hexposed

/-! ## Folding -/

mutual

/-- Whether every condition of a filter has a target and an operator among its children.
Of what stands inside a condition, or in a group or a negation without exactly one child,
nothing is asked. -/
def hasTriples : Filter → Bool
  | and cs | or cs => allHaveTriples cs
  | group [f] | not [f] => hasTriples f
  | condition cs => (triple? cs).isSome
  | _ => true

/-- Whether this is so for every filter of a list. -/
def allHaveTriples : List Filter → Bool
  | [] => true
  | f :: fs => hasTriples f && allHaveTriples fs

end

mutual

theorem stable_fold : ∀ f : Filter, hasTriples f = true → Stable f.fold
  | and fs, h => by
    rw [hasTriples] at h
    rw [fold_and]
    exact stable_merge (allStable_iff.1 (allStable_map_fold fs h))
  | or fs, h => by
    rw [hasTriples] at h
    rw [fold_or]
    exact stable_merge (allStable_iff.1 (allStable_map_fold fs h))
  | group [f], h => by
    rw [hasTriples] at h
    rw [fold_group_singleton]
    exact stable_parenthesized (stable_fold f h)
  | condition cs, h => by
    rw [hasTriples] at h
    obtain ⟨t, ht⟩ := Option.isSome_iff_exists.1 h
    rw [fold_condition]
    refine stable_degrade fun hsame => ?_
    rw [Stable]
    exact ⟨hsame, fun hlen => absurd hlen (length_ne_one_of_triple? ht)⟩
  | not [f], h => by
    rw [hasTriples] at h
    cases hstart : startsWithTarget [f] with
    | true => exact stable_fold_not_target hstart
    | false =>
      rw [fold_not_singleton f hstart]
      exact stable_foldNegation f.fold (stable_fold f h)
  | not [], _ => by rw [fold_of_isKept rfl]; exact stable_of_isKept rfl
  | not (f :: g :: cs), _ => by
    cases hstart : startsWithTarget (f :: g :: cs) with
    | true => exact stable_fold_not_target hstart
    | false =>
      have hkept : isKept (not (f :: g :: cs)) = true := by simp [isKept, hstart]
      rw [fold_of_isKept hkept]
      exact stable_of_isKept hkept
  | group [], _ | group (_ :: _ :: _), _ | raw _, _ | target _, _ | operator _, _ | argument _, _
  | string _, _ => by rw [fold_of_isKept rfl]; exact stable_of_isKept rfl

theorem allStable_map_fold :
    ∀ fs : List Filter, allHaveTriples fs = true → AllStable (fs.map fold)
  | [], _ => by rw [List.map_nil, AllStable]; trivial
  | f :: fs, h => by
    rw [allHaveTriples, Bool.and_eq_true] at h
    rw [List.map_cons, AllStable]
    exact ⟨stable_fold f h.1, allStable_map_fold fs h.2⟩

end

/-- Folding is idempotent on every filter whose conditions have a target and an operator,
however malformed it is otherwise. -/
theorem fold_fold {f : Filter} (hf : f.hasTriples = true) : f.fold.fold = f.fold :=
  (stable_fold f hf).fold_eq

/-- The negation of a connective with parts of every malformed sort: connectives, groups and
negations with no child or too many, a lone part of a condition, conditions whose operator
comes first, and words with commas, repetitions and a backslash at the end. -/
def ragged : Filter :=
  not [or [and [], and [raw "r"], group [raw "a", raw "b"], target "t", not [],
    not [not [raw "s"], raw "q"],
    condition [operator "contains_any", target "a", argument (string "x\\,y")],
    condition [operator "is", argument (string "z"), target "b"],
    condition [target "a", operator "contains_any", argument (string "b\\,c,a,b\\,c")],
    condition [target "a", operator "contains", argument (string "u,v\\")],
    not [group [and [condition [target "a", operator "contains", argument (string "m,n")],
      raw "w"]]]]]

theorem fold_fold_ragged : ragged.hasTriples = true ∧ ragged.fold.fold = ragged.fold :=
  ⟨by decide, fold_fold (by decide)⟩

end StreamFilter.Filter
