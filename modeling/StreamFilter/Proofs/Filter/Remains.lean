import StreamFilter.Proofs.Filter.Fold
set_option autoImplicit false

/-!
# What folding leaves as it is

Folding does not look into groups and negations that have another number of children than
one, and a misread condition comes out of it as such a negation.  `Filter.remains` lists
these parts of a filter.  They are the same before and after
(`Filter.keepsRemains_of_regular`), so all else in a folded filter is made of what folding
understands.
-/

namespace StreamFilter.Filter

mutual

/-- The parts of a filter that folding leaves as they are: groups and negations that do not
have one child, and misread conditions as the negations that folding makes of them. -/
@[simp] def remains (negated : Bool) (parent : Option Connective) : Filter → List Filter
  | and cs => remainsAll negated (some .and) cs
  | or cs => remainsAll negated (some .or) cs
  | group [f] => remains negated parent f
  | group cs => [group cs]
  | not [f] => remains true none f
  | not cs => if startsWithTarget cs then [] else [not cs]
  | condition cs =>
    if negated && !startsWithTarget cs && !rewritten parent cs then [not cs] else []
  | raw _ | target _ | operator _ | argument _ | string _ => []

/-- These parts of the filters of a list. -/
@[simp] def remainsAll (negated : Bool) (parent : Option Connective) : List Filter → List Filter
  | [] => []
  | f :: fs => remains negated parent f ++ remainsAll negated parent fs

end

theorem remainsAll_eq (negated : Bool) (parent : Option Connective) (fs : List Filter) :
    remainsAll negated parent fs = fs.flatMap (remains negated parent) := by
  induction fs with
  | nil => rfl
  | cons f fs ih => rw [remainsAll, ih, List.flatMap_cons]

variable {negated : Bool} {parent : Option Connective}

theorem remains_join (c : Connective) (fs : List Filter) :
    (c.join fs).remains negated parent = fs.flatMap (remains negated (some c)) := by
  cases c <;> rw [Connective.join, remains, remainsAll_eq]

theorem remains_of_exposed? {f : Filter} {c : Connective} {fs : List Filter}
    (h : f.exposed? = some (c, fs)) :
    f.remains negated parent = fs.flatMap (remains negated (some c)) := by
  rcases exposed?_cases h with rfl | rfl
  · exact remains_join c fs
  · rw [remains, remains_join]

theorem remains_parenthesized (f : Filter) :
    f.parenthesized.remains negated parent = f.remains negated parent := by
  unfold parenthesized
  split
  · rw [remains]
  · rfl

/-! ## Conditions -/

theorem remains_not_target {cs : List Filter} (h : startsWithTarget cs = true) :
    (not cs).remains negated parent = [] := by
  match cs, h with
  | [target _], _ => rw [remains, remains]
  | target _ :: _ :: _, _ => simp [startsWithTarget]

theorem remains_not_of_length {cs : List Filter} (h : cs.length ≠ 1)
    (hstart : startsWithTarget cs = false) : (not cs).remains negated parent = [not cs] := by
  match cs, h with
  | [], _ => simp [startsWithTarget]
  | _ :: _ :: _, _ => simp [hstart]

theorem remains_condition_target {cs : List Filter} (h : startsWithTarget cs = true) :
    (condition cs).remains negated parent = [] := by
  simp [h]

theorem remains_node (p : Polarity) (t : Triple) :
    (p.node (ofTriple t)).remains negated parent = [] := by
  cases p with
  | plain => exact remains_condition_target (startsWithTarget_ofTriple t)
  | negated => exact remains_not_target (startsWithTarget_ofTriple t)

/-- A condition that is written anew leaves nothing. -/
theorem remains_of_mergeable? {c : Connective} {f : Filter} {k : Containment}
    (h : mergeable? c f = some k) : f.remains negated (some c) = [] := by
  obtain ⟨hk, hmerges⟩ := mergeable?_eq_some.1 h
  obtain ⟨-, ⟨-, cs, rfl, -⟩ | ⟨-, cs, rfl, hstart, -⟩⟩ := containment?_cases hk
  · have hrewritten : rewritten (some c) cs = true := by simp [rewritten, hk, hmerges]
    simp [hrewritten]
  · exact remains_not_target hstart

/-- What stands below a connective matters for a condition only, so where it does not
matter for how folding takes the filter, the same parts remain. -/
theorem remains_congr : ∀ (f : Filter) {p q : Option Connective},
    f.asFolded negated p = f.asFolded negated q → f.remains negated p = f.remains negated q
  | group [f], p, q, h => by
    rw [asFolded, asFolded] at h
    rw [remains, remains]
    exact remains_congr f (List.singleton_inj.1 (group.inj h))
  | condition cs, p, q, h => by
    rw [asFolded, asFolded] at h
    rw [remains, remains]
    split at h
    next hp =>
      split at h
      next hq => rw [if_pos hp, if_pos hq]
      next => cases h
    next hp =>
      split at h
      next => cases h
      next hq => rw [if_neg hp, if_neg hq]
  | and _, _, _, _ | or _, _, _, _ | group [], _, _, _ | group (_ :: _ :: _), _, _, _
  | not [], _, _, _ | not [_], _, _, _ | not (_ :: _ :: _), _, _, _ | raw _, _, _, _
  | target _, _, _, _ | operator _, _, _, _ | argument _, _, _, _ | string _, _, _, _ => by
    unfold remains
    rfl

/-- What folding keeps remains below every connective and negation. -/
theorem remains_of_isKept {f : Filter} (h : isKept f = true) :
    f.remains negated parent = f.remains true none := by
  match f, h with
  | group [], _ | group (_ :: _ :: _), _ | not [], _ | not [_], _ | not (_ :: _ :: _), _ | raw _, _
  | target _, _ | operator _, _ | argument _, _ | string _, _ =>
    unfold remains
    rfl

/-! ## Merging and negating -/

theorem flatMap_remains_inlined (c : Connective) (f : Filter) :
    (inlined c f).flatMap (remains negated (some c)) = f.remains negated (some c) := by
  unfold inlined
  split
  next d cs hexposed =>
    split
    next hd =>
      subst hd
      exact (remains_of_exposed? hexposed).symm
    next => exact List.flatMap_singleton _ _
  next => exact List.flatMap_singleton _ _

theorem mem_remains_mergedParts {c : Connective} {fs : List Filter} {g : Filter} :
    g ∈ (mergedParts c fs).flatMap (remains negated (some c)) ↔
      g ∈ fs.flatMap (remains negated (some c)) := by
  have hflat : fs.flatMap (remains negated (some c)) =
      (fs.flatMap (inlined c)).flatMap (remains negated (some c)) := by
    rw [List.flatMap_assoc]
    simp only [flatMap_remains_inlined]
  rw [hflat, List.mem_flatMap, List.mem_flatMap]
  constructor
  · rintro ⟨f, hf, hg⟩
    obtain ⟨hf, -⟩ | ⟨p, t, rfl⟩ := mem_mergedParts hf
    · exact ⟨f, hf, hg⟩
    · rw [remains_node] at hg
      cases hg
  · rintro ⟨f, hf, hg⟩
    cases hmerges : mergeable? c f with
    | some k =>
      rw [remains_of_mergeable? hmerges] at hg
      cases hg
    | none =>
      exact ⟨f, List.mem_append_left _ (List.mem_filter.2 ⟨hf, by simp [hmerges]⟩), hg⟩

theorem mem_remains_merge {c : Connective} {fs : List Filter} (hfs : ∀ f ∈ fs, Regular true f)
    (hlen : 2 ≤ fs.length) {g : Filter} :
    g ∈ (merge c fs).remains negated parent ↔ g ∈ fs.flatMap (remains negated (some c)) := by
  rw [← mem_remains_mergedParts, merge_eq]
  unfold collapse
  split
  next f hone =>
    -- the only part is a condition that was written anew
    obtain htwo | ⟨p, t, hnode⟩ := two_le_length_mergedParts (c := c) hfs hlen
    · rw [hone] at htwo
      simp at htwo
    · rw [hone] at hnode
      obtain rfl := List.singleton_inj.1 hnode
      rw [hone, List.flatMap_singleton, remains_node, remains_node]
  next => rw [remains_join]

theorem remains_negate {f : Filter} (hf : Settled f) (hreg : Regular true f)
    (hexposed : f.exposed? = none) : f.negate.remains negated parent = f.remains true none := by
  obtain ⟨cs, rfl, hneg, hstart⟩ | ⟨cs, rfl, hneg, hstart, hlen, hold⟩ | ⟨cs, rfl, hneg, hstart⟩ |
    ⟨g, rfl, hneg, hkept⟩ | ⟨hneg, -⟩ := negate_cases hf hreg hexposed
  · rw [hneg, remains_not_target hstart, remains_condition_target hstart]
  · rw [hneg, remains_not_of_length hlen hstart]
    simp [hstart, hold]
  · rw [hneg, remains_not_target hstart, remains_condition_target hstart]
  · rw [hneg, remains, remains_of_isKept hkept]
  · rw [hneg, remains]

/-! ## Folding -/

/-- The same parts remain of a filter and of the folded filter. -/
def KeepsRemains (f : Filter) : Prop :=
  ∀ negated parent g, g ∈ f.fold.remains negated parent ↔ g ∈ f.remains negated parent

theorem keepsRemains_of_isKept {f : Filter} (h : isKept f = true) : KeepsRemains f := by
  intro negated parent g
  rw [fold_of_isKept h]

theorem keepsRemains_join {c : Connective} {fs : List Filter} (hreg : Regular true (c.join fs))
    (hfs : ∀ f ∈ fs, KeepsRemains f) : KeepsRemains (c.join fs) := by
  obtain ⟨hlen, hregs⟩ := regular_join.1 hreg
  intro negated parent g
  rw [fold_join, mem_remains_merge, remains_join, List.flatMap_map, List.mem_flatMap,
    List.mem_flatMap]
  · exact exists_congr fun f => and_congr_right fun hf => hfs f hf _ _ g
  · intro f hf
    obtain ⟨h, hh, rfl⟩ := List.mem_map.1 hf
    exact (folds_of_regular h (hregs h hh)).regular
  · rw [List.length_map]
    exact hlen rfl

theorem keepsRemains_condition (cs : List Filter) : KeepsRemains (condition cs) := by
  intro negated parent g
  rw [fold_condition]
  obtain ⟨⟨p, t, hnew⟩, hrewritten⟩ | ⟨hsame, -⟩ := degrade_condition_cases cs
  · rw [hnew, remains_node, remains]
    simp [hrewritten]
  · rw [hsame]

theorem keepsRemains_not_target {cs : List Filter} (h : startsWithTarget cs = true) :
    KeepsRemains (not cs) := by
  intro negated parent g
  rw [fold_not_target cs h, remains_not_target h]
  obtain ⟨p, t, -, hnew⟩ | hsame := degrade_cases (not cs)
  · rw [hnew, remains_node]
  · rw [hsame, remains_not_target h]

/-- De Morgan's laws on a folded filter, whose negated parts are folded twice. -/
theorem keepsRemains_not_exposed {f : Filter} (hstart : startsWithTarget [f] = false)
    (hreg : Regular true f) (hf : KeepsRemains f) {c : Connective} {fs : List Filter}
    (hexposed : f.fold.exposed? = some (c, fs))
    (hfs : ∀ g ∈ fs, KeepsRemains (not [g]) ∧ KeepsRemains (not [g]).fold) :
    KeepsRemains (not [f]) := by
  have hfolds := folds_of_regular f hreg
  obtain ⟨hlen, hregs⟩ := hfolds.regular.of_exposed? hexposed
  intro negated parent g
  have hnots : ∀ i ∈ fs.map fun i => fold (fold (not [i])), Regular true i := by
    intro i hi
    obtain ⟨h, hh, rfl⟩ := List.mem_map.1 hi
    have hnot : Regular true (not [h]) := by
      rw [Regular]
      exact hregs h hh
    exact (folds_of_regular _ (folds_of_regular _ hnot).regular).regular
  have hpart : ∀ i ∈ fs, g ∈ (fold (fold (not [i]))).remains negated (some c.dual) ↔
      g ∈ i.remains true (some c) := by
    intro i hi
    rw [(hfs i hi).2, (hfs i hi).1, remains,
      remains_congr i (hfolds.settled.of_exposed? hexposed i hi).2]
  rw [fold_not_singleton f hstart, foldNegation, hexposed, remains_parenthesized,
    mem_remains_merge hnots (by rw [List.length_map]; exact hlen rfl), remains, ← hf,
    remains_of_exposed? hexposed, List.flatMap_map, List.mem_flatMap, List.mem_flatMap]
  exact exists_congr fun i => and_congr_right fun hi => hpart i hi

theorem keepsRemains_not_unexposed {f : Filter} (hstart : startsWithTarget [f] = false)
    (hreg : Regular true f) (hf : KeepsRemains f) (hexposed : f.fold.exposed? = none) :
    KeepsRemains (not [f]) := by
  have hfolds := folds_of_regular f hreg
  intro negated parent g
  rw [fold_not_singleton f hstart, foldNegation, hexposed,
    remains_negate hfolds.settled hfolds.regular hexposed, hf, remains]

theorem keepsRemains_group {f : Filter} (hf : KeepsRemains f) : KeepsRemains (group [f]) := by
  intro negated parent g
  rw [fold_group_singleton, remains_parenthesized, hf, remains]

/-- Folding a regular filter leaves the same parts as they are. -/
theorem keepsRemains_of_regular (f : Filter) (hf : Regular true f) : KeepsRemains f := by
  refine fold_induction (motive := KeepsRemains) ?_ ?_ ?_ ?_ ?_ ?_ ?_ ?_ f hf
  · exact fun hreg _ => (folds_of_regular _ hreg).regular
  · exact fun _ => keepsRemains_of_isKept
  · exact keepsRemains_join
  · exact keepsRemains_group
  · exact fun _ => keepsRemains_condition _
  · exact keepsRemains_not_target
  · exact keepsRemains_not_exposed
  · exact keepsRemains_not_unexposed

end StreamFilter.Filter
