import StreamFilter.Filter.Fold
import StreamFilter.Proofs.Filter.Reading
set_option autoImplicit false

/-!
# What folding keeps

Folding recognises a negated triple by its first child.  So a condition whose first child
is not its target changes its meaning when folding turns it into a negation: what was
read as a triple is then read through the first child, as a group would be.
`Filter.asFolded` makes that change on the unfolded filter.  The main result,
`Filter.folds_of_regular`, is that every reading gives a folded filter the value of the
unfolded one with that change made; where every condition starts with its target there is
nothing to change.
-/

namespace StreamFilter.Filter

/-- Whether folding writes a condition anew, with its target first: a list of one word
becomes a plain `contains`, and below a connective conditions are merged. -/
def rewritten (parent : Option Connective) (children : List Filter) : Bool :=
  match (condition children).containment? with
  | some k => (k.operator != "contains" && k.encodedWords.length == 1) ||
      parent.any fun c => k.mergesUnder c
  | none => false

mutual

/-- The filter as folding takes it.  Below a negation, a condition that does not start
with its target and is not written anew is taken for the group of its children. -/
def asFolded (negated : Bool) (parent : Option Connective) : Filter → Filter
  | and cs => and (asFoldedAll negated (some .and) cs)
  | or cs => or (asFoldedAll negated (some .or) cs)
  | group [f] => group [asFolded negated parent f]
  | not [f] => not [asFolded true none f]
  | condition cs =>
    if negated && !startsWithTarget cs && !rewritten parent cs then group cs else condition cs
  | f => f

/-- The filters below a connective as folding takes them. -/
def asFoldedAll (negated : Bool) (parent : Option Connective) : List Filter → List Filter
  | [] => []
  | f :: fs => asFolded negated parent f :: asFoldedAll negated parent fs

end

theorem asFoldedAll_eq (negated : Bool) (parent : Option Connective) (fs : List Filter) :
    asFoldedAll negated parent fs = fs.map (asFolded negated parent) := by
  induction fs with
  | nil => rfl
  | cons f fs ih => rw [asFoldedAll, ih, List.map_cons]

/-- Whether folding keeps a filter that is not negated as it is, and `negate` wraps it. -/
def isKept : Filter → Bool
  | and _ | or _ | condition _ | group [_] => false
  | not cs => !startsWithTarget cs && cs.length != 1
  | _ => true

mutual

/-- The shapes for which folding is described here: in the part that is folded, each
condition starts with its target.  Else, in the strict case, it has several children, and
each connective has two parts or more. -/
def Regular (strict : Bool) : Filter → Prop
  | and cs => (strict = true → 2 ≤ cs.length) ∧ AllRegular strict cs
  | or cs => (strict = true → 2 ≤ cs.length) ∧ AllRegular strict cs
  | group [f] => Regular strict f
  | not [f] => Regular strict f
  | condition cs => startsWithTarget cs = true ∨ strict = true ∧ cs.length ≠ 1
  | _ => True

/-- Every filter of a list has such a shape. -/
def AllRegular (strict : Bool) : List Filter → Prop
  | [] => True
  | f :: fs => Regular strict f ∧ AllRegular strict fs

end

theorem allRegular_iff {strict : Bool} {fs : List Filter} :
    AllRegular strict fs ↔ ∀ f ∈ fs, Regular strict f := by
  induction fs with
  | nil => simp [AllRegular]
  | cons f fs ih => simp [AllRegular, ih]

mutual

/-- What is known of a folded filter.  A condition that does not start with its target was
not written anew, neither for itself nor for the connective above it; only connectives
stand in groups; and below a negation stands what folding keeps. -/
def Settled : Filter → Prop
  | and cs => AllSettled .and cs
  | or cs => AllSettled .or cs
  | group [f] => f.connective?.isSome = true ∧ Settled f
  | not [f] => isKept f = true
  | condition cs => startsWithTarget cs = true ∨ rewritten none cs = false
  | _ => True

/-- Every filter below a connective is settled. -/
def AllSettled (c : Connective) : List Filter → Prop
  | [] => True
  | f :: fs =>
    (Settled f ∧ f.asFolded true (some c) = f.asFolded true none) ∧ AllSettled c fs

end

theorem allSettled_iff {c : Connective} {fs : List Filter} :
    AllSettled c fs ↔
      ∀ f ∈ fs, Settled f ∧ f.asFolded true (some c) = f.asFolded true none := by
  induction fs with
  | nil => simp [AllSettled]
  | cons f fs ih => simp [AllSettled, ih]

/-! ## Connectives -/

theorem asFolded_join (negated : Bool) (parent : Option Connective) (c : Connective)
    (fs : List Filter) :
    (c.join fs).asFolded negated parent = c.join (fs.map (asFolded negated (some c))) := by
  cases c <;> simp [Connective.join, asFolded, asFoldedAll_eq]

theorem regular_join {strict : Bool} {c : Connective} {fs : List Filter} :
    Regular strict (c.join fs) ↔
      (strict = true → 2 ≤ fs.length) ∧ ∀ f ∈ fs, Regular strict f := by
  cases c <;> simp [Connective.join, Regular, allRegular_iff]

theorem settled_join {c : Connective} {fs : List Filter} :
    Settled (c.join fs) ↔
      ∀ f ∈ fs, Settled f ∧ f.asFolded true (some c) = f.asFolded true none := by
  cases c <;> simp [Connective.join, Settled, allSettled_iff]

theorem exposed?_cases {f : Filter} {c : Connective} {fs : List Filter}
    (h : f.exposed? = some (c, fs)) : f = c.join fs ∨ f = group [c.join fs] := by
  unfold exposed? at h
  split at h
  · exact .inr (by rw [eq_join_of_connective? h])
  · exact .inl (eq_join_of_connective? h)

theorem Regular.of_exposed? {strict : Bool} {f : Filter} (hf : Regular strict f) {c : Connective}
    {fs : List Filter} (h : f.exposed? = some (c, fs)) :
    (strict = true → 2 ≤ fs.length) ∧ ∀ g ∈ fs, Regular strict g := by
  rcases exposed?_cases h with rfl | rfl
  · exact regular_join.1 hf
  · rw [Regular] at hf
    exact regular_join.1 hf

theorem Settled.of_exposed? {f : Filter} (hf : Settled f) {c : Connective} {fs : List Filter}
    (h : f.exposed? = some (c, fs)) :
    ∀ g ∈ fs, Settled g ∧ g.asFolded true (some c) = g.asFolded true none := by
  rcases exposed?_cases h with rfl | rfl
  · exact settled_join.1 hf
  · rw [Settled] at hf
    exact settled_join.1 hf.2

/-- The value of a connective node, in a group or not, is that of its parts. -/
theorem value_asFolded_of_exposed? (E : Reading) {f : Filter} (hf : Regular E.strict f)
    {c : Connective} {fs : List Filter} (h : f.exposed? = some (c, fs)) (negated : Bool)
    (parent : Option Connective) :
    E.value (f.asFolded negated parent) =
      (E.connective c).value (fun g => E.value (g.asFolded negated (some c))) fs := by
  have hsize : E.strict = true → 2 ≤ (fs.map (asFolded negated (some c))).length := by
    rw [List.length_map]
    exact (hf.of_exposed? h).1
  have hjoin : E.value ((c.join fs).asFolded negated parent) =
      (E.connective c).value (fun g => E.value (g.asFolded negated (some c))) fs := by
    rw [asFolded_join, E.value_join c _ hsize, Connective.value_map]
  rcases exposed?_cases h with rfl | rfl
  · exact hjoin
  · rw [asFolded, E.value_group, hjoin]

/-! ## Filters that do not change -/

theorem asFolded_of_isKept {f : Filter} (h : isKept f = true) (negated : Bool)
    (parent : Option Connective) : f.asFolded negated parent = f := by
  unfold asFolded
  split <;> simp_all [isKept]

theorem settled_of_isKept {f : Filter} (h : isKept f = true) : Settled f := by
  unfold Settled
  split <;> simp_all [isKept]

theorem fold_of_isKept {f : Filter} (h : isKept f = true) : f.fold = f := by
  match f, h with
  | raw _, _ | target _, _ | operator _, _ | argument _, _ | string _, _ => simp
  | group cs, h =>
    refine fold_group cs fun hlen => ?_
    obtain ⟨g, rfl⟩ := List.length_eq_one_iff.1 hlen
    simp [isKept] at h
  | not cs, h =>
    simp only [isKept, Bool.and_eq_true, Bool.not_eq_true', bne_iff_ne] at h
    exact fold_not cs h.1 h.2

theorem asFolded_not_target {cs : List Filter} (h : startsWithTarget cs = true) (negated : Bool)
    (parent : Option Connective) : (not cs).asFolded negated parent = not cs := by
  match cs, h with
  | [target _], _ => simp [asFolded]
  | target _ :: _ :: _, _ => simp [asFolded]

theorem settled_not_target {cs : List Filter} (h : startsWithTarget cs = true) :
    Settled (not cs) := by
  match cs, h with
  | [target _], _ => simp [Settled, isKept]
  | target _ :: _ :: _, _ => simp [Settled]

theorem regular_not_target {strict : Bool} {cs : List Filter} (h : startsWithTarget cs = true) :
    Regular strict (not cs) := by
  match cs, h with
  | [target _], _ => simp [Regular]
  | target _ :: _ :: _, _ => simp [Regular]

theorem asFolded_condition_target {cs : List Filter} (h : startsWithTarget cs = true)
    (negated : Bool) (parent : Option Connective) :
    (condition cs).asFolded negated parent = condition cs := by
  simp [asFolded, h]

/-- A filter of a triple, stated or denied, starts with its target. -/
theorem asFolded_node (p : Polarity) (t : Triple) (negated : Bool) (parent : Option Connective) :
    (p.node (ofTriple t)).asFolded negated parent = p.node (ofTriple t) := by
  cases p with
  | plain => exact asFolded_condition_target (startsWithTarget_ofTriple t) _ _
  | negated => exact asFolded_not_target (startsWithTarget_ofTriple t) _ _

theorem regular_node {strict : Bool} (p : Polarity) (t : Triple) :
    Regular strict (p.node (ofTriple t)) := by
  cases p with
  | plain =>
    rw [Polarity.node, Regular]
    exact .inl (startsWithTarget_ofTriple t)
  | negated => exact regular_not_target (startsWithTarget_ofTriple t)

theorem settled_node (p : Polarity) (t : Triple) : Settled (p.node (ofTriple t)) := by
  cases p with
  | plain =>
    rw [Polarity.node, Settled]
    exact .inl (startsWithTarget_ofTriple t)
  | negated => exact settled_not_target (startsWithTarget_ofTriple t)

/-! ## Merging -/

/-- What merges with others is left as it is below its connective. -/
theorem asFolded_of_mergeable? {c : Connective} {f : Filter} {k : Containment}
    (h : mergeable? c f = some k) (negated : Bool) :
    f.asFolded negated (some c) = f := by
  obtain ⟨hk, hmerges⟩ := mergeable?_eq_some.1 h
  obtain ⟨-, ⟨-, cs, rfl, -⟩ | ⟨-, cs, rfl, hstart, -⟩⟩ := containment?_cases hk
  · have hrewritten : rewritten (some c) cs = true := by simp [rewritten, hk, hmerges]
    simp [asFolded, hrewritten]
  · exact asFolded_not_target hstart _ _

theorem regular_of_mem_inlined {strict : Bool} {c : Connective} {f g : Filter}
    (hf : Regular strict f) (hg : g ∈ inlined c f) : Regular strict g := by
  obtain ⟨gs, hexposed, hg⟩ | ⟨rfl, -⟩ := mem_inlined hg
  · exact (hf.of_exposed? hexposed).2 g hg
  · exact hf

theorem inlined_ne_nil {c : Connective} {f : Filter} (hf : Regular true f) : inlined c f ≠ [] := by
  unfold inlined
  split
  next d cs hexposed =>
    split
    · have hlen := (hf.of_exposed? hexposed).1 rfl
      exact List.ne_nil_of_length_pos (by omega)
    · simp
  next => simp

theorem length_flatMap_inlined {c : Connective} {fs : List Filter}
    (hfs : ∀ f ∈ fs, Regular true f) : fs.length ≤ (fs.flatMap (inlined c)).length := by
  induction fs with
  | nil => simp
  | cons f fs ih =>
    have hf := List.length_pos_iff.2 (inlined_ne_nil (c := c) (hfs f List.mem_cons_self))
    have hrest := ih fun g hg => hfs g (List.mem_cons_of_mem _ hg)
    simp only [List.flatMap_cons, List.length_append, List.length_cons]
    omega

/-- Two regular parts or more are merged into two or more, or into one condition. -/
theorem two_le_length_mergedParts {c : Connective} {fs : List Filter}
    (hfs : ∀ f ∈ fs, Regular true f) (hlen : 2 ≤ fs.length) :
    2 ≤ (mergedParts c fs).length ∨ ∃ p t, mergedParts c fs = [Polarity.node p (ofTriple t)] := by
  have hflat := Nat.le_trans hlen (length_flatMap_inlined (c := c) hfs)
  unfold mergedParts
  dsimp only
  generalize fs.flatMap (inlined c) = flat at hflat
  cases hkeys : Containment.keys (flat.filterMap (mergeable? c)) with
  | nil =>
    -- Without keys nothing merges, and all parts stay.
    refine .inl ?_
    have hnone : ∀ f ∈ flat, (mergeable? c f).isNone = true := by
      intro f hf
      cases hk : mergeable? c f with
      | none => rfl
      | some k =>
        have hmem := Containment.mem_keys_iff.2 ⟨k, List.mem_filterMap.2 ⟨f, hf, hk⟩, rfl⟩
        rw [hkeys] at hmem
        cases hmem
    rw [List.filter_eq_self.2 hnone, List.map_nil, List.append_nil]
    exact hflat
  | cons key keys =>
    cases hothers : flat.filter fun f => (mergeable? c f).isNone with
    | cons f fs =>
      refine .inl ?_
      simp only [List.length_append, List.length_cons, List.length_map]
      omega
    | nil =>
      cases keys with
      | cons _ _ => exact .inl (by simp)
      | nil =>
        obtain ⟨t, ht⟩ := exists_mergeKey_eq c (flat.filterMap (mergeable? c)) key
        exact .inr ⟨key.2, t, by simp [ht]⟩

theorem regular_mergedParts {strict : Bool} {c : Connective} {fs : List Filter}
    (hfs : ∀ f ∈ fs, Regular strict f) : ∀ f ∈ mergedParts c fs, Regular strict f := by
  intro f hf
  obtain ⟨hf, -⟩ | ⟨p, t, rfl⟩ := mem_mergedParts hf
  · obtain ⟨g, hg, hf⟩ := List.mem_flatMap.1 hf
    exact regular_of_mem_inlined (hfs g hg) hf
  · exact regular_node p t

theorem regular_merge {strict : Bool} {c : Connective} {fs : List Filter}
    (hfs : ∀ f ∈ fs, Regular strict f) (hlen : strict = true → 2 ≤ fs.length) :
    Regular strict (merge c fs) := by
  have hparts := regular_mergedParts (c := c) hfs
  rw [merge_eq]
  unfold collapse
  split
  next f hone =>
    rw [hone] at hparts
    exact hparts f List.mem_cons_self
  next hmany =>
    refine regular_join.2 ⟨?_, hparts⟩
    rintro rfl
    obtain htwo | ⟨p, t, hone⟩ := two_le_length_mergedParts (c := c) hfs (hlen rfl)
    · exact htwo
    · exact absurd hone (hmany _)

/-- A folded filter that does not merge with others is taken as it would be alone. -/
theorem Settled.asFolded_some {f : Filter} (hf : Settled f) {c : Connective}
    (hnone : mergeable? c f = none) : f.asFolded true (some c) = f.asFolded true none := by
  match f, hf with
  | condition cs, _ =>
    have hrewritten : rewritten (some c) cs = rewritten none cs := by
      unfold rewritten
      cases hk : (condition cs).containment? with
      | none => rfl
      | some k => simp_all [mergeable?]
    rw [asFolded, asFolded, hrewritten]
  | group [f], hf =>
    rw [Settled] at hf
    obtain ⟨⟨d, fs⟩, hd⟩ := Option.isSome_iff_exists.1 hf.1
    rw [eq_join_of_connective? hd, asFolded, asFolded, asFolded_join, asFolded_join]
  | and _, _ | or _, _ | not [], _ | not [_], _ | not (_ :: _ :: _), _ | raw _, _ | target _, _
  | operator _, _ | argument _, _ | string _, _ | group [], _ | group (_ :: _ :: _), _ =>
    unfold asFolded
    rfl

theorem settled_of_mem_inlined {c : Connective} {f g : Filter} (hf : Settled f)
    (hg : g ∈ inlined c f) (hnone : mergeable? c g = none) :
    Settled g ∧ g.asFolded true (some c) = g.asFolded true none := by
  obtain ⟨gs, hexposed, hg⟩ | ⟨rfl, -⟩ := mem_inlined hg
  · exact hf.of_exposed? hexposed g hg
  · exact ⟨hf, hf.asFolded_some hnone⟩

theorem settled_merge {c : Connective} {fs : List Filter} (hfs : ∀ f ∈ fs, Settled f) :
    Settled (merge c fs) := by
  have hparts : ∀ f ∈ mergedParts c fs,
      Settled f ∧ f.asFolded true (some c) = f.asFolded true none := by
    intro f hf
    obtain ⟨hf, hnone⟩ | ⟨p, t, rfl⟩ := mem_mergedParts hf
    · obtain ⟨g, hg, hf⟩ := List.mem_flatMap.1 hf
      exact settled_of_mem_inlined (hfs g hg) hf hnone
    · exact ⟨settled_node p t, by rw [asFolded_node, asFolded_node]⟩
  rw [merge_eq]
  unfold collapse
  split
  next f hone =>
    rw [hone] at hparts
    exact (hparts f List.mem_cons_self).1
  next => exact settled_join.2 hparts

theorem value_asFolded_inlined (E : Reading) {f : Filter} (hf : Regular E.strict f)
    (c : Connective) (negated : Bool) :
    (E.connective c).value (fun g => E.value (g.asFolded negated (some c))) (inlined c f) =
      E.value (f.asFolded negated (some c)) := by
  unfold inlined
  split
  next d cs hexposed =>
    split
    next hd =>
      subst hd
      exact (value_asFolded_of_exposed? E hf hexposed negated (some d)).symm
    next => exact Connective.value_singleton _ _ _
  next => exact Connective.value_singleton _ _ _

/-- Merging keeps the value of a connective on the filters as folding takes them. -/
theorem value_mergedParts (E : Reading) {c : Connective} {fs : List Filter}
    (hfs : ∀ f ∈ fs, Regular E.strict f) (negated : Bool) :
    (E.connective c).value (fun g => E.value (g.asFolded negated (some c))) (mergedParts c fs) =
      (E.connective c).value (fun g => E.value (g.asFolded negated (some c))) fs := by
  rw [← Connective.value_flatMap fun f hf => value_asFolded_inlined E (hfs f hf) c negated]
  unfold mergedParts
  dsimp only
  generalize fs.flatMap (inlined c) = flat
  have hnew : ∀ key, E.value ((Containment.mergeKey c (flat.filterMap (mergeable? c)) key).asFolded
      negated (some c)) = E.value (Containment.mergeKey c (flat.filterMap (mergeable? c)) key) := by
    intro key
    obtain ⟨t, ht⟩ := exists_mergeKey_eq c (flat.filterMap (mergeable? c)) key
    rw [ht, asFolded_node]
  have hold : ∀ f ∈ flat, ∀ k, mergeable? c f = some k →
      E.value (f.asFolded negated (some c)) = E.polarValue k.polarity k.triple := by
    intro f _ k hk
    rw [asFolded_of_mergeable? hk, E.value_of_containment? (mergeable?_eq_some.1 hk).1]
  have hmerging : ∀ k ∈ flat.filterMap (mergeable? c), k.mergesUnder c = true :=
    mergesUnder_of_mem_filterMap
  have hvalues := E.value_mergeKeys hmerging
  refine Connective.value_congr ⟨?_, ?_⟩
  · rintro ⟨f, hf, hvalue⟩
    rcases List.mem_append.1 hf with hf | hf
    · exact ⟨f, (List.mem_filter.1 hf).1, hvalue⟩
    · obtain ⟨key, hkey, rfl⟩ := List.mem_map.1 hf
      rw [hnew] at hvalue
      have hsettled := (E.connective c).value_eq_settling_iff.2 ⟨_, hf, hvalue⟩
      rw [hvalues, Connective.value_eq_settling_iff] at hsettled
      obtain ⟨k, hk, hvalue⟩ := hsettled
      obtain ⟨g, hg, hk⟩ := List.mem_filterMap.1 hk
      exact ⟨g, hg, by rw [hold g hg k hk, hvalue]⟩
  · rintro ⟨f, hf, hvalue⟩
    cases hk : mergeable? c f with
    | none => exact ⟨f, List.mem_append_left _ (List.mem_filter.2 ⟨hf, by simp [hk]⟩), hvalue⟩
    | some k =>
      rw [hold f hf k hk] at hvalue
      have hsettled : (E.connective c).value (fun k => E.polarValue k.polarity k.triple)
          (flat.filterMap (mergeable? c)) = (E.connective c).settling :=
        (Connective.value_eq_settling_iff _).2 ⟨k, List.mem_filterMap.2 ⟨f, hf, hk⟩, hvalue⟩
      rw [← hvalues, Connective.value_eq_settling_iff] at hsettled
      obtain ⟨g, hg, hvalue⟩ := hsettled
      obtain ⟨key, hkey, rfl⟩ := List.mem_map.1 hg
      exact ⟨_, List.mem_append_right _ hg, by rw [hnew, hvalue]⟩

mutual

/-- Where each condition starts with its target there is nothing to change. -/
theorem asFolded_of_regular : ∀ (f : Filter), Regular false f →
    ∀ (negated : Bool) (parent : Option Connective), f.asFolded negated parent = f
  | and fs, h, _, _ => by
    rw [Regular] at h
    rw [asFolded, asFoldedAll_of_allRegular fs h.2]
  | or fs, h, _, _ => by
    rw [Regular] at h
    rw [asFolded, asFoldedAll_of_allRegular fs h.2]
  | group [f], h, _, _ => by
    rw [Regular] at h
    rw [asFolded, asFolded_of_regular f h]
  | not [f], h, _, _ => by
    rw [Regular] at h
    rw [asFolded, asFolded_of_regular f h]
  | condition cs, h, _, _ => by
    rw [Regular] at h
    exact asFolded_condition_target (by simpa using h) _ _
  | group [], _, _, _ | group (_ :: _ :: _), _, _, _ | not [], _, _, _ | not (_ :: _ :: _), _, _, _
  | raw _, _, _, _ | target _, _, _, _ | operator _, _, _, _ | argument _, _, _, _
  | string _, _, _, _ => by unfold asFolded; rfl

theorem asFoldedAll_of_allRegular : ∀ (fs : List Filter), AllRegular false fs →
    ∀ (negated : Bool) (parent : Option Connective), asFoldedAll negated parent fs = fs
  | [], _, _, _ => rfl
  | f :: fs, h, _, _ => by
    rw [AllRegular] at h
    rw [asFoldedAll, asFolded_of_regular f h.1, asFoldedAll_of_allRegular fs h.2]

end

theorem value_merge (E : Reading) {c : Connective} {fs : List Filter}
    (hfs : ∀ f ∈ fs, Regular E.strict f) (hlen : E.strict = true → 2 ≤ fs.length) (negated : Bool)
    (parent : Option Connective) :
    E.value ((merge c fs).asFolded negated parent) =
      (E.connective c).value (fun g => E.value (g.asFolded negated (some c))) fs := by
  rw [← value_mergedParts E hfs, merge_eq]
  unfold collapse
  split
  next f hone =>
    rw [hone, Connective.value_singleton]
    -- Alone, the part has another connective above it, or none.
    have hpart : ∀ q, f.asFolded negated q = f.asFolded negated (some c) := by
      cases hstrict : E.strict with
      | false =>
        rw [hstrict] at hfs
        have hf := regular_mergedParts hfs f (by rw [hone]; exact List.mem_cons_self)
        intro q
        rw [asFolded_of_regular f hf, asFolded_of_regular f hf]
      | true =>
        rw [hstrict] at hfs
        obtain htwo | ⟨p, t, hnode⟩ := two_le_length_mergedParts (c := c) hfs (hlen hstrict)
        · rw [hone] at htwo
          simp at htwo
        · rw [hone] at hnode
          obtain rfl := List.singleton_inj.1 hnode
          intro q
          rw [asFolded_node, asFolded_node]
    rw [hpart]
  next hmany =>
    have hsize : E.strict = true → 2 ≤ (mergedParts c fs).length := by
      intro hstrict
      rw [hstrict] at hfs
      obtain htwo | ⟨p, t, hone⟩ := two_le_length_mergedParts (c := c) hfs (hlen hstrict)
      · exact htwo
      · exact absurd hone (hmany _)
    rw [asFolded_join, E.value_join c _ (by simpa using hsize), Connective.value_map]

/-! ## Groups, negations and conditions -/

theorem value_asFolded_not (E : Reading) (f : Filter) (negated : Bool)
    (parent : Option Connective) :
    E.value ((not [f]).asFolded negated parent) = E.negation (E.value (f.asFolded true none)) := by
  rw [asFolded, E.value_not_singleton]

theorem value_asFolded_parenthesized (E : Reading) (f : Filter) (negated : Bool)
    (parent : Option Connective) :
    E.value (f.parenthesized.asFolded negated parent) = E.value (f.asFolded negated parent) := by
  unfold parenthesized
  split
  · rw [asFolded, E.value_group]
  · rfl

theorem settled_parenthesized {f : Filter} (hf : Settled f) : Settled f.parenthesized := by
  unfold parenthesized
  split
  next c h =>
    rw [Settled]
    exact ⟨by simp [h], hf⟩
  next => exact hf

theorem regular_parenthesized {strict : Bool} {f : Filter} (hf : Regular strict f) :
    Regular strict f.parenthesized := by
  unfold parenthesized
  split
  · rw [Regular]
    exact hf
  · exact hf

theorem asFolded_not_of_length {cs : List Filter} (h : cs.length ≠ 1) (negated : Bool)
    (parent : Option Connective) : (not cs).asFolded negated parent = not cs := by
  match cs, h with
  | [], _ | _ :: _ :: _, _ => unfold asFolded; rfl

theorem settled_not_of_length {cs : List Filter} (h : cs.length ≠ 1) : Settled (not cs) := by
  match cs, h with
  | [], _ | _ :: _ :: _, _ => unfold Settled; trivial

theorem regular_not_of_length {strict : Bool} {cs : List Filter} (h : cs.length ≠ 1) :
    Regular strict (not cs) := by
  match cs, h with
  | [], _ | _ :: _ :: _, _ => unfold Regular; trivial

/-- A settled filter that is no connective, in whatever form, is kept below a negation. -/
theorem Settled.isKept_of_group {cs : List Filter} (hf : Settled (group cs))
    (h : (group cs).exposed? = none) : isKept (group cs) = true := by
  match cs, hf with
  | [], _ | _ :: _ :: _, _ => rfl
  | [f], hf =>
    rw [Settled] at hf
    rw [exposed?] at h
    rw [h] at hf
    exact absurd hf.1 (by simp)

/-- A settled negation that holds no triple loses its `not`, or is kept below another. -/
theorem Settled.negate_not {cs : List Filter} (hf : Settled (not cs))
    (hstart : startsWithTarget cs = false) :
    (∃ g, not cs = not [g] ∧ (not cs).negate = g ∧ isKept g = true) ∨
      ((not cs).negate = not [not cs] ∧ isKept (not cs) = true) := by
  match cs, hf, hstart with
  | [g], hf, hstart =>
    rw [Settled] at hf
    exact .inl ⟨g, rfl, by simp [negate, hstart], hf⟩
  | [], _, _ => exact .inr ⟨rfl, rfl⟩
  | _ :: _ :: _, _, hstart => exact .inr ⟨by simp [negate, hstart], by simp [isKept, hstart]⟩

/-- What `negate` makes of a settled filter. -/
theorem negate_cases {strict : Bool} {f : Filter} (hf : Settled f) (hreg : Regular strict f)
    (hexposed : f.exposed? = none) :
    (∃ cs, f = condition cs ∧ f.negate = not cs ∧ startsWithTarget cs = true) ∨
    (∃ cs, f = condition cs ∧ f.negate = not cs ∧ startsWithTarget cs = false ∧ cs.length ≠ 1 ∧
      rewritten none cs = false) ∨
    (∃ cs, f = not cs ∧ f.negate = condition cs ∧ startsWithTarget cs = true) ∨
    (∃ g, f = not [g] ∧ f.negate = g ∧ isKept g = true) ∨
    (f.negate = not [f] ∧ isKept f = true) := by
  match f, hf, hexposed with
  | condition cs, hf, _ =>
    rw [Settled] at hf
    rw [Regular] at hreg
    cases hstart : startsWithTarget cs with
    | true => exact .inl ⟨cs, rfl, rfl, hstart⟩
    | false =>
      simp only [hstart, Bool.false_eq_true, false_or] at hf hreg
      exact .inr (.inl ⟨cs, rfl, rfl, hstart, hreg.2, hf⟩)
  | not cs, hf, _ =>
    refine .inr (.inr ?_)
    cases hstart : startsWithTarget cs with
    | true => exact .inl ⟨cs, rfl, by simp [negate, hstart], hstart⟩
    | false => exact .inr (hf.negate_not hstart)
  | group cs, hf, hexposed =>
    exact .inr (.inr (.inr (.inr ⟨rfl, hf.isKept_of_group hexposed⟩)))
  | raw _, _, _ | target _, _, _ | operator _, _, _ | argument _, _, _ | string _, _, _ =>
    exact .inr (.inr (.inr (.inr ⟨rfl, rfl⟩)))

theorem value_negate (E : Reading) {f : Filter} (hf : Settled f) (hreg : Regular E.strict f)
    (hexposed : f.exposed? = none) (negated : Bool) (parent : Option Connective) :
    E.value (f.negate.asFolded negated parent) = E.negation (E.value (f.asFolded true none)) := by
  obtain ⟨cs, rfl, hneg, hstart⟩ | ⟨cs, rfl, hneg, hstart, hlen, hold⟩ | ⟨cs, rfl, hneg, hstart⟩ |
    ⟨g, rfl, hneg, hkept⟩ | ⟨hneg, -⟩ := negate_cases hf hreg hexposed
  · rw [hneg, asFolded_not_target hstart, asFolded_condition_target hstart,
      E.value_not_target _ hstart]
  · have htaken : (condition cs).asFolded true none = group cs := by
      simp [asFolded, hstart, hold]
    rw [hneg, asFolded_not_of_length hlen, E.value_not _ hstart, htaken]
  · rw [hneg, asFolded_condition_target hstart, asFolded_not_target hstart,
      E.value_not_target _ hstart, E.negation_negation]
  · rw [hneg, value_asFolded_not, E.negation_negation, asFolded_of_isKept hkept,
      asFolded_of_isKept hkept]
  · rw [hneg, value_asFolded_not]

theorem settled_negate {strict : Bool} {f : Filter} (hf : Settled f) (hreg : Regular strict f)
    (hexposed : f.exposed? = none) : Settled f.negate := by
  obtain ⟨cs, rfl, hneg, hstart⟩ | ⟨cs, rfl, hneg, -, hlen, -⟩ | ⟨cs, rfl, hneg, hstart⟩ |
    ⟨g, rfl, hneg, hkept⟩ | ⟨hneg, hkept⟩ := negate_cases hf hreg hexposed
  · rw [hneg]
    exact settled_not_target hstart
  · rw [hneg]
    exact settled_not_of_length hlen
  · rw [hneg, Settled]
    exact .inl hstart
  · rw [hneg]
    exact settled_of_isKept hkept
  · rw [hneg, Settled]
    exact hkept

theorem regular_negate {strict : Bool} {f : Filter} (hf : Settled f) (hreg : Regular strict f)
    (hexposed : f.exposed? = none) : Regular strict f.negate := by
  obtain ⟨cs, rfl, hneg, hstart⟩ | ⟨cs, rfl, hneg, -, hlen, -⟩ | ⟨cs, rfl, hneg, hstart⟩ |
    ⟨g, rfl, hneg, hkept⟩ | ⟨hneg, hkept⟩ := negate_cases hf hreg hexposed
  · rw [hneg]
    exact regular_not_target hstart
  · rw [hneg]
    exact regular_not_of_length hlen
  · rw [hneg, Regular]
    exact .inl hstart
  · rw [Regular] at hreg
    rw [hneg]
    exact hreg
  · rw [hneg, Regular]
    exact hreg

/-- What `degrade` makes of a condition: either it is a list of one word and is written
anew, or it is left as it is. -/
theorem degrade_condition_cases (cs : List Filter) :
    (∃ p t, (condition cs).degrade = Polarity.node p (ofTriple t)) ∧
        (∀ parent, rewritten parent cs = true) ∨
      (condition cs).degrade = condition cs ∧ rewritten none cs = false := by
  unfold degrade rewritten
  cases hk : (condition cs).containment? with
  | none => exact .inr ⟨rfl, rfl⟩
  | some k =>
    dsimp only
    split
    next hcontains => exact .inr ⟨rfl, by simp [hcontains]⟩
    next hlist =>
      split
      next word hword => exact .inl ⟨⟨_, _, rfl⟩, by simp [hlist, hword]⟩
      next hmany =>
        refine .inr ⟨rfl, ?_⟩
        have hlen : k.encodedWords.length ≠ 1 := fun hlen => by
          obtain ⟨word, hword⟩ := List.length_eq_one_iff.1 hlen
          exact hmany word hword
        simp [hlen]

/-! ## Folding step by step -/

/-- Folding a filter gives a settled filter of the same shape, and every reading finds in
it what folding takes the filter for. -/
structure Folds (strict : Bool) (f : Filter) : Prop where
  regular : Regular strict f.fold
  settled : Settled f.fold
  value : ∀ E : Reading, E.strict = strict → ∀ negated parent,
    E.value (f.fold.asFolded negated parent) = E.value (f.asFolded negated parent)

variable {strict : Bool}

theorem folds_of_isKept {f : Filter} (hf : Regular strict f) (h : isKept f = true) :
    Folds strict f where
  regular := by rwa [fold_of_isKept h]
  settled := by rw [fold_of_isKept h]; exact settled_of_isKept h
  value E _ negated parent := by rw [fold_of_isKept h]

theorem folds_join {c : Connective} {fs : List Filter} (hfs : ∀ f ∈ fs, Folds strict f)
    (hlen : strict = true → 2 ≤ fs.length) : Folds strict (c.join fs) := by
  have hreg : ∀ g ∈ fs.map fold, Regular strict g := by
    intro g hg
    obtain ⟨f, hf, rfl⟩ := List.mem_map.1 hg
    exact (hfs f hf).regular
  have hsettled : ∀ g ∈ fs.map fold, Settled g := by
    intro g hg
    obtain ⟨f, hf, rfl⟩ := List.mem_map.1 hg
    exact (hfs f hf).settled
  have hlen' : strict = true → 2 ≤ (fs.map fold).length := by
    rw [List.length_map]
    exact hlen
  constructor
  · rw [fold_join]
    exact regular_merge hreg hlen'
  · rw [fold_join]
    exact settled_merge hsettled
  · rintro E rfl negated parent
    rw [fold_join, value_merge E hreg hlen', Connective.value_map, asFolded_join,
      E.value_join c _ (by simpa using hlen), Connective.value_map]
    refine Connective.value_congr (exists_congr fun f => and_congr_right fun hf => ?_)
    rw [(hfs f hf).value E rfl]

theorem folds_group {f : Filter} (hf : Folds strict f) : Folds strict (group [f]) where
  regular := by rw [fold_group_singleton]; exact regular_parenthesized hf.regular
  settled := by rw [fold_group_singleton]; exact settled_parenthesized hf.settled
  value E hE negated parent := by
    rw [fold_group_singleton, value_asFolded_parenthesized, hf.value E hE, asFolded, E.value_group]

theorem folds_condition {cs : List Filter} (h : Regular strict (condition cs)) :
    Folds strict (condition cs) := by
  obtain ⟨⟨p, t, hnew⟩, hrewritten⟩ | ⟨hsame, hold⟩ := degrade_condition_cases cs
  · constructor
    · rw [fold_condition, hnew]
      exact regular_node p t
    · rw [fold_condition, hnew]
      exact settled_node p t
    · intro E _ negated parent
      have htaken : (condition cs).asFolded negated parent = condition cs := by
        simp [asFolded, hrewritten]
      have hvalue := E.value_degrade (condition cs)
      rw [hnew] at hvalue
      rw [fold_condition, htaken, hnew, asFolded_node, hvalue]
  · constructor
    · rwa [fold_condition, hsame]
    · rw [fold_condition, hsame, Settled]
      exact .inr hold
    · intro E _ negated parent
      rw [fold_condition, hsame]

theorem folds_not_target {cs : List Filter} (h : startsWithTarget cs = true) :
    Folds strict (not cs) := by
  obtain ⟨p, t, -, hnew⟩ | hsame := degrade_cases (not cs)
  · constructor
    · rw [fold_not_target cs h, hnew]
      exact regular_node p t
    · rw [fold_not_target cs h, hnew]
      exact settled_node p t
    · intro E _ negated parent
      have hvalue := E.value_degrade (not cs)
      rw [hnew] at hvalue
      rw [fold_not_target cs h, asFolded_not_target h, hnew, asFolded_node, hvalue]
  · constructor
    · rw [fold_not_target cs h, hsame]
      exact regular_not_target h
    · rw [fold_not_target cs h, hsame]
      exact settled_not_target h
    · intro E _ negated parent
      rw [fold_not_target cs h, hsame]

/-- De Morgan's laws on a folded filter, whose negated parts are folded twice. -/
theorem folds_not_exposed {f : Filter} (hstart : startsWithTarget [f] = false)
    (hf : Folds strict f) {c : Connective} {fs : List Filter}
    (hexposed : f.fold.exposed? = some (c, fs))
    (hfs : ∀ g ∈ fs, Folds strict (not [g]) ∧ Folds strict (not [g]).fold) :
    Folds strict (not [f]) := by
  have hfold : (not [f]).fold =
      parenthesized (merge c.dual (fs.map fun g => fold (fold (not [g])))) := by
    rw [fold_not_singleton f hstart, foldNegation, hexposed]
  have hreg : ∀ g ∈ fs.map fun g => fold (fold (not [g])), Regular strict g := by
    intro g hg
    obtain ⟨i, hi, rfl⟩ := List.mem_map.1 hg
    exact (hfs i hi).2.regular
  have hsettled : ∀ g ∈ fs.map fun g => fold (fold (not [g])), Settled g := by
    intro g hg
    obtain ⟨i, hi, rfl⟩ := List.mem_map.1 hg
    exact (hfs i hi).2.settled
  have hlen : strict = true → 2 ≤ (fs.map fun g => fold (fold (not [g]))).length := by
    rw [List.length_map]
    exact (hf.regular.of_exposed? hexposed).1
  constructor
  · rw [hfold]
    exact regular_parenthesized (regular_merge hreg hlen)
  · rw [hfold]
    exact settled_parenthesized (settled_merge hsettled)
  · rintro E rfl negated parent
    have hpart : ∀ g ∈ fs, E.value ((fold (fold (not [g]))).asFolded negated (some c.dual)) =
        E.negation (E.value (g.asFolded true (some c))) := by
      intro g hg
      rw [(hfs g hg).2.value E rfl, (hfs g hg).1.value E rfl, value_asFolded_not,
        (hf.settled.of_exposed? hexposed g hg).2]
    calc E.value ((not [f]).fold.asFolded negated parent)
        = (E.connective c.dual).value
            (fun g => E.value ((fold (fold (not [g]))).asFolded negated (some c.dual))) fs := by
          rw [hfold, value_asFolded_parenthesized, value_merge E hreg hlen, Connective.value_map]
      _ = (E.connective c.dual).value
            (fun g => E.negation (E.value (g.asFolded true (some c)))) fs := by
          refine Connective.value_congr (exists_congr fun g => and_congr_right fun hg => ?_)
          rw [hpart g hg]
      _ = E.negation (E.value (f.fold.asFolded true none)) := by
          rw [E.negation_value, value_asFolded_of_exposed? E hf.regular hexposed]
      _ = E.value ((not [f]).asFolded negated parent) := by
          rw [hf.value E rfl, value_asFolded_not]

theorem folds_not_unexposed {f : Filter} (hstart : startsWithTarget [f] = false)
    (hf : Folds strict f) (hexposed : f.fold.exposed? = none) : Folds strict (not [f]) := by
  have hfold : (not [f]).fold = f.fold.negate := by
    rw [fold_not_singleton f hstart, foldNegation, hexposed]
  constructor
  · rw [hfold]
    exact regular_negate hf.settled hf.regular hexposed
  · rw [hfold]
    exact settled_negate hf.settled hf.regular hexposed
  · rintro E rfl negated parent
    rw [hfold, value_negate E hf.settled hf.regular hexposed, hf.value E rfl, value_asFolded_not]

/-- Induction along the folding of a regular filter.  It is on the height, since the negated
parts of a folded connective are no parts of the filter. -/
theorem fold_induction {motive : Filter → Prop}
    (hregular : ∀ {f}, Regular strict f → motive f → Regular strict f.fold)
    (hkept : ∀ {f}, Regular strict f → isKept f = true → motive f)
    (hjoin : ∀ {c fs}, Regular strict (Connective.join c fs) → (∀ f ∈ fs, motive f) →
      motive (c.join fs))
    (hgroup : ∀ {f}, motive f → motive (group [f]))
    (hcondition : ∀ {cs}, Regular strict (condition cs) → motive (condition cs))
    (htarget : ∀ {cs}, startsWithTarget cs = true → motive (not cs))
    (hexposed : ∀ {f}, startsWithTarget [f] = false → Regular strict f → motive f →
      ∀ {c fs}, f.fold.exposed? = some (c, fs) →
        (∀ g ∈ fs, motive (not [g]) ∧ motive (not [g]).fold) → motive (not [f]))
    (hunexposed : ∀ {f}, startsWithTarget [f] = false → Regular strict f → motive f →
      f.fold.exposed? = none → motive (not [f]))
    (f : Filter) (hf : Regular strict f) : motive f := by
  induction hn : f.height using Nat.strongRecOn generalizing f with
  | ind n ih =>
    subst hn
    match f, hf, ih with
    | and fs, hf, ih =>
      refine hjoin (c := .and) hf fun g hg => ?_
      exact ih g.height (height_lt_join .and hg) g (((regular_join (c := .and)).1 hf).2 g hg) rfl
    | or fs, hf, ih =>
      refine hjoin (c := .or) hf fun g hg => ?_
      exact ih g.height (height_lt_join .or hg) g (((regular_join (c := .or)).1 hf).2 g hg) rfl
    | group [g], hf, ih =>
      rw [Regular] at hf
      exact hgroup (ih g.height (height_lt_group g) g hf rfl)
    | condition cs, hf, _ => exact hcondition hf
    | not cs, hf, ih =>
      cases hstart : startsWithTarget cs with
      | true => exact htarget hstart
      | false =>
        match cs, hf, hstart, ih with
        | [g], hf, hstart, ih =>
          rw [Regular] at hf
          have hg := ih g.height (height_lt_not g) g hf rfl
          cases hconnective : g.fold.exposed? with
          | none => exact hunexposed hstart hf hg hconnective
          | some exposed =>
            obtain ⟨c, items⟩ := exposed
            refine hexposed hstart hf hg hconnective fun i hi => ?_
            have hlow := height_not_lt hconnective (height_fold_le g) hi
            have hnot : Regular strict (not [i]) := by
              rw [Regular]
              exact ((hregular hf hg).of_exposed? hconnective).2 i hi
            have honce := ih _ hlow (not [i]) hnot rfl
            exact ⟨honce,
              ih _ (Nat.lt_of_le_of_lt (height_fold_le _) hlow) _ (hregular hnot honce) rfl⟩
        | [], hf, _, _ => exact hkept hf rfl
        | _ :: _ :: _, hf, hstart, _ => exact hkept hf (by simp [isKept, hstart])
    | group [], hf, _ | group (_ :: _ :: _), hf, _ | raw _, hf, _ | target _, hf, _
    | operator _, hf, _ | argument _, hf, _ | string _, hf, _ => exact hkept hf rfl

/-- Every regular filter folds. -/
theorem folds_of_regular (f : Filter) (hf : Regular strict f) : Folds strict f := by
  refine fold_induction (motive := Folds strict) ?_ ?_ ?_ ?_ ?_ ?_ ?_ ?_ f hf
  · exact fun _ hfolds => hfolds.regular
  · exact folds_of_isKept
  · exact fun hreg hfs => folds_join hfs (regular_join.1 hreg).1
  · exact folds_group
  · exact folds_condition
  · exact folds_not_target
  · exact fun hstart _ => folds_not_exposed hstart
  · exact fun hstart _ => folds_not_unexposed hstart

/-! ## The folded filter itself -/

mutual

/-- In a folded filter that is not negated there is nothing left to change. -/
theorem Settled.asFolded_false : ∀ {f : Filter}, Settled f → ∀ parent : Option Connective,
    f.asFolded false parent = f
  | and fs, h, _ => by
    rw [Settled] at h
    rw [asFolded, AllSettled.asFoldedAll_false h]
  | or fs, h, _ => by
    rw [Settled] at h
    rw [asFolded, AllSettled.asFoldedAll_false h]
  | group [f], h, _ => by
    rw [Settled] at h
    rw [asFolded, Settled.asFolded_false h.2]
  | not [f], h, _ => by
    rw [Settled] at h
    rw [asFolded, asFolded_of_isKept h]
  | condition cs, _, _ => by simp [asFolded]
  | group [], _, _ | group (_ :: _ :: _), _, _ | not [], _, _ | not (_ :: _ :: _), _, _ | raw _, _, _
  | target _, _, _ | operator _, _, _ | argument _, _, _ | string _, _, _ => by
    unfold asFolded
    rfl

theorem AllSettled.asFoldedAll_false : ∀ {fs : List Filter} {c : Connective}, AllSettled c fs →
    ∀ parent : Option Connective, asFoldedAll false parent fs = fs
  | [], _, _, _ => rfl
  | f :: fs, c, h, _ => by
    rw [AllSettled] at h
    rw [asFoldedAll, Settled.asFolded_false h.1.1, AllSettled.asFoldedAll_false h.2]

end

/-- A reading finds in the folded filter what folding takes the filter for. -/
theorem Folds.value_fold {f : Filter} (h : Folds strict f) (E : Reading) (hE : E.strict = strict) :
    E.value f.fold = E.value (f.asFolded false none) := by
  rw [← h.value E hE, h.settled.asFolded_false]

end StreamFilter.Filter
