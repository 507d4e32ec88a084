import StreamFilter.Proofs.Filter.Admission
set_option autoImplicit false

/-!
# How many conditions a filter is made of

The leaves of a filter are its conditions, its denied triples and its verbatim texts, each
counted as often as it stands there.  Folding puts one condition in place of several and one
negation in place of another, and so adds no leaf, with one exception.  A target is no leaf
where a filter has to stand, but a negation around it is read as a triple that is denied.
Pushing a negation inward can bring it there (`Filter.leaves_fold_doublyDenied`).

So a leaf is set aside for each such target below a negation (`Filter.strays`).  With these
counted in, no step of folding adds to the weight of a filter (`Filter.weight_fold_le`), and
the leaves of a folded filter are at most those of the filter and those set aside.
-/

namespace StreamFilter.Filter

mutual

/-- The number of conditions, denied triples and verbatim texts in a filter. -/
def leaves : Filter → Nat
  | condition cs => leavesAll cs + 1
  | not cs => if startsWithTarget cs then leavesAll cs + 1 else leavesAll cs
  | and cs | or cs | group cs => leavesAll cs
  | argument content => leaves content
  | raw _ => 1
  | target _ | operator _ | string _ => 0

/-- The number of leaves in the filters of a list. -/
def leavesAll : List Filter → Nat
  | [] => 0
  | f :: fs => leaves f + leavesAll fs

end

theorem leavesAll_singleton (f : Filter) : leavesAll [f] = f.leaves := by
  rw [leavesAll, leavesAll, Nat.add_zero]

theorem leaves_join (c : Connective) (fs : List Filter) : (c.join fs).leaves = leavesAll fs := by
  cases c <;> rw [Connective.join, leaves]

theorem leaves_group_singleton (f : Filter) : (group [f]).leaves = f.leaves := by
  rw [leaves, leavesAll_singleton]

theorem leaves_not_singleton {f : Filter} (h : startsWithTarget [f] = false) :
    (not [f]).leaves = f.leaves := by
  rw [leaves, h, if_neg Bool.false_ne_true, leavesAll_singleton]

theorem leaves_node (p : Polarity) (t : Triple) : (p.node (ofTriple t)).leaves = 1 := by
  obtain ⟨_, _, _ | _⟩ := t <;> cases p <;> rfl

theorem leaves_parenthesized (f : Filter) : f.parenthesized.leaves = f.leaves := by
  unfold parenthesized
  split
  · exact leaves_group_singleton f
  · rfl

/-! ## Targets that stand alone -/

mutual

/-- The number of targets below a negation that stand where folding expects a filter.  Where a
target is all that is negated the negation is a leaf already.  The flag tells whether the
filter itself stands below a negation. -/
def strays (negated : Bool) : Filter → Nat
  | and cs | or cs => straysAll negated cs
  | group [f] => strays negated f
  | not [f] => if startsWithTarget [f] then 0 else strays true f
  | target _ => if negated then 1 else 0
  | _ => 0

/-- The number of such targets in the filters of a list. -/
def straysAll (negated : Bool) : List Filter → Nat
  | [] => 0
  | f :: fs => strays negated f + straysAll negated fs

end

theorem strays_join (negated : Bool) (c : Connective) (fs : List Filter) :
    (c.join fs).strays negated = straysAll negated fs := by
  cases c <;> rw [Connective.join, strays]

theorem strays_not_target (negated : Bool) {cs : List Filter} (h : startsWithTarget cs = true) :
    (not cs).strays negated = 0 := by
  match cs, h with
  | [f], h => rw [strays, if_pos h]
  | _ :: _ :: _, _ => rfl

theorem strays_not_of_length (negated : Bool) {cs : List Filter} (h : cs.length ≠ 1) :
    (not cs).strays negated = 0 := by
  match cs, h with
  | [], _ | _ :: _ :: _, _ => rfl

theorem strays_of_isKept (negated : Bool) {f : Filter} (h : isKept f = true) :
    f.strays negated ≤ f.strays true := by
  match f, h with
  | target _, _ => cases negated <;> simp [strays]
  | not cs, h =>
    have hlen : cs.length ≠ 1 := by
      simp only [isKept, Bool.and_eq_true, bne_iff_ne] at h
      exact h.2
    exact Nat.le_of_eq (by rw [strays_not_of_length _ hlen, strays_not_of_length _ hlen])
  | raw _, _ | operator _, _ | argument _, _ | string _, _ | group [], _
  | group (_ :: _ :: _), _ => exact Nat.le_refl 0

mutual

/-- In an admitted filter no target stands alone. -/
theorem strays_of_admitted {v : Vocabulary} (negated : Bool) :
    ∀ f : Filter, admitted v f = true → f.strays negated = 0
  | and fs, h => by
    rw [admitted, Bool.and_eq_true] at h
    rw [strays, straysAll_of_allAdmitted negated fs h.2]
  | or fs, h => by
    rw [admitted, Bool.and_eq_true] at h
    rw [strays, straysAll_of_allAdmitted negated fs h.2]
  | group [f], h => by
    rw [admitted, firstAdmitted] at h
    rw [strays, strays_of_admitted negated f h]
  | not [f], h => by
    rw [admitted, firstAdmitted] at h
    rw [strays]
    split at h
    next hstart => rw [if_pos hstart]
    next hstart => rw [if_neg hstart, strays_of_admitted true f h]
  | group [], _ | group (_ :: _ :: _), _ | not [], _ | not (_ :: _ :: _), _ | condition _, _
  | raw _, _ => rfl
  | target _, h | operator _, h | argument _, h | string _, h => by
    rw [admitted] at h
    cases h

theorem straysAll_of_allAdmitted {v : Vocabulary} (negated : Bool) :
    ∀ fs : List Filter, allAdmitted v fs = true → straysAll negated fs = 0
  | [], _ => rfl
  | f :: fs, h => by
    rw [allAdmitted, Bool.and_eq_true] at h
    rw [straysAll, strays_of_admitted negated f h.1, straysAll_of_allAdmitted negated fs h.2]

end

/-! ## Weight -/

/-- The leaves of a filter together with those set aside. -/
def weight (negated : Bool) (f : Filter) : Nat := f.leaves + f.strays negated

/-- The weight of all filters of a list. -/
def weightAll (negated : Bool) (fs : List Filter) : Nat := leavesAll fs + straysAll negated fs

variable (negated : Bool)

theorem weightAll_cons (f : Filter) (fs : List Filter) :
    weightAll negated (f :: fs) = f.weight negated + weightAll negated fs := by
  rw [weightAll, leavesAll, straysAll, weight, weightAll]
  omega

theorem weightAll_singleton (f : Filter) : weightAll negated [f] = f.weight negated := by
  rw [weightAll_cons]
  rfl

theorem weightAll_append (fs gs : List Filter) :
    weightAll negated (fs ++ gs) = weightAll negated fs + weightAll negated gs := by
  induction fs with
  | nil => exact (Nat.zero_add _).symm
  | cons f fs ih => rw [List.cons_append, weightAll_cons, weightAll_cons, ih, Nat.add_assoc]

/-- A bound for each filter of a list is one for all together. -/
theorem weightAll_map_le {α : Type} {below : Bool} {xs : List α} {g h : α → Filter}
    (hle : ∀ x ∈ xs, (g x).weight negated ≤ (h x).weight below) :
    weightAll negated (xs.map g) ≤ weightAll below (xs.map h) := by
  induction xs with
  | nil => exact Nat.le_refl 0
  | cons x xs ih =>
    obtain ⟨hx, hxs⟩ := List.forall_mem_cons.1 hle
    rw [List.map_cons, List.map_cons, weightAll_cons, weightAll_cons]
    exact Nat.add_le_add hx (ih hxs)

theorem weight_join (c : Connective) (fs : List Filter) :
    (c.join fs).weight negated = weightAll negated fs := by
  rw [weight, leaves_join, strays_join, weightAll]

theorem weight_group_singleton (f : Filter) :
    (group [f]).weight negated = f.weight negated := by
  rw [weight, leaves_group_singleton, strays, weight]

/-- A negation weighs what the filter weighs below it: around a target it is the leaf that is
set aside for the target. -/
theorem weight_not_singleton (f : Filter) : (not [f]).weight negated = f.weight true := by
  cases f with
  | target _ => rfl
  | _ => exact congrArg (· + _) (leaves_not_singleton rfl)

theorem weight_node (p : Polarity) (t : Triple) : (p.node (ofTriple t)).weight negated = 1 := by
  obtain ⟨_, _, _ | _⟩ := t <;> cases p <;> rfl

theorem weight_parenthesized (f : Filter) : f.parenthesized.weight negated = f.weight negated := by
  unfold parenthesized
  split
  · exact weight_group_singleton negated f
  · rfl

theorem weight_of_exposed? {f : Filter} {c : Connective} {fs : List Filter}
    (h : f.exposed? = some (c, fs)) : f.weight negated = weightAll negated fs := by
  rcases exposed?_cases h with rfl | rfl
  · exact weight_join negated c fs
  · rw [weight_group_singleton, weight_join]

/-- A condition of the `contains` family is a leaf. -/
theorem one_le_weight_of_containment? {f : Filter} {k : Containment}
    (h : f.containment? = some k) : 1 ≤ f.weight negated := by
  have hleaf : 1 ≤ f.leaves := by
    obtain ⟨-, ⟨-, cs, rfl, -⟩ | ⟨-, cs, rfl, hstart, -⟩⟩ := containment?_cases h
    · rw [leaves]
      omega
    · rw [leaves, if_pos hstart]
      omega
  exact Nat.le_trans hleaf (Nat.le_add_right _ _)

/-! ## Merging -/

theorem weightAll_inlined (c : Connective) (f : Filter) :
    weightAll negated (inlined c f) = f.weight negated := by
  unfold inlined
  split
  next d cs hexposed =>
    split
    · exact (weight_of_exposed? negated hexposed).symm
    · exact weightAll_singleton negated f
  next => exact weightAll_singleton negated f

theorem weightAll_flatMap_inlined (c : Connective) (fs : List Filter) :
    weightAll negated (fs.flatMap (inlined c)) = weightAll negated fs := by
  induction fs with
  | nil => rfl
  | cons f fs ih =>
    rw [List.flatMap_cons, weightAll_append, weightAll_inlined, ih, weightAll_cons]

/-- Every key stands for one condition at least. -/
theorem length_keys_le (ks : List Containment) : (Containment.keys ks).length ≤ ks.length := by
  have hsubset : Containment.keys ks ⊆ ks.map Containment.key := by
    intro k hk
    exact List.mem_map.2 (mem_keys hk)
  simpa using (Containment.nodup_keys ks).length_le_of_subset hsubset

/-- Filters that do not merge, and one leaf for each that does. -/
theorem weightAll_filter_add_length_le (c : Connective) (fs : List Filter) :
    weightAll negated (fs.filter fun f => (mergeable? c f).isNone) +
      (fs.filterMap (mergeable? c)).length ≤ weightAll negated fs := by
  induction fs with
  | nil => exact Nat.le_refl 0
  | cons f fs ih =>
    cases h : mergeable? c f with
    | none =>
      rw [List.filter_cons_of_pos (by rw [h]; rfl), List.filterMap_cons_none h, weightAll_cons,
        weightAll_cons]
      omega
    | some k =>
      have hleaf := one_le_weight_of_containment? negated (mergeable?_eq_some.1 h).1
      rw [List.filter_cons_of_neg (by rw [h]; exact Bool.false_ne_true),
        List.filterMap_cons_some h, List.length_cons, weightAll_cons]
      omega

theorem weightAll_mergeKeys (c : Connective) (ks : List Containment)
    (keys : List (String × Polarity)) :
    weightAll negated (keys.map (Containment.mergeKey c ks)) = keys.length := by
  induction keys with
  | nil => rfl
  | cons key keys ih =>
    obtain ⟨t, ht⟩ := exists_mergeKey_eq c ks key
    rw [List.map_cons, weightAll_cons, ih, ht, weight_node, List.length_cons, Nat.add_comm]

theorem weightAll_mergedParts_le (c : Connective) (fs : List Filter) :
    weightAll negated (mergedParts c fs) ≤ weightAll negated fs := by
  unfold mergedParts
  dsimp only
  rw [weightAll_append, weightAll_mergeKeys, ← weightAll_flatMap_inlined negated c fs]
  refine Nat.le_trans (Nat.add_le_add_left (length_keys_le _) _) ?_
  exact weightAll_filter_add_length_le negated c _

theorem weight_collapse (c : Connective) (fs : List Filter) :
    (collapse c fs).weight negated = weightAll negated fs := by
  unfold collapse
  split
  · exact (weightAll_singleton negated _).symm
  · exact weight_join negated c _

/-- Merging adds no weight. -/
theorem weight_merge_le (c : Connective) (fs : List Filter) :
    (merge c fs).weight negated ≤ weightAll negated fs := by
  rw [merge_eq, weight_collapse]
  exact weightAll_mergedParts_le negated c fs

/-! ## Conditions and negations -/

theorem weight_degrade_le (f : Filter) : (degrade f).weight negated ≤ f.weight negated := by
  unfold degrade
  split
  next k hk =>
    split
    · exact Nat.le_refl _
    · split
      · rw [Containment.node, weight_node]
        exact one_le_weight_of_containment? negated hk
      · exact Nat.le_refl _
  next => exact Nat.le_refl _

theorem weight_not_target {cs : List Filter} (h : startsWithTarget cs = true) :
    (not cs).weight negated = leavesAll cs + 1 := by
  rw [weight, strays_not_target negated h, leaves, if_pos h]

/-- Negating a folded filter adds nothing to what it weighs below a negation. -/
theorem weight_negate_le {strict : Bool} {f : Filter} (hf : Settled f) (hreg : Regular strict f)
    (hexposed : f.exposed? = none) : f.negate.weight negated ≤ f.weight true := by
  obtain ⟨cs, rfl, hneg, hstart⟩ | ⟨cs, rfl, hneg, hstart, hlen, -⟩ | ⟨cs, rfl, hneg, hstart⟩ |
    ⟨g, rfl, hneg, hkept⟩ | ⟨hneg, -⟩ := negate_cases hf hreg hexposed
  · rw [hneg, weight_not_target negated hstart]
    exact Nat.le_refl _
  · rw [hneg, weight, strays_not_of_length negated hlen, leaves, hstart,
      if_neg Bool.false_ne_true]
    exact Nat.le_succ _
  · rw [hneg, weight_not_target true hstart]
    exact Nat.le_refl _
  · rw [hneg, weight_not_singleton]
    exact Nat.add_le_add_left (strays_of_isKept negated hkept) _
  · exact Nat.le_of_eq (by rw [hneg, weight_not_singleton])

/-! ## Folding -/

/-- Folding a filter adds no weight. -/
def Lightens (f : Filter) : Prop := ∀ negated, f.fold.weight negated ≤ f.weight negated

theorem lightens_of_isKept {f : Filter} (h : isKept f = true) : Lightens f := by
  intro negated
  exact Nat.le_of_eq (by rw [fold_of_isKept h])

theorem lightens_join {c : Connective} {fs : List Filter} (hfs : ∀ f ∈ fs, Lightens f) :
    Lightens (c.join fs) := by
  intro negated
  calc (c.join fs).fold.weight negated
      = (merge c (fs.map fold)).weight negated := by rw [fold_join]
    _ ≤ weightAll negated (fs.map fold) := weight_merge_le negated c _
    _ ≤ weightAll negated (fs.map id) :=
        weightAll_map_le negated fun f hf => hfs f hf negated
    _ = (c.join fs).weight negated := by rw [List.map_id, weight_join]

theorem lightens_group {f : Filter} (hf : Lightens f) : Lightens (group [f]) := by
  intro negated
  rw [fold_group_singleton, weight_parenthesized, weight_group_singleton]
  exact hf negated

theorem lightens_condition (cs : List Filter) : Lightens (condition cs) := by
  intro negated
  rw [fold_condition]
  exact weight_degrade_le negated _

theorem lightens_not_target {cs : List Filter} (h : startsWithTarget cs = true) :
    Lightens (not cs) := by
  intro negated
  rw [fold_not_target cs h]
  exact weight_degrade_le negated _

/-- De Morgan's laws put each part of a connective into a negation of its own, which weighs
what the part weighed below the one negation. -/
theorem lightens_not_exposed {f : Filter} (hstart : startsWithTarget [f] = false)
    (hf : Lightens f) {c : Connective} {fs : List Filter}
    (hexposed : f.fold.exposed? = some (c, fs))
    (hfs : ∀ g ∈ fs, Lightens (not [g]) ∧ Lightens (not [g]).fold) : Lightens (not [f]) := by
  intro negated
  have hpart : ∀ g ∈ fs, (fold (fold (not [g]))).weight negated ≤ g.weight true := by
    intro g hg
    rw [← weight_not_singleton negated g]
    exact Nat.le_trans ((hfs g hg).2 negated) ((hfs g hg).1 negated)
  rw [fold_not_singleton f hstart, foldNegation, hexposed]
  dsimp only
  calc (parenthesized (merge c.dual (fs.map fun g => fold (fold (not [g]))))).weight negated
      = (merge c.dual (fs.map fun g => fold (fold (not [g])))).weight negated :=
        weight_parenthesized negated _
    _ ≤ weightAll negated (fs.map fun g => fold (fold (not [g]))) := weight_merge_le negated _ _
    _ ≤ weightAll true (fs.map id) := weightAll_map_le negated hpart
    _ = f.fold.weight true := by rw [List.map_id, weight_of_exposed? true hexposed]
    _ ≤ f.weight true := hf true
    _ = (not [f]).weight negated := (weight_not_singleton negated f).symm

theorem lightens_not_unexposed {strict : Bool} {f : Filter}
    (hstart : startsWithTarget [f] = false) (hfolds : Folds strict f) (hf : Lightens f)
    (hexposed : f.fold.exposed? = none) : Lightens (not [f]) := by
  intro negated
  rw [fold_not_singleton f hstart, foldNegation, hexposed]
  dsimp only
  calc f.fold.negate.weight negated
      ≤ f.fold.weight true := weight_negate_le negated hfolds.settled hfolds.regular hexposed
    _ ≤ f.weight true := hf true
    _ = (not [f]).weight negated := (weight_not_singleton negated f).symm

theorem weight_fold_le {strict : Bool} {f : Filter} (hf : Regular strict f) :
    f.fold.weight negated ≤ f.weight negated := by
  refine fold_induction (motive := Lightens) ?_ ?_ ?_ ?_ ?_ ?_ ?_ ?_ f hf negated
  · exact fun hreg _ => (folds_of_regular _ hreg).regular
  · exact fun _ => lightens_of_isKept
  · exact fun _ => lightens_join
  · exact lightens_group
  · exact fun _ => lightens_condition _
  · exact lightens_not_target
  · exact fun hstart _ => lightens_not_exposed hstart
  · exact fun hstart hreg => lightens_not_unexposed hstart (folds_of_regular _ hreg)

theorem leaves_fold_le_add_strays {strict : Bool} {f : Filter} (hf : Regular strict f) :
    f.fold.leaves ≤ f.leaves + f.strays false :=
  Nat.le_trans (Nat.le_add_right _ _) (weight_fold_le false hf)

/-- Folding an admitted filter adds no leaf. -/
theorem leaves_fold_le {v : Vocabulary} {f : Filter} (h : admitted v f = true) :
    f.fold.leaves ≤ f.leaves := by
  have hle := leaves_fold_le_add_strays (regular_of_admitted f h)
  rwa [strays_of_admitted false f h] at hle

/-- Folding a filter whose conditions start with their targets neither invents nor loses an
atom.  It adds a leaf at most for each target that stands alone below a negation, so none to a
filter that has a skeleton. -/
theorem atoms_fold_and_leaves_fold_le {f : Filter} (hf : targetsFirst f = true) :
    f.fold.atoms = f.atoms ∧ f.fold.leaves ≤ f.leaves + f.strays false ∧
      ∀ v s, f.skeleton v = .ok (some s) → f.fold.leaves ≤ f.leaves := by
  refine ⟨atoms_fold hf, leaves_fold_le_add_strays (regular_of_targetsFirst f hf), ?_⟩
  intro v s hs
  exact leaves_fold_le (admitted_iff.2 ⟨s, hs⟩)

/-- A negation of words that merge, one of them with a comma and a backslash in it, and of a
target that stands alone. -/
def adrift : Filter :=
  not [group [and [
    condition [target "a", operator "contains_all", argument (string "u\\,v,w")],
    group [target "a"],
    condition [target "a", operator "contains", argument (string "u,v")],
    not [raw "r"]]]]

theorem atoms_fold_and_leaves_fold_le_adrift :
    adrift.targetsFirst = true ∧ adrift.leaves = 3 ∧ adrift.strays false = 1 ∧
      adrift.fold.atoms = adrift.atoms ∧ adrift.fold.leaves ≤ 3 + 1 := by
  obtain ⟨hatoms, hleaves, -⟩ := atoms_fold_and_leaves_fold_le (f := adrift) rfl
  exact ⟨rfl, rfl, rfl, hatoms, hleaves⟩

/-- Two negations around a group in which a target stands alone. -/
def doublyDenied : Filter := not [not [group [target "a"]]]

/-- The inner negation comes to stand at the target, where the outer one makes a condition of
it. -/
theorem fold_doublyDenied : doublyDenied.fold = condition [target "a"] := by
  rw [doublyDenied, fold_not_singleton _ rfl, fold_not_singleton _ rfl, fold_group_singleton,
    fold_target]
  rfl

theorem leaves_fold_doublyDenied :
    ¬ ∀ f : Filter, targetsFirst f = true →
      f.fold.atoms = f.atoms ∧ f.fold.leaves ≤ f.leaves := by
  intro h
  have hle := (h doublyDenied rfl).2
  rw [fold_doublyDenied] at hle
  exact absurd hle (by decide)

end StreamFilter.Filter
