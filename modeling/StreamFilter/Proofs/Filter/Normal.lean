import StreamFilter.Proofs.Filter.Stable
import StreamFilter.Proofs.Filter.Truth
set_option autoImplicit false

/-!
# The normal form of folding

`Filter.Normal` spells out what a folded filter looks like: negations stand at triples and
at verbatim text only, groups hold connectives, a connective has two parts or more, none of
them joined by the same connective, and no two of them could be one list condition.

Folding brings every well-shaped filter into this form (`Filter.normal_fold`).  The folded
filter is stable, and it is well shaped since being so is a reading; a filter that is both
is normal (`Filter.normal_of_stable`).
-/

namespace StreamFilter

namespace Filter

/-! ## Normal filters -/

/-- A filter below a connective that can be put into one list with others there. -/
structure Joins (c : Connective) (f : Filter) (k : Containment) : Prop where
  containment : f.containment? = some k
  operator : k.operator = "contains" ∨ k.operator = c.mergeOperator k.polarity
  unescaping : ∀ word ∈ k.encodedWords, word.toList.getLast? ≠ some '\\'

/-- The parts of a connective in a normal filter. -/
structure JoinsNormally (c : Connective) (fs : List Filter) : Prop where
  two_le : 2 ≤ fs.length
  /-- No part is the same connective or a group of it. -/
  unlike : ∀ f ∈ fs, ∀ gs, f ≠ c.join gs ∧ f ≠ group [c.join gs]
  /-- No two parts have the same target and polarity and can be put into one list. -/
  apart : fs.Pairwise fun f g => ∀ k l, Joins c f k → Joins c g l →
    ¬(k.target = l.target ∧ k.polarity = l.polarity)
  /-- The words of a list that could take more stand in strictly ascending order. -/
  ascending : ∀ f ∈ fs, ∀ k, Joins c f k → k.encodedWords.Pairwise (· < ·)

/-- The filters that folding ends with. -/
inductive Normal : Filter → Prop where
  | raw (text : String) : Normal (raw text)
  | condition {cs : List Filter} (h : (triple? cs).isSome = true) : Normal (condition cs)
  | notTriple {cs : List Filter} (hstart : startsWithTarget cs = true)
      (h : (triple? cs).isSome = true) : Normal (not cs)
  | notRaw (text : String) : Normal (not [.raw text])
  | group {c : Connective} {fs : List Filter} (h : Normal (c.join fs)) : Normal (group [c.join fs])
  | join {c : Connective} {fs : List Filter} (h : JoinsNormally c fs)
      (hfs : ∀ f ∈ fs, Normal f) : Normal (c.join fs)

/-! ## Merged parts -/

theorem joins_iff {c : Connective} {f : Filter} {k : Containment} :
    Joins c f k ↔ mergeable? c f = some k := by
  rw [mergeable?_eq_some, Containment.mergesUnder_iff]
  exact ⟨fun h => ⟨h.containment, h.operator, h.unescaping⟩, fun h => ⟨h.1, h.2.1, h.2.2⟩⟩

/-- The parts of a merged connective: those that do not merge, then one condition for each
key. -/
theorem Merged.eq_append {c : Connective} {fs : List Filter} (h : Merged c fs) :
    fs = (fs.filter fun f => (mergeable? c f).isNone) ++
      (Containment.keys (fs.filterMap (mergeable? c))).map
        (Containment.mergeKey c (fs.filterMap (mergeable? c))) := by
  have hparts := h.parts
  rw [mergedParts, flatMap_inlined h.unlike] at hparts
  exact hparts.symm

/-- A part that merges with others is the condition that was written for its key. -/
theorem Merged.exists_key {c : Connective} {fs : List Filter} (h : Merged c fs) {f : Filter}
    (hf : f ∈ fs) {k : Containment} (hk : mergeable? c f = some k) :
    k.key ∈ Containment.keys (fs.filterMap (mergeable? c)) ∧
      k.encodedWords = Containment.wordsOf (fs.filterMap (mergeable? c)) k.key := by
  rw [h.eq_append] at hf
  rcases List.mem_append.1 hf with hf | hf
  · have hnone := (List.mem_filter.1 hf).2
    rw [hk] at hnone
    cases hnone
  · obtain ⟨key, hkey, rfl⟩ := List.mem_map.1 hf
    have hwords := Containment.joinable_wordsOf mergesUnder_of_mem_filterMap hkey
    rw [mergeable?_mergeKey mergesUnder_of_mem_filterMap hkey] at hk
    obtain rfl := Option.some.inj hk
    rw [Containment.key_ofWords, Containment.encodedWords_ofWords c key hwords]
    exact ⟨hkey, rfl⟩

theorem Merged.ascending {c : Connective} {fs : List Filter} (h : Merged c fs) {f : Filter}
    (hf : f ∈ fs) {k : Containment} (hk : mergeable? c f = some k) :
    k.encodedWords.Pairwise (· < ·) := by
  rw [(h.exists_key hf hk).2]
  exact pairwise_ascendingTexts _

theorem Merged.apart {c : Connective} {fs : List Filter} (h : Merged c fs) :
    fs.Pairwise fun f g => ∀ k l, mergeable? c f = some k → mergeable? c g = some l →
      k.key ≠ l.key := by
  have hothers : ∀ f ∈ fs.filter fun f => (mergeable? c f).isNone, ∀ k,
      mergeable? c f ≠ some k := by
    intro f hf k hk
    have hnone := (List.mem_filter.1 hf).2
    rw [hk] at hnone
    cases hnone
  rw [h.eq_append, List.pairwise_append]
  refine ⟨?_, ?_, ?_⟩
  · refine List.pairwise_of_forall_mem_list fun f hf g _ k l hk _ => ?_
    exact absurd hk (hothers f hf k)
  · refine List.pairwise_map.2 ((Containment.nodup_keys _).imp_of_mem ?_)
    intro key key' hkey hkey' hne k l hk hl
    rw [mergeable?_mergeKey mergesUnder_of_mem_filterMap hkey] at hk
    rw [mergeable?_mergeKey mergesUnder_of_mem_filterMap hkey'] at hl
    rw [← Option.some.inj hk, ← Option.some.inj hl, Containment.key_ofWords,
      Containment.key_ofWords]
    exact hne
  · intro f hf g _ k l hk _
    exact absurd hk (hothers f hf k)

theorem Unlike.ne {c : Connective} {f : Filter} (h : Unlike c f) (gs : List Filter) :
    f ≠ c.join gs ∧ f ≠ group [c.join gs] := by
  constructor
  · rintro rfl
    refine h gs ?_
    cases c <;> rfl
  · rintro rfl
    refine h gs ?_
    rw [exposed?, connective?_join]

theorem Merged.joinsNormally {c : Connective} {fs : List Filter} (h : Merged c fs)
    (hlen : 2 ≤ fs.length) : JoinsNormally c fs where
  two_le := hlen
  unlike f hf gs := (h.unlike f hf).ne gs
  apart := h.apart.imp fun hne k l hk hl hsame =>
    hne k l (joins_iff.1 hk) (joins_iff.1 hl) (Prod.ext hsame.1 hsame.2)
  ascending _ hf _ hk := h.ascending hf (joins_iff.1 hk)

/-! ## Well-shaped filters -/

mutual

/-- Whether connectives have two parts or more, groups and negations that hold no triple one
part, conditions and other negations a triple, and parts of a condition stand only there. -/
def wellShaped : Filter → Bool
  | and cs | or cs => decide (2 ≤ cs.length) && allWellShaped cs
  | not cs => if startsWithTarget cs then (triple? cs).isSome else soleWellShaped cs
  | group cs => soleWellShaped cs
  | condition cs => (triple? cs).isSome
  | raw _ => true
  | target _ | operator _ | argument _ | string _ => false

/-- Whether every filter of a list is well shaped. -/
def allWellShaped : List Filter → Bool
  | [] => true
  | f :: fs => wellShaped f && allWellShaped fs

/-- Whether a list is that of one well-shaped filter. -/
def soleWellShaped : List Filter → Bool
  | [f] => wellShaped f
  | _ => false

end

theorem allWellShaped_eq (fs : List Filter) : allWellShaped fs = fs.all wellShaped := by
  induction fs with
  | nil => rfl
  | cons f fs ih => rw [allWellShaped, ih, List.all_cons]

theorem wellShaped_join (c : Connective) {cs : List Filter} (h : 2 ≤ cs.length) :
    (c.join cs).wellShaped = Connective.and.value wellShaped cs := by
  cases c <;> simp [Connective.join, wellShaped, h, allWellShaped_eq, Connective.value]

theorem wellShaped_not_target {cs : List Filter} (h : startsWithTarget cs = true) :
    (not cs).wellShaped = (condition cs).wellShaped := by
  rw [wellShaped, if_pos h, wellShaped]

theorem wellShaped_not {cs : List Filter} (h : startsWithTarget cs = false) :
    (not cs).wellShaped = (group cs).wellShaped := by
  rw [wellShaped, h, if_neg Bool.false_ne_true, wellShaped]

end Filter

/-- Shape.  Every connective asks for all its parts, a negation for what it negates, and of
a triple nothing is asked. -/
def Reading.shape : Reading where
  strict := true
  value := Filter.wellShaped
  triple _ := true
  connective := Function.const _ .and
  negation := id
  value_join c cs h := Filter.wellShaped_join c (h rfl)
  value_group f := by rw [Filter.wellShaped, Filter.soleWellShaped]
  value_target name := by rw [Filter.wellShaped, Filter.wellShaped]; rfl
  value_condition cs t h := by rw [Filter.wellShaped, h]; rfl
  value_not_target cs h := Filter.wellShaped_not_target h
  value_not cs h := Filter.wellShaped_not h
  triple_expansion t c parts h := by simp [Connective.value]
  negation_negation := id_eq
  value_dual c xs := rfl

namespace Filter

mutual

theorem regular_of_wellShaped : ∀ f : Filter, wellShaped f = true → Regular true f
  | and fs, h => by
    simp only [wellShaped, Bool.and_eq_true, decide_eq_true_eq] at h
    rw [Regular]
    exact ⟨fun _ => h.1, allRegular_of_allWellShaped fs h.2⟩
  | or fs, h => by
    simp only [wellShaped, Bool.and_eq_true, decide_eq_true_eq] at h
    rw [Regular]
    exact ⟨fun _ => h.1, allRegular_of_allWellShaped fs h.2⟩
  | group [f], h => by
    rw [wellShaped, soleWellShaped] at h
    rw [Regular]
    exact regular_of_wellShaped f h
  | not [f], h => by
    cases hstart : startsWithTarget [f] with
    | true => exact regular_not_target hstart
    | false =>
      rw [wellShaped_not hstart, wellShaped, soleWellShaped] at h
      rw [Regular]
      exact regular_of_wellShaped f h
  | condition cs, h => by
    rw [wellShaped] at h
    obtain ⟨t, ht⟩ := Option.isSome_iff_exists.1 h
    rw [Regular]
    exact .inr ⟨rfl, length_ne_one_of_triple? ht⟩
  | group [], _ | group (_ :: _ :: _), _ | not [], _ | not (_ :: _ :: _), _ | raw _, _
  | target _, _ | operator _, _ | argument _, _ | string _, _ => by unfold Regular; trivial

theorem allRegular_of_allWellShaped :
    ∀ fs : List Filter, allWellShaped fs = true → AllRegular true fs
  | [], _ => by rw [AllRegular]; trivial
  | f :: fs, h => by
    rw [allWellShaped, Bool.and_eq_true] at h
    rw [AllRegular]
    exact ⟨regular_of_wellShaped f h.1, allRegular_of_allWellShaped fs h.2⟩

end

mutual

theorem hasTriples_of_wellShaped : ∀ f : Filter, wellShaped f = true → hasTriples f = true
  | and fs, h => by
    simp only [wellShaped, Bool.and_eq_true, decide_eq_true_eq] at h
    rw [hasTriples]
    exact allHaveTriples_of_allWellShaped fs h.2
  | or fs, h => by
    simp only [wellShaped, Bool.and_eq_true, decide_eq_true_eq] at h
    rw [hasTriples]
    exact allHaveTriples_of_allWellShaped fs h.2
  | group [f], h => by
    rw [wellShaped, soleWellShaped] at h
    rw [hasTriples]
    exact hasTriples_of_wellShaped f h
  | not [f], h => by
    cases hstart : startsWithTarget [f] with
    | true =>
      rw [wellShaped_not_target hstart, wellShaped, triple?_singleton] at h
      cases h
    | false =>
      rw [wellShaped_not hstart, wellShaped, soleWellShaped] at h
      rw [hasTriples]
      exact hasTriples_of_wellShaped f h
  | condition cs, h => by
    rw [wellShaped] at h
    rw [hasTriples]
    exact h
  | group [], _ | group (_ :: _ :: _), _ | not [], _ | not (_ :: _ :: _), _ | raw _, _
  | target _, _ | operator _, _ | argument _, _ | string _, _ => by unfold hasTriples; rfl

theorem allHaveTriples_of_allWellShaped :
    ∀ fs : List Filter, allWellShaped fs = true → allHaveTriples fs = true
  | [], _ => by rw [allHaveTriples]
  | f :: fs, h => by
    rw [allWellShaped, Bool.and_eq_true] at h
    rw [allHaveTriples, hasTriples_of_wellShaped f h.1, allHaveTriples_of_allWellShaped fs h.2]
    rfl

end

/-- Folding keeps the shape where conditions start with their targets. -/
theorem wellShaped_fold {f : Filter} (htargets : f.targetsFirst = true)
    (hshape : f.wellShaped = true) : f.fold.wellShaped = true := by
  have hvalue := (folds_of_regular f (regular_of_wellShaped f hshape)).value_fold .shape rfl
  rw [asFolded_of_regular f (regular_of_targetsFirst f htargets)] at hvalue
  exact hvalue.trans hshape

/-! ## Folding reaches the normal form -/

/-- Of well-shaped filters only verbatim text is kept by folding. -/
theorem exists_raw_of_isKept {f : Filter} (hkept : isKept f = true)
    (hshape : f.wellShaped = true) : ∃ text, f = raw text := by
  match f, hkept, hshape with
  | raw text, _, _ => exact ⟨text, rfl⟩
  | group [], _, hshape | group (_ :: _ :: _), _, hshape | not [], _, hshape =>
    simp [wellShaped, soleWellShaped, startsWithTarget] at hshape
  | not [g], hkept, _ => simp [isKept] at hkept
  | not (g :: h :: cs), hkept, hshape =>
    have hstart : startsWithTarget (g :: h :: cs) = false := by simpa [isKept] using hkept
    rw [wellShaped_not hstart] at hshape
    simp [wellShaped, soleWellShaped] at hshape
  | target _, _, hshape | operator _, _, hshape | argument _, _, hshape | string _, _, hshape =>
    simp [wellShaped] at hshape

mutual

theorem normal_of_stable : ∀ f : Filter, Stable f → wellShaped f = true → Normal f
  | and fs, h, hshape => by
    rw [Stable] at h
    simp only [wellShaped, Bool.and_eq_true, decide_eq_true_eq] at hshape
    exact .join (c := .and) (h.2.1.joinsNormally hshape.1)
      (forall_normal_of_allStable fs h.2.2 hshape.2)
  | or fs, h, hshape => by
    rw [Stable] at h
    simp only [wellShaped, Bool.and_eq_true, decide_eq_true_eq] at hshape
    exact .join (c := .or) (h.2.1.joinsNormally hshape.1)
      (forall_normal_of_allStable fs h.2.2 hshape.2)
  | group [f], h, hshape => by
    rw [Stable] at h
    rw [wellShaped, soleWellShaped] at hshape
    have hf := normal_of_stable f h.2 hshape
    obtain ⟨⟨c, fs⟩, hjoin⟩ := Option.isSome_iff_exists.1 h.1
    rw [eq_join_of_connective? hjoin] at hf ⊢
    exact .group hf
  | condition cs, _, hshape => by
    rw [wellShaped] at hshape
    exact .condition hshape
  | not cs, h, hshape => by
    cases hstart : startsWithTarget cs with
    | true =>
      rw [wellShaped_not_target hstart, wellShaped] at hshape
      exact .notTriple hstart hshape
    | false =>
      rw [wellShaped_not hstart, wellShaped] at hshape
      rw [Stable] at h
      match cs, hshape, h with
      | [f], hshape, h =>
        rw [soleWellShaped] at hshape
        obtain ⟨text, rfl⟩ := exists_raw_of_isKept (h.2 f rfl) hshape
        exact .notRaw text
  | raw text, _, _ => .raw text

theorem forall_normal_of_allStable : ∀ fs : List Filter, AllStable fs → allWellShaped fs = true →
    ∀ f ∈ fs, Normal f
  | [], _, _ => by simp
  | f :: fs, h, hshape => by
    rw [AllStable] at h
    rw [allWellShaped, Bool.and_eq_true] at hshape
    exact List.forall_mem_cons.2
      ⟨normal_of_stable f h.1 hshape.1, forall_normal_of_allStable fs h.2 hshape.2⟩

end

/-- Folding a well-shaped filter whose conditions start with their targets leaves no merge
undone, no negation to be pushed inward and no group without need. -/
theorem normal_fold {f : Filter} (htargets : f.targetsFirst = true)
    (hshape : f.wellShaped = true) : Normal f.fold :=
  normal_of_stable f.fold (stable_fold f (hasTriples_of_wellShaped f hshape))
    (wellShaped_fold htargets hshape)

/-- A filter in which each step of folding opens the way for another: below the negations two
conditions become one, so the group around them goes; the negations are pushed inward, and
what they leave joins the connective above and is merged there. -/
def knotted : Filter :=
  and [
    condition [target "a", operator "contains_all", argument (string "q,b\\,c")],
    group [group [and [condition [target "a", operator "contains", argument (string "b,c")],
      raw "r"]]],
    not [group [or [
      not [group [or [condition [target "a", operator "contains", argument (string "z")],
        condition [target "a", operator "contains_any", argument (string "y,x,y")]]]],
      not [target "a", operator "contains", argument (string "k")],
      not [raw "s"],
      raw "t"]]],
    condition [target "a", operator "contains", argument (string "e\\")]]

theorem normal_fold_knotted :
    knotted.targetsFirst = true ∧ knotted.wellShaped = true ∧ Normal knotted.fold :=
  ⟨by decide, by decide, normal_fold (by decide) (by decide)⟩

end Filter

end StreamFilter
