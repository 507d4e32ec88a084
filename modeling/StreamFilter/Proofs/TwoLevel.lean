import StreamFilter.Proofs.EssentialAtoms
import StreamFilter.Proofs.Writing
set_option autoImplicit false

/-!
# Minimized filters have two levels

A sum of products becomes an `or` whose parts are single conditions or groups of an `and`,
so its text needs no further parentheses.  Folding merges some of the conditions: an `and`
may become a single condition, and its group goes; the `or` may too.  What is left has two
levels again (`Filter.IsTwoLevel.fold`), and it can be written and read as a formula.
-/

namespace StreamFilter

namespace Filter

/-! ## Filters of two levels -/

/-- A triple or verbatim text, stated or denied. -/
inductive IsLeaf : Filter → Prop
  | triple (p : Polarity) (t : Triple) : IsLeaf (p.node (ofTriple t))
  | raw (text : String) : IsLeaf (.raw text)
  | notRaw (text : String) : IsLeaf (not [.raw text])

/-- An `and` of at least two leaves. -/
inductive IsProduct : Filter → Prop
  | and {leaves : List Filter} (hlen : 2 ≤ leaves.length) (hleaves : ∀ g ∈ leaves, IsLeaf g) :
    IsProduct (.and leaves)

/-- A part of a sum: a leaf, or a product in a group. -/
inductive IsTerm : Filter → Prop
  | leaf {f : Filter} (hf : IsLeaf f) : IsTerm f
  | group {f : Filter} (hf : IsProduct f) : IsTerm (group [f])

/-- A leaf, a product, or an `or` of at least two terms. -/
inductive IsTwoLevel : Filter → Prop
  | leaf {f : Filter} (hf : IsLeaf f) : IsTwoLevel f
  | product {f : Filter} (hf : IsProduct f) : IsTwoLevel f
  | sum {terms : List Filter} (hlen : 2 ≤ terms.length) (hterms : ∀ g ∈ terms, IsTerm g) :
    IsTwoLevel (.or terms)

variable {f : Filter}

theorem IsLeaf.connective? (h : f.IsLeaf) : f.connective? = none := by
  cases h with
  | triple p t => cases p <;> rfl
  | raw text => rfl
  | notRaw text => rfl

theorem IsLeaf.inlined (h : f.IsLeaf) (c : Connective) : inlined c f = [f] := by
  cases h with
  | triple p t => cases p <;> rfl
  | raw text => rfl
  | notRaw text => rfl

theorem IsLeaf.regular (h : f.IsLeaf) : Regular true f := by
  cases h with
  | triple p t => exact regular_node p t
  | raw text => simp [Regular]
  | notRaw text => simp [Regular]

theorem IsTerm.inlined (h : f.IsTerm) : Filter.inlined .or f = [f] := by
  cases h with
  | leaf hf => exact hf.inlined .or
  | group hf => cases hf; rfl

theorem IsTerm.regular (h : f.IsTerm) : Regular true f := by
  cases h with
  | leaf hf => exact hf.regular
  | group hf =>
    cases hf with
    | and hlen hleaves =>
      rw [Regular]
      exact (regular_join (c := .and)).2 ⟨fun _ => hlen, fun g hg => (hleaves g hg).regular⟩

theorem isTerm_parenthesized (h : f.IsLeaf ∨ f.IsProduct) : f.parenthesized.IsTerm := by
  rcases h with hf | hf
  · rw [parenthesized, hf.connective?]
    exact .leaf hf
  · cases hf with
    | and hlen hleaves => exact .group (.and hlen hleaves)

theorem isTwoLevel_of_isLeaf_or_isProduct (h : f.IsLeaf ∨ f.IsProduct) : f.IsTwoLevel :=
  h.elim .leaf .product

/-! ## Folding keeps two levels -/

/-- Folding a connective whose folded parts are not inlined gives one condition or again a
connective, of parts of the same form if conditions are of that form. -/
theorem fold_join_cases {form : Filter → Prop} (hnode : ∀ p t, form (Polarity.node p (ofTriple t)))
    (hregular : ∀ {f}, form f → Regular true f) {c : Connective}
    (hinlined : ∀ {f}, form f → inlined c f = [f]) {fs : List Filter} (hlen : 2 ≤ fs.length)
    (hfs : ∀ f ∈ fs, form f.fold) :
    (∃ p t, (c.join fs).fold = Polarity.node p (ofTriple t)) ∨
      ∃ parts, (c.join fs).fold = c.join parts ∧ 2 ≤ parts.length ∧ ∀ g ∈ parts, form g := by
  have hfolded : ∀ g ∈ fs.map fold, form g := List.forall_mem_map.2 hfs
  rw [fold_join, merge_eq]
  obtain hmany | ⟨p, t, hone⟩ := two_le_length_mergedParts (c := c)
    (fun g hg => hregular (hfolded g hg)) (by rwa [List.length_map])
  · refine .inr ⟨mergedParts c (fs.map fold), ?_, hmany, fun g hg => ?_⟩
    · unfold collapse
      split
      next f hone => simp [hone] at hmany
      next => rfl
    · obtain ⟨hg, -⟩ | ⟨p, t, rfl⟩ := mem_mergedParts hg
      · obtain ⟨f, hf, hg⟩ := List.mem_flatMap.1 hg
        rw [hinlined (hfolded f hf), List.mem_singleton] at hg
        rw [hg]
        exact hfolded f hf
      · exact hnode p t
  · exact .inl ⟨p, t, by rw [hone]; rfl⟩

theorem IsLeaf.fold (h : f.IsLeaf) : f.fold.IsLeaf := by
  cases h with
  | triple p t =>
    cases p with
    | plain =>
      rw [Polarity.node, fold_condition]
      obtain ⟨⟨p, t', hnew⟩, -⟩ | ⟨hsame, -⟩ := degrade_condition_cases (ofTriple t)
      · rw [hnew]
        exact .triple p t'
      · rw [hsame]
        exact .triple .plain t
    | negated =>
      rw [Polarity.node, fold_not_target _ (startsWithTarget_ofTriple t)]
      obtain ⟨p, t', -, hnew⟩ | hsame := degrade_cases (not (ofTriple t))
      · rw [hnew]
        exact .triple p t'
      · rw [hsame]
        exact .triple .negated t
  | raw text =>
    rw [fold_raw]
    exact .raw text
  | notRaw text =>
    rw [fold_not_singleton _ rfl, fold_raw]
    exact .notRaw text

/-- A folded product is a leaf if all its conditions merge. -/
theorem IsProduct.fold (h : f.IsProduct) : f.fold.IsLeaf ∨ f.fold.IsProduct := by
  cases h with
  | and hlen hleaves =>
    obtain ⟨p, t, hone⟩ | ⟨parts, hparts, hmany, hforms⟩ := fold_join_cases (c := .and) .triple
      IsLeaf.regular (fun hf => hf.inlined .and) hlen fun g hg => (hleaves g hg).fold
    · exact .inl (hone ▸ .triple p t)
    · exact .inr (hparts ▸ .and hmany hforms)

theorem IsTerm.fold (h : f.IsTerm) : f.fold.IsTerm := by
  cases h with
  | leaf hf => exact .leaf hf.fold
  | group hf =>
    rw [fold_group_singleton]
    exact isTerm_parenthesized hf.fold

theorem IsTwoLevel.fold (h : f.IsTwoLevel) : f.fold.IsTwoLevel := by
  cases h with
  | leaf hf => exact .leaf hf.fold
  | product hf => exact isTwoLevel_of_isLeaf_or_isProduct hf.fold
  | sum hlen hterms =>
    obtain ⟨p, t, hone⟩ | ⟨parts, hparts, hmany, hforms⟩ := fold_join_cases (c := .or)
      (fun p t => .leaf (.triple p t)) IsTerm.regular IsTerm.inlined hlen
      fun g hg => (hterms g hg).fold
    · exact .leaf (hone ▸ .triple p t)
    · exact hparts ▸ .sum hmany hforms

end Filter

/-- What a variable stands for is a leaf, stated or denied. -/
theorem Variable.IsAtom.isLeaf {v : Vocabulary} {x : Variable} (h : x.IsAtom v) :
    x.stated.IsLeaf ∧ x.denied.IsLeaf := by
  obtain ⟨hstated, hdenied⟩ | ⟨t, -, -, -, -, hstated, hdenied⟩ := h
  · rw [hstated, hdenied]
    exact ⟨.raw x.text, .notRaw x.text⟩
  · rw [hstated, hdenied]
    exact ⟨.triple .plain t, .triple .negated t⟩

/-! ## Sums of products as filters -/

namespace Formula

variable {v : Vocabulary} {vs : Variables}

/-- What is known of the filter of each part holds of the filters of the parts. -/
theorem forall_mem_of_toFilters {P : Filter → Prop} : ∀ {fs : List (Formula String)}
    {gs : List Filter}, toFilters vs fs = .ok gs →
      (∀ f ∈ fs, ∀ g, toFilter vs f = .ok g → P g.parenthesized) →
        gs.length = fs.length ∧ ∀ g ∈ gs, P g
  | [], gs, h, _ => by
    rw [toFilters] at h
    rw [← Except.ok.inj h]
    exact ⟨rfl, fun _ hg => by cases hg⟩
  | f :: fs, gs, h, hfs => by
    rw [toFilters] at h
    obtain ⟨first, hfirst, h⟩ := exists_of_bind_eq_ok h
    obtain ⟨others, hothers, h⟩ := exists_of_bind_eq_ok h
    obtain ⟨hhead, htail⟩ := List.forall_mem_cons.1 hfs
    obtain ⟨hlen, hmem⟩ := forall_mem_of_toFilters hothers htail
    rw [← Except.ok.inj h]
    exact ⟨by rw [List.length_cons, List.length_cons, hlen],
      List.forall_mem_cons.2 ⟨hhead first hfirst, hmem⟩⟩

theorem isLeaf_toFilter_literal (hvs : vs.Sound v) {l : String × Bool} {g : Filter}
    (h : toFilter vs (literal l) = .ok g) : g.IsLeaf := by
  obtain ⟨name, positive⟩ := l
  cases positive with
  | true =>
    rw [literal, toFilter] at h
    obtain ⟨x, hx, h⟩ := exists_of_bind_eq_ok h
    rw [← Except.ok.inj h]
    exact (isAtom_of_lookup hvs hx).isLeaf.1
  | false =>
    rw [literal, toFilter] at h
    obtain ⟨x, hx, h⟩ := exists_of_bind_eq_ok h
    rw [← Except.ok.inj h]
    exact (isAtom_of_lookup hvs hx).isLeaf.2

theorem isLeaf_or_isProduct_toFilter (hvs : vs.Sound v) {ls : List (String × Bool)} (hls : ls ≠ [])
    {g : Filter} (h : toFilter vs (product ls) = .ok g) : g.IsLeaf ∨ g.IsProduct := by
  match ls, hls with
  | [l], _ => exact .inl (isLeaf_toFilter_literal hvs h)
  | l :: m :: ls, _ =>
    rw [product, unlessSingle_of_two_le _ (by simp), toFilter] at h
    obtain ⟨gs, hgs, h⟩ := exists_of_bind_eq_ok h
    obtain ⟨hlen, hleaves⟩ := forall_mem_of_toFilters (P := Filter.IsLeaf) hgs
      (List.forall_mem_map.2 fun l _ g hg => by
        have hleaf := isLeaf_toFilter_literal hvs hg
        rwa [Filter.parenthesized, hleaf.connective?])
    rw [← Except.ok.inj h]
    exact .inr (.and (by simp [hlen]) hleaves)

/-- The filter of a sum of products has two levels. -/
theorem isTwoLevel_toFilter_sumOfProducts (hvs : vs.Sound v)
    {terms : List (List (String × Bool))} (hterms : terms ≠ []) (hproper : ∀ t ∈ terms, t ≠ [])
    {g : Filter} (h : toFilter vs (sumOfProducts terms) = .ok g) : g.IsTwoLevel := by
  match terms, hterms with
  | [t], _ =>
    have hpart := isLeaf_or_isProduct_toFilter hvs (hproper t List.mem_cons_self) h
    exact Filter.isTwoLevel_of_isLeaf_or_isProduct hpart
  | t :: u :: terms, _ =>
    rw [sumOfProducts, unlessSingle_of_two_le _ (by simp), toFilter] at h
    obtain ⟨gs, hgs, h⟩ := exists_of_bind_eq_ok h
    obtain ⟨hlen, hparts⟩ := forall_mem_of_toFilters (P := Filter.IsTerm) hgs
      (List.forall_mem_map.2 fun t ht g hg =>
        Filter.isTerm_parenthesized (isLeaf_or_isProduct_toFilter hvs (hproper t ht) hg))
    rw [← Except.ok.inj h]
    exact .sum (by simp [hlen]) hparts

end Formula

/-! ## The result -/

namespace Optimizer

/-- With the built-in minimizer, a minimized filter has two levels, can be written, and has
a skeleton. -/
theorem optimize_native_twoLevel (v : Vocabulary) (limits : Limits) {f f' : Filter}
    {s : Skeleton} (hs : f.skeleton v = .ok (some s))
    (hanswer : (Minimizer.native limits).minimize s.formula.text ≠ .ok .skipped)
    (hresult : (Optimizer.mk v (.native limits) .minimize).optimize f = .ok (some f')) :
    f'.IsTwoLevel ∧ f'.Writable v ∧ ∃ s', f'.skeleton v = .ok (some s') := by
  obtain ⟨hsound, hformula⟩ := Filter.describes_of_skeleton hs
  have hnative := Minimizer.native_of_parse limits (Formula.parse_text hformula.printable)
  obtain ⟨s', hs', ⟨hfolded, -⟩ | ⟨-, text, g, restored, htext, hg, hrestored, rfl⟩⟩ :=
    optimize_eq_some hresult
  all_goals obtain rfl : s = s' := Option.some.inj (Except.ok.inj (hs.symm.trans hs'))
  · rcases hfolded with hmode | hskipped
    · cases hmode
    · exact absurd hskipped hanswer
  · have hminimized : s.formula.minimized limits.clamped = .formula text :=
      Except.ok.inj (hnative.symm.trans htext)
    obtain ⟨terms, hparse, hcover⟩ := Formula.exists_isPrimeCover hformula.printable hminimized
    obtain rfl : Formula.sumOfProducts terms = g := Except.ok.inj (hparse.symm.trans hg)
    have hplain := Formula.plain_toFilter hsound _ (Formula.printable_of_parse hg) hrestored
    have htwo : restored.IsTwoLevel := Formula.isTwoLevel_toFilter_sumOfProducts hsound
      hcover.nonempty hcover.proper hrestored
    exact ⟨htwo.fold, hplain.writable_fold, Filter.admitted_iff.1 hplain.admitted_fold⟩

theorem optimize_native_twoLevel_overlapping :
    overlapping.skeleton {} = .ok (some overlappingSkeleton) ∧
      (Minimizer.native {}).minimize overlappingSkeleton.formula.text ≠ .ok .skipped ∧
      ∃ f', (Optimizer.mk {} (.native {}) .minimize).optimize overlapping = .ok (some f') ∧
        f'.IsTwoLevel ∧ f'.Writable {} ∧ ∃ s', f'.skeleton {} = .ok (some s') := by
  obtain ⟨f', hresult⟩ : ∃ f', (Optimizer.mk {} (.native {}) .minimize).optimize overlapping =
      .ok (some f') :=
    exists_optimize_native skeleton_overlapping (by decide) (t := (· == "v1"))
      (u := fun _ => false) (by decide) (by decide)
  exact ⟨skeleton_overlapping, native_overlapping, f', hresult,
    optimize_native_twoLevel {} {} skeleton_overlapping native_overlapping hresult⟩

end Optimizer

end StreamFilter
