import StreamFilter.Proofs.Filter.Writing
import StreamFilter.Proofs.Outcomes
set_option autoImplicit false

/-!
# Which results of optimizing can be written

Filters that are put together from an answer of a minimizer are plain: they have a
skeleton, and folding understands all of them.  So minimized filters can always be
written.  Where the given filter is folded instead, parts of it stay that extraction has
not looked at, and whether the result can be written is up to them
(`Optimizer.optimize_native_writable_iff`).
-/

namespace StreamFilter

namespace Filter

/-- An admitted filter that folding takes for what it is, leaving no part untouched. -/
structure Plain (v : Vocabulary) (f : Filter) : Prop where
  admitted : admitted v f = true
  asFolded : ∀ negated parent, f.asFolded negated parent = f
  remains : ∀ negated parent, f.remains negated parent = []

variable {v : Vocabulary} {f : Filter}

theorem Plain.parenthesized (h : f.Plain v) : f.parenthesized.Plain v where
  admitted := by
    unfold Filter.parenthesized
    split
    · exact ((Reading.admission v).value_group f).trans h.admitted
    · exact h.admitted
  asFolded negated parent := by
    unfold Filter.parenthesized
    split
    · rw [Filter.asFolded, h.asFolded]
    · exact h.asFolded negated parent
  remains negated parent := by rw [remains_parenthesized, h.remains]

theorem Plain.not (h : f.Plain v) : (not [f]).Plain v where
  admitted := ((Reading.admission v).value_not_singleton f).trans h.admitted
  asFolded negated parent := by rw [Filter.asFolded, h.asFolded]
  remains negated parent := by rw [Filter.remains, h.remains]

theorem plain_join {c : Connective} {fs : List Filter} (hlen : 2 ≤ fs.length)
    (hfs : ∀ f ∈ fs, f.Plain v) : (c.join fs).Plain v where
  admitted := by
    rw [admitted_join c hlen, Connective.value, List.all_eq_true]
    exact fun f hf => (hfs f hf).admitted
  asFolded negated parent := by
    rw [asFolded_join, List.map_congr_left fun f hf => (hfs f hf).asFolded _ _, List.map_id']
  remains negated parent := by
    rw [remains_join, List.flatMap_eq_nil_iff]
    exact fun f hf => (hfs f hf).remains _ _

/-- A folded plain filter is admitted. -/
theorem Plain.admitted_fold (h : f.Plain v) : f.fold.admitted v = true := by
  have hvalue : f.fold.admitted v = (f.asFolded false none).admitted v :=
    (folds_of_regular f (regular_of_admitted f h.admitted)).value_fold (.admission v) rfl
  rw [hvalue, h.asFolded, h.admitted]

/-- A folded plain filter can be written. -/
theorem Plain.writable_fold (h : f.Plain v) : f.fold.Writable v := by
  rw [writable_fold_iff h.admitted, h.remains]
  exact fun _ hg => by cases hg

end Filter

theorem Variable.IsAtom.plain {v : Vocabulary} {x : Variable} (h : x.IsAtom v) :
    x.stated.Plain v ∧ x.denied.Plain v := by
  obtain ⟨hstated, hdenied⟩ | ⟨t, -, htarget, hoperator, -, hstated, hdenied⟩ := h
  · have hraw : (Filter.raw x.text).Plain v :=
      ⟨by rw [Filter.admitted], Filter.asFolded_of_isKept rfl, fun _ _ => by rw [Filter.remains]⟩
    rw [hstated, hdenied]
    exact ⟨hraw, hraw.not⟩
  · have hadmitted : (Filter.triple? (Filter.ofTriple t)).any (·.admitted v) = true := by
      simp [Triple.admitted, htarget, hoperator]
    rw [hstated, hdenied]
    refine ⟨⟨?_, Filter.asFolded_node .plain t, fun _ _ => Filter.remains_node .plain t⟩,
      ⟨?_, Filter.asFolded_node .negated t, fun _ _ => Filter.remains_node .negated t⟩⟩
    · rw [Filter.admitted, hadmitted]
    · rw [Filter.admitted, if_pos (Filter.startsWithTarget_ofTriple t), hadmitted]

namespace Formula

variable {v : Vocabulary} {vs : Variables}

mutual

/-- The filter for a printable formula is plain. -/
theorem plain_toFilter (hvs : vs.Sound v) : ∀ (f : Formula String) {g : Filter}, Printable f →
    toFilter vs f = .ok g → g.Plain v
  | var name, g, _, h => by
    rw [toFilter] at h
    obtain ⟨x, hx, h⟩ := exists_of_bind_eq_ok h
    rw [← Except.ok.inj h]
    exact (isAtom_of_lookup hvs hx).plain.1
  | not (var name), g, _, h => by
    rw [toFilter] at h
    obtain ⟨x, hx, h⟩ := exists_of_bind_eq_ok h
    rw [← Except.ok.inj h]
    exact (isAtom_of_lookup hvs hx).plain.2
  | not (not f), g, hf, h => by
    rw [Printable] at hf
    obtain ⟨part, hpart, rfl⟩ := toFilter_not_eq_ok (by simp) h
    exact (plain_toFilter hvs (not f) hf hpart).parenthesized.not
  | not (and fs), g, hf, h => by
    rw [Printable] at hf
    obtain ⟨part, hpart, rfl⟩ := toFilter_not_eq_ok (by simp) h
    exact (plain_toFilter hvs (and fs) hf hpart).parenthesized.not
  | not (or fs), g, hf, h => by
    rw [Printable] at hf
    obtain ⟨part, hpart, rfl⟩ := toFilter_not_eq_ok (by simp) h
    exact (plain_toFilter hvs (or fs) hf hpart).parenthesized.not
  | and fs, g, hf, h => by
    rw [Printable] at hf
    rw [toFilter] at h
    obtain ⟨gs, hgs, h⟩ := exists_of_bind_eq_ok h
    obtain ⟨hlen, hplain⟩ := plain_toFilters hvs fs hf.2 hgs
    rw [← Except.ok.inj h]
    exact Filter.plain_join (c := .and) (hlen ▸ hf.1) hplain
  | or fs, g, hf, h => by
    rw [Printable] at hf
    rw [toFilter] at h
    obtain ⟨gs, hgs, h⟩ := exists_of_bind_eq_ok h
    obtain ⟨hlen, hplain⟩ := plain_toFilters hvs fs hf.2 hgs
    rw [← Except.ok.inj h]
    exact Filter.plain_join (c := .or) (hlen ▸ hf.1) hplain

theorem plain_toFilters (hvs : vs.Sound v) : ∀ (fs : List (Formula String)) {gs : List Filter},
    AllPrintable fs → toFilters vs fs = .ok gs → fs.length = gs.length ∧ ∀ g ∈ gs, g.Plain v
  | [], gs, _, h => by
    rw [toFilters] at h
    rw [← Except.ok.inj h]
    exact ⟨rfl, fun _ hg => by cases hg⟩
  | f :: fs, gs, hfs, h => by
    rw [AllPrintable] at hfs
    rw [toFilters] at h
    obtain ⟨first, hfirst, h⟩ := exists_of_bind_eq_ok h
    obtain ⟨others, hothers, h⟩ := exists_of_bind_eq_ok h
    obtain ⟨hlen, hplain⟩ := plain_toFilters hvs fs hfs.2 hothers
    rw [← Except.ok.inj h]
    refine ⟨by rw [List.length_cons, List.length_cons, hlen], List.forall_mem_cons.2 ⟨?_, hplain⟩⟩
    exact (plain_toFilter hvs f hfs.1 hfirst).parenthesized

end

end Formula

namespace Optimizer

/-- A result can be written if it comes from an answer of the minimizer.  If it is the
folded filter, then it can be written exactly if those of its parts can that folding leaves
as they are; if there are none, it can. -/
theorem optimize_native_writable_iff (v : Vocabulary) (limits : Limits) (mode : Mode)
    {f f' : Filter} (h : (Optimizer.mk v (.native limits) mode).optimize f = .ok (some f')) :
    ∃ s, f.skeleton v = .ok (some s) ∧
      (f'.Writable v ↔
        (mode = .minimize ∧ (Minimizer.native limits).minimize s.formula.text ≠ .ok .skipped) ∨
          ∀ g ∈ f.remains false none, g.Writable v) := by
  obtain ⟨s, hs, ⟨hfolded, rfl⟩ | ⟨hmode, text, g, restored, hanswer, hg, hrestored, rfl⟩⟩ :=
    optimize_eq_some h
  · refine ⟨s, hs, ?_⟩
    rw [Filter.writable_fold_iff (Filter.admitted_iff.2 ⟨s, hs⟩)]
    refine (or_iff_right ?_).symm
    rintro ⟨rfl, hminimized⟩
    rcases hfolded with hmode | hskipped
    · cases hmode
    · exact hminimized hskipped
  · have hsound := (Filter.describes_of_skeleton hs).1
    have hplain := Formula.plain_toFilter hsound g (Formula.printable_of_parse hg) hrestored
    refine ⟨s, hs, iff_of_true hplain.writable_fold (.inl ⟨hmode, ?_⟩)⟩
    rw [hanswer]
    simp

/-- A group whose second child has an unknown target. -/
def crowded : Filter :=
  .group [.raw "a", .condition (Filter.ofTriple (.containing "bogus.target" "x"))]

/-- Its skeleton. -/
def crowdedSkeleton : Skeleton :=
  ⟨.var "v1", .registered [⟨"a", .raw "a", .not [.raw "a"]⟩]⟩

theorem not_writable_crowded : ¬crowded.Writable {} := by
  rintro ⟨text, h⟩
  have hfault : crowded.csdl {} = .error (.unknownTarget "bogus.target") := by rfl
  rw [hfault] at h
  cases h

/-- In fold-only mode it has a result that cannot be written. -/
theorem optimize_native_writable_iff_crowded :
    ∃ f', (Optimizer.mk {} (.native {}) .foldOnly).optimize crowded = .ok (some f') ∧
      ¬f'.Writable {} := by
  have hs : crowded.skeleton {} = .ok (some crowdedSkeleton) := rfl
  have hresult : (Optimizer.mk {} (.native {}) .foldOnly).optimize crowded =
      .ok (some crowded.fold) := optimize_foldOnly hs
  obtain ⟨s, -, hwritable⟩ := optimize_native_writable_iff {} {} .foldOnly hresult
  refine ⟨crowded.fold, hresult, fun h => ?_⟩
  obtain ⟨hmode, -⟩ | hparts := hwritable.1 h
  · cases hmode
  · exact not_writable_crowded (hparts crowded (by decide))

end Optimizer

end StreamFilter
