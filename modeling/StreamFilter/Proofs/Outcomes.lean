import StreamFilter.Proofs.Faults
import StreamFilter.Proofs.Optimize
set_option autoImplicit false

/-!
# What optimizing ends in

The optimizer takes a minimizer at its word.  An answer that reads as a formula over the
variables of the filter gives a filter of that formula's value, and any other text is a
fault of the text (`Optimizer.optimize_of_any_answer`).  With the built-in minimizer such a
fault cannot occur, so only filters are ever at fault, and the same ones in both modes
(`Optimizer.optimize_native_blame`).
-/

namespace StreamFilter

/-- A name is found in a table exactly if a variable has it. -/
theorem Variables.exists_find?_iff {vs : Variables} {name : String} :
    (∃ x, vs.find? name = some x) ↔ ∃ x ∈ vs.entries, x.name = name := by
  rw [← Option.isSome_iff_exists, find?_eq, List.find?_isSome]
  simp only [beq_iff_eq]

namespace Optimizer

variable {v : Vocabulary} {minimizer : Minimizer} {mode : Mode} {f : Filter} {s : Skeleton}
  {e : Fault}

/-! ## The steps of optimizing -/

theorem optimize_of_fault (hs : f.skeleton v = .error e) :
    (Optimizer.mk v minimizer mode).optimize f = .error e := by
  simp only [optimize, hs, bind, Except.bind]

theorem optimize_of_terminal (hs : f.skeleton v = .ok none) :
    (Optimizer.mk v minimizer mode).optimize f = .ok none := by
  simp only [optimize, hs, bind, Except.bind]
  rfl

theorem optimize_foldOnly (hs : f.skeleton v = .ok (some s)) :
    (Optimizer.mk v minimizer .foldOnly).optimize f = .ok (some f.fold) := by
  simp only [optimize, hs, bind, Except.bind]
  rfl

theorem optimize_of_minimizer_fault (hs : f.skeleton v = .ok (some s))
    (hanswer : minimizer.minimize s.formula.text = .error e) :
    (Optimizer.mk v minimizer .minimize).optimize f = .error e := by
  simp only [optimize, hs, hanswer, bind, Except.bind]

/-- A result is either the folded filter, without or in spite of minimizing, or what is
folded is the filter for an answer of the minimizer. -/
theorem optimize_eq_some {f' : Filter}
    (h : (Optimizer.mk v minimizer mode).optimize f = .ok (some f')) :
    ∃ s, f.skeleton v = .ok (some s) ∧
      ((mode = .foldOnly ∨ minimizer.minimize s.formula.text = .ok .skipped) ∧ f' = f.fold ∨
        mode = .minimize ∧ ∃ text g restored,
          minimizer.minimize s.formula.text = .ok (.formula text) ∧
            Formula.parse text = .ok g ∧ g.toFilter s.table = .ok restored ∧
              f' = restored.fold) := by
  cases hs : f.skeleton v with
  | error e =>
    rw [optimize_of_fault hs] at h
    cases h
  | ok skeleton =>
    cases skeleton with
    | none =>
      rw [optimize_of_terminal hs] at h
      cases h
    | some s =>
      refine ⟨s, rfl, ?_⟩
      cases mode with
      | foldOnly =>
        rw [optimize_foldOnly hs] at h
        cases h
        exact .inl ⟨.inl rfl, rfl⟩
      | minimize =>
        cases hanswer : minimizer.minimize s.formula.text with
        | error e =>
          rw [optimize_of_minimizer_fault hs hanswer] at h
          cases h
        | ok answer =>
          rw [optimize_of_answer hs hanswer] at h
          cases answer with
          | always | never => cases h
          | skipped =>
            cases h
            exact .inl ⟨.inr rfl, rfl⟩
          | formula text =>
            obtain ⟨_, hrebuild, hfold⟩ := exists_of_map_eq_ok h
            obtain ⟨restored, hrestore, rfl⟩ := exists_of_map_eq_ok hrebuild
            obtain ⟨g, hg, hrestored⟩ := exists_of_bind_eq_ok hrestore
            exact .inr ⟨rfl, text, g, restored, rfl, hg, hrestored,
              (Option.some.inj hfold).symm⟩

/-! ## Any minimizer -/

/-- If conditions cannot be put back into an answer, the result is that fault. -/
theorem optimize_of_restore_error (hs : f.skeleton v = .ok (some s)) {text : String}
    (hanswer : minimizer.minimize s.formula.text = .ok (.formula text))
    (hrestore : Formula.restore s.table text = .error e) :
    (Optimizer.mk v minimizer .minimize).optimize f = .error e := by
  rw [optimize_of_answer hs hanswer, rebuild, hrestore]
  rfl

/-- Let a minimizer answer with a text.  If the text does not read as a formula, or if a
variable of the formula is not one of the filter's, then the result is that fault.
Otherwise there is a result, and for every set of atoms it has the value of the formula in
which each variable is true exactly if its atom is in the set. -/
theorem optimize_of_any_answer (v : Vocabulary) (minimizer : Minimizer) {f : Filter}
    {s : Skeleton} (hs : f.skeleton v = .ok (some s)) {text : String}
    (hanswer : minimizer.minimize s.formula.text = .ok (.formula text)) :
    let result := (Optimizer.mk v minimizer .minimize).optimize f
    (∀ e, Formula.parse text = .error e →
      result = .error e ∧ ∃ offset detail, e = .unreadable offset detail) ∧
    ∀ g, Formula.parse text = .ok g →
      ((∃ name ∈ g.vars, ∀ x ∈ s.table.entries, x.name ≠ name) →
        ∃ name ∈ g.vars, (∀ x ∈ s.table.entries, x.name ≠ name) ∧
          result = .error (.unreadable 0 ("unknown variable " ++ name))) ∧
      ((∀ name ∈ g.vars, ∃ x ∈ s.table.entries, x.name = name) →
        ∃ f', result = .ok (some f') ∧ ∀ atoms : Std.HashSet String,
          f'.holds atoms.contains = g.holds (s.table.truth atoms.contains)) := by
  have hsound := (Filter.describes_of_skeleton hs).1
  refine ⟨fun e he => ⟨?_, ?_⟩, fun g hg => ⟨?_, ?_⟩⟩
  · apply optimize_of_restore_error hs hanswer
    rw [Formula.restore, he]
    rfl
  · exact Fault.isUnreadable_iff.1 (Formula.failsOnly_parse text e he)
  · rintro ⟨name, hname, hmissing⟩
    have hunknown : Formula.firstUnknown? s.table g.occurrences ≠ none := by
      intro hnone
      obtain ⟨x, hx, hxname⟩ := Variables.exists_find?_iff.1
        (Formula.firstUnknown?_eq_none.1 hnone name (Formula.mem_vars.1 hname))
      exact hmissing x hx hxname
    obtain ⟨unknown, hfirst⟩ := Option.ne_none_iff_exists'.1 hunknown
    refine ⟨unknown, Formula.mem_vars.2 (List.mem_of_find?_eq_some hfirst), ?_, ?_⟩
    · intro x hx hxname
      obtain ⟨y, hy⟩ := Variables.exists_find?_iff.2 ⟨x, hx, hxname⟩
      rw [Formula.find?_of_firstUnknown? hfirst] at hy
      cases hy
    · apply optimize_of_restore_error hs hanswer
      rw [Formula.restore, hg]
      exact Formula.toFilter_of_unknown hsound g hfirst
  · intro hknown
    obtain ⟨f', hresult, hvalue⟩ := optimize_of_formula hs hanswer hg fun name hname =>
      Variables.exists_find?_iff.2 (hknown name (Formula.mem_vars.2 hname))
    exact ⟨f', hresult, fun atoms => hvalue atoms.contains⟩

/-- A minimizer that answers every formula with one text. -/
def obstinate (text : String) : Minimizer := ⟨"obstinate", fun _ => .ok (.formula text)⟩

/-- A formula in which verbatim text is negated twice and a word of a list once. -/
def contrary : Formula String :=
  .not (.or [.not (.not (.not (.var "v3"))), .not (.var "v2"), .and [.var "v1", .var "v3"]])

/-- Its text. -/
def contraryText : String := "Not(Or(Not(Not(Not(v3))), Not(v2), And(v1, v3)))"

theorem parse_contraryText : Formula.parse contraryText = .ok contrary := by
  have hprintable : Formula.Printable contrary := by
    simp only [contrary, Formula.Printable, Formula.AllPrintable, List.length_cons,
      List.length_nil]
    decide
  have htext : contrary.text = contraryText := rfl
  rw [← htext]
  exact Formula.parse_text hprintable

theorem optimize_of_any_answer_contrary :
    overlapping.skeleton {} = .ok (some overlappingSkeleton) ∧
      (obstinate contraryText).minimize overlappingSkeleton.formula.text =
        .ok (.formula contraryText) ∧
      Formula.parse contraryText = .ok contrary ∧
      ∃ f', (Optimizer.mk {} (obstinate contraryText) .minimize).optimize overlapping =
          .ok (some f') ∧
        ∀ atoms : Std.HashSet String, f'.holds atoms.contains =
          contrary.holds (overlappingSkeleton.table.truth atoms.contains) :=
  ⟨skeleton_overlapping, rfl, parse_contraryText,
    ((optimize_of_any_answer {} (obstinate contraryText) skeleton_overlapping rfl).2 contrary
      parse_contraryText).2 (by decide)⟩

/-! ## The built-in minimizer -/

/-- A filter with a skeleton fails to be minimized only if it never holds. -/
theorem eq_neverMatches_of_optimize_native {limits : Limits} (hs : f.skeleton v = .ok (some s))
    (h : (Optimizer.mk v (.native limits) .minimize).optimize f = .error e) :
    e = .neverMatches := by
  obtain ⟨-, hformula⟩ := Filter.describes_of_skeleton hs
  have hnative := Minimizer.native_of_parse limits (Formula.parse_text hformula.printable)
  have hresult := optimize_of_answer hs hnative
  rw [h] at hresult
  cases hanswer : s.formula.minimized limits.clamped with
  | always | skipped =>
    rw [hanswer] at hresult
    cases hresult
  | never =>
    rw [hanswer] at hresult
    exact Except.error.inj hresult
  | formula text =>
    have hsettles : (s.formula.minimized limits.clamped).Settles s.formula :=
      Formula.settles_minimized hformula.printable (by rw [hanswer]; simp)
    rw [hanswer] at hsettles hnative
    obtain ⟨_, g, htext, hg, hvars, -⟩ := hsettles.formula (by simp) (by simp)
    obtain rfl := Minimized.formula.inj htext
    obtain ⟨f', hf', -⟩ := optimize_of_formula hs hnative hg fun name hname =>
      hformula.known name (Formula.mem_vars.1 (hvars name (Formula.mem_vars.2 hname)))
    rw [h] at hf'
    cases hf'

theorem skeleton_eq_none_iff : f.skeleton v = .ok none ↔ f.kind.isTerminal = true := by
  unfold Filter.skeleton
  split
  next hterminal => simp [hterminal]
  next hboolean =>
    refine iff_of_false (fun h => ?_) hboolean
    obtain ⟨_, -, h⟩ := exists_of_bind_eq_ok h
    cases h

/-- With the built-in minimizer every fault blames the filter, and both modes find the same
faults, except that only minimizing finds that a filter never holds.  In fold-only mode
there is no result exactly for the parts of conditions. -/
theorem optimize_native_blame (v : Vocabulary) (limits : Limits) (f : Filter) :
    (∀ mode e, (Optimizer.mk v (.native limits) mode).optimize f = .error e →
      e.blamesFilter = true) ∧
    (∀ e, (Optimizer.mk v (.native limits) .foldOnly).optimize f = .error e ↔
      (Optimizer.mk v (.native limits) .minimize).optimize f = .error e ∧ e ≠ .neverMatches) ∧
    ((Optimizer.mk v (.native limits) .foldOnly).optimize f = .ok none ↔
      f.kind.isTerminal = true) := by
  rw [← skeleton_eq_none_iff (v := v)]
  cases hs : f.skeleton v with
  | error e =>
    obtain ⟨hblames, hnever⟩ := Fault.isStructural_iff.1 (Filter.failsOnly_skeleton v f e hs)
    refine ⟨fun mode e' he => ?_, fun e' => ?_, by simp [optimize_of_fault hs]⟩
    · rw [optimize_of_fault hs] at he
      rw [← Except.error.inj he]
      exact hblames
    · rw [optimize_of_fault hs, optimize_of_fault hs]
      refine ⟨fun he => ⟨he, ?_⟩, And.left⟩
      rw [← Except.error.inj he]
      exact hnever
  | ok skeleton =>
    cases skeleton with
    | none => simp [optimize_of_terminal hs]
    | some s =>
      refine ⟨fun mode e he => ?_, fun e => ?_, ?_⟩
      · cases mode with
        | minimize => rw [eq_neverMatches_of_optimize_native hs he]; rfl
        | foldOnly => rw [optimize_foldOnly hs] at he; cases he
      · rw [optimize_foldOnly hs]
        refine iff_of_false (by simp) fun ⟨he, hne⟩ => ?_
        exact hne (eq_neverMatches_of_optimize_native hs he)
      · simp [optimize_foldOnly hs]

end Optimizer

end StreamFilter
