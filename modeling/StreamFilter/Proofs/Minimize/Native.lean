import StreamFilter.Minimize.Native
import StreamFilter.Proofs.Formula.RoundTrip
import StreamFilter.Proofs.Minimize.Exact
import StreamFilter.Proofs.Minimize.Heuristic
set_option autoImplicit false

/-!
# The built-in minimizer answers truly

Formulas over names and formulas over positions have the same values once a point is
read through the list of names.  So what both ways of minimizing establish about
points (`TwoLevel.Represents`) becomes a statement about assignments of names, and the
text of the answer reads back as a formula of the same value.

Each variable has a position (`Formula.position_vars`), so the fault for a variable without
one is never met, and a formula always has an answer (`Formula.answer_eq`).
-/

namespace StreamFilter

namespace Formula

/-! ## Names and positions -/

/-- The point at which the variables have the values of an assignment of names. -/
def pointOf (names : List String) (truth : String → Bool) : UInt64 :=
  Bits.ofTruth fun i => truth (names.getD i "")

theorem has_pointOf {names : List String} {i : Nat} (hi : i < 64) (truth : String → Bool) :
    Bits.has (pointOf names truth) i = truth (names.getD i "") :=
  Bits.has_ofTruth _ hi

variable {f : Formula String}

theorem getElem?_idxOf_vars {x : String} (hx : x ∈ f.occurrences) :
    f.vars[f.vars.idxOf x]? = some x := by
  have hlt : f.vars.idxOf x < f.vars.length := List.idxOf_lt_length_of_mem (mem_vars.2 hx)
  rw [List.getElem?_eq_getElem hlt, List.getElem_idxOf]

theorem getD_idxOf_vars {x : String} (hx : x ∈ f.occurrences) :
    f.vars.getD (f.vars.idxOf x) "" = x := by
  rw [List.getD_eq_getElem?_getD, getElem?_idxOf_vars hx]
  rfl

/-- Positions of variables are positions in the list of names. -/
theorem lt_of_mem_occurrences_indexed {i : Nat} (hi : i ∈ (f.indexed f.vars).occurrences) :
    i < f.vars.length := by
  rw [indexed, occurrences_map, List.mem_map] at hi
  obtain ⟨x, hx, rfl⟩ := hi
  exact List.idxOf_lt_length_of_mem (mem_vars.2 hx)

theorem holds_indexed (hvars : f.vars.length ≤ 64) (truth : String → Bool) :
    (f.indexed f.vars).holds (Bits.has (pointOf f.vars truth)) = f.holds truth := by
  rw [indexed, holds_map]
  refine holds_congr f fun x hx => ?_
  have hlt := List.idxOf_lt_length_of_mem (mem_vars.2 hx)
  rw [Function.comp, has_pointOf (Nat.lt_of_lt_of_le hlt hvars), getD_idxOf_vars hx]

/-- Every point is an assignment of names. -/
theorem holds_indexed_point (point : UInt64) :
    (f.indexed f.vars).holds (Bits.has point) = f.holds fun x => Bits.has point (f.vars.idxOf x) := by
  rw [indexed, holds_map]
  rfl

/-! ## The text of a sum -/

theorem named_sumFormula (names : List String) (cubes : List Cube) :
    (sumFormula cubes).named names = unlessSingle .or ((sumTerms cubes).map (named names)) := by
  rw [sumFormula, named, map_unlessSingle .or .or fun fs => by rw [map]]
  rfl

theorem named_toFormula (names : List String) (c : Cube) :
    c.toFormula.named names =
      unlessSingle .and ((c.literals.map Cube.literalFormula).map (named names)) := by
  rw [Cube.toFormula, named, map_unlessSingle .and .and fun fs => by rw [map]]
  rfl

theorem printable_named_literal {names : List String} {l : Nat × Bool}
    (hname : isName (names.getD l.1 "") = true) :
    Printable ((Cube.literalFormula l).named names) := by
  obtain ⟨i, positive⟩ := l
  cases positive <;> simpa [Cube.literalFormula, named, map, Printable] using hname

theorem printable_named_toFormula {names : List String} (hnames : ∀ x ∈ names, isName x = true)
    {c : Cube} (hproper : c.care ≠ 0) (hwithin : c.Within names.length) :
    Printable (c.toFormula.named names) := by
  rw [named_toFormula]
  refine printable_unlessSingle (fun fs => by rw [Printable]) ?_ (allPrintable_iff.2 ?_)
  · intro hnil
    rw [List.map_eq_nil_iff, List.map_eq_nil_iff] at hnil
    exact Cube.literals_ne_nil hproper hnil
  · intro g hg
    obtain ⟨h, hh, rfl⟩ := List.mem_map.1 hg
    obtain ⟨⟨i, positive⟩, hl, rfl⟩ := List.mem_map.1 hh
    obtain ⟨hi, hcare, -⟩ := Cube.mem_literals.1 hl
    refine printable_named_literal (hnames _ ?_)
    have hlt := hwithin i hi hcare
    rw [List.getD_eq_getElem?_getD, List.getElem?_eq_getElem hlt]
    exact List.getElem_mem hlt

theorem printable_named_sumFormula {names : List String} (hnames : ∀ x ∈ names, isName x = true)
    {g : Formula Nat} {cubes : List Cube} (h : IsSumOf names.length g cubes) :
    Printable ((sumFormula cubes).named names) := by
  rw [named_sumFormula]
  refine printable_unlessSingle (fun fs => by rw [Printable]) ?_ (allPrintable_iff.2 ?_)
  · intro hnil
    obtain ⟨c, cs, rfl⟩ := List.exists_cons_of_ne_nil h.nonempty
    have hmem : c.toFormula ∈ sumTerms (c :: cs) := mem_sumTerms.2 ⟨c, List.mem_cons_self, rfl⟩
    rw [List.map_eq_nil_iff.1 hnil] at hmem
    exact List.not_mem_nil hmem
  · intro k hk
    obtain ⟨t, ht, rfl⟩ := List.mem_map.1 hk
    obtain ⟨c, hc, rfl⟩ := mem_sumTerms.1 ht
    exact printable_named_toFormula hnames (h.proper c hc) (h.within c hc)

theorem mem_of_mem_occurrences_named {names : List String} {g : Formula Nat} {cubes : List Cube}
    (h : IsSumOf names.length g cubes) {x : String}
    (hx : x ∈ ((sumFormula cubes).named names).occurrences) : x ∈ names := by
  rw [named, occurrences_map, List.mem_map] at hx
  obtain ⟨i, hi, rfl⟩ := hx
  obtain ⟨hlt, c, hc, hcare⟩ := mem_occurrences_sumFormula hi
  have hin := h.within c hc i hlt hcare
  rw [List.getD_eq_getElem?_getD, List.getElem?_eq_getElem hin]
  exact List.getElem_mem hin

theorem holds_named_sumFormula (hvars : f.vars.length ≤ 64) {cubes : List Cube}
    (h : IsSumOf f.vars.length (f.indexed f.vars) cubes) (truth : String → Bool) :
    ((sumFormula cubes).named f.vars).holds truth = f.holds truth := by
  calc ((sumFormula cubes).named f.vars).holds truth
      = (sumFormula cubes).holds (Bits.has (pointOf f.vars truth)) := by
        rw [named, holds_map]
        refine holds_congr _ fun i hi => ?_
        rw [Function.comp, has_pointOf (mem_occurrences_sumFormula hi).1]
    _ = Cover.holdsAt cubes (pointOf f.vars truth) := holds_sumFormula cubes _
    _ = (f.indexed f.vars).holds (Bits.has (pointOf f.vars truth)) := h.value _
    _ = f.holds truth := holds_indexed hvars truth

/-! ## The two ways of minimizing -/

/-- Every variable has a position. -/
theorem position_vars {x : String} (hx : x ∈ f.occurrences) :
    position f.vars x = .ok (f.vars.idxOf x) := by
  obtain ⟨i, hi⟩ := Option.isSome_iff_exists.1 (List.isSome_idxOf?.2 (mem_vars.2 hx))
  have hplace : f.vars.idxOf x = i := by
    rw [List.idxOf, List.findIdx_eq_getD_findIdx?, ← List.idxOf?, hi, Option.getD_some]
  rw [position, hi, hplace]

/-- The two ways of minimizing take the formula over the positions of its variables. -/
theorem twoLevel_eq (limits : Limits) (f : Formula String) :
    f.twoLevel limits =
      if Limits.mostVariables < f.vars.length then .error .tooMany
      else if f.vars.length ≤ limits.exactVariables then
        .ok (Exact.minimize f.vars.length (f.indexed f.vars))
      else Heuristic.minimize .ok limits.cubes (f.indexed f.vars) := by
  have hnative : Heuristic.minimize (position f.vars) limits.cubes f =
      Heuristic.minimize .ok limits.cubes (f.indexed f.vars) :=
    Heuristic.minimize_map limits.cubes fun x hx => position_vars hx
  rw [twoLevel, ← hnative]

theorem fromLimit_twoLevel (exactVariables : Nat) (hvars : f.vars.length ≤ 64) :
    Heuristic.FromLimit fun cubes => f.twoLevel ⟨exactVariables, cubes⟩ := by
  have hfew : ¬Limits.mostVariables < f.vars.length := Nat.not_lt.2 hvars
  simp only [twoLevel_eq, if_neg hfew]
  split
  · exact Heuristic.fromLimit_ok _
  · exact (Heuristic.fromLimit_cubes true (f.indexed f.vars)).map _

/-- No variable is met that has no position. -/
theorem twoLevel_ne_unindexed (limits : Limits) (f : Formula String) (name : String) :
    f.twoLevel limits ≠ .error (.unindexed name) := by
  by_cases hvars : f.vars.length ≤ Limits.mostVariables
  · exact (fromLimit_twoLevel limits.exactVariables hvars).ne_unindexed limits.cubes name
  · rw [twoLevel_eq, if_pos (Nat.lt_of_not_le hvars)]
    simp

/-- A two-level form comes from one of the two ways of minimizing. -/
theorem twoLevel_cases {limits : Limits} {form : TwoLevel} (h : f.twoLevel limits = .ok form) :
    f.vars.length ≤ 64 ∧ (Exact.minimize f.vars.length (f.indexed f.vars) = form ∨
      Heuristic.minimize .ok limits.cubes (f.indexed f.vars) = .ok form) := by
  rw [twoLevel_eq] at h
  split at h
  · cases h
  next hvars =>
    refine ⟨Nat.le_of_not_lt hvars, ?_⟩
    split at h
    · exact .inl (Except.ok.inj h)
    · exact .inr h

theorem represents_twoLevel {limits : Limits} {form : TwoLevel}
    (h : f.twoLevel limits = .ok form) :
    f.vars.length ≤ 64 ∧ form.Represents f.vars.length (f.indexed f.vars) := by
  obtain ⟨hvars, rfl | hform⟩ := twoLevel_cases h
  · exact ⟨hvars, Exact.represents_minimize hvars fun i hi => lt_of_mem_occurrences_indexed hi⟩
  · exact ⟨hvars,
      Heuristic.represents_minimize hvars (fun i hi => lt_of_mem_occurrences_indexed hi) hform⟩

end Formula

/-! ## The answer -/

/-- What an answer has to say about a formula: that it is constant if and only if it is,
and otherwise a text that reads as an equivalent formula over the same variables. -/
structure Minimized.Settles (f : Formula String) (answer : Minimized) : Prop where
  always_iff : answer = .always ↔ ∀ truth, f.holds truth = true
  never_iff : answer = .never ↔ ∀ truth, f.holds truth = false
  formula : answer ≠ .always → answer ≠ .never → ∃ text g, answer = .formula text ∧
    Formula.parse text = .ok g ∧ (∀ x ∈ g.vars, x ∈ f.vars) ∧
      ∀ truth, g.holds truth = f.holds truth

namespace Formula

variable {f : Formula String} {limits : Limits}

/-- The answer for a formula that has one, and otherwise that the formula is skipped. -/
def minimized (limits : Limits) (f : Formula String) : Minimized :=
  match f.twoLevel limits with
  | .ok .never => .never
  | .ok .always => .always
  | .ok (.sum cubes) => .formula ((sumFormula cubes).named f.vars).text
  | .error _ => .skipped

/-- There is always an answer. -/
theorem answer_eq (limits : Limits) (f : Formula String) :
    f.answer limits = .ok (f.minimized limits) := by
  unfold answer minimized
  cases hform : f.twoLevel limits with
  | ok form => cases form <;> rfl
  | error stop =>
    cases stop with
    | tooMany => rfl
    | unindexed name => exact absurd hform (twoLevel_ne_unindexed limits f name)

theorem settles_minimized (hf : Printable f) (h : f.minimized limits ≠ .skipped) :
    (f.minimized limits).Settles f := by
  unfold minimized at h ⊢
  cases hform : f.twoLevel limits with
  | error stop => simp [hform] at h
  | ok form =>
    obtain ⟨hvars, hrep⟩ := represents_twoLevel hform
    cases form with
    | never =>
      have hfalse : ∀ truth, f.holds truth = false := fun truth => by
        rw [← holds_indexed hvars]
        exact hrep _
      refine ⟨⟨by simp, fun htrue => ?_⟩, ⟨fun _ => hfalse, fun _ => rfl⟩, by simp⟩
      have hboth := htrue fun _ => false
      rw [hfalse] at hboth
      cases hboth
    | always =>
      have htrue : ∀ truth, f.holds truth = true := fun truth => by
        rw [← holds_indexed hvars]
        exact hrep _
      refine ⟨⟨fun _ => htrue, fun _ => rfl⟩, ⟨by simp, fun hfalse => ?_⟩, by simp⟩
      have hboth := hfalse fun _ => false
      rw [htrue] at hboth
      cases hboth
    | sum cubes =>
      have hsum : IsSumOf f.vars.length (f.indexed f.vars) cubes := hrep
      have hnames : ∀ x ∈ f.vars, isName x = true := fun x hx =>
        isName_of_mem_occurrences f hf (mem_vars.1 hx)
      refine ⟨⟨by simp, fun htrue => ?_⟩, ⟨by simp, fun hfalse => ?_⟩, fun _ _ => ?_⟩
      · obtain ⟨point, hpoint⟩ := hsum.fails
        rw [holds_indexed_point, htrue] at hpoint
        cases hpoint
      · obtain ⟨point, hpoint⟩ := hsum.holds
        rw [holds_indexed_point, hfalse] at hpoint
        cases hpoint
      · refine ⟨_, (sumFormula cubes).named f.vars, rfl,
          parse_text (printable_named_sumFormula hnames hsum), ?_,
          holds_named_sumFormula hvars hsum⟩
        intro x hx
        exact mem_of_mem_occurrences_named hsum (mem_vars.1 hx)

theorem minimized_of_many_vars (h : 64 < f.vars.length) : f.minimized limits = .skipped := by
  have hform : f.twoLevel limits = .error .tooMany := if_pos h
  rw [minimized, hform]

theorem minimized_ne_skipped_of_twoLevel {form : TwoLevel} (h : f.twoLevel limits = .ok form) :
    f.minimized limits ≠ .skipped := by
  rw [minimized, h]
  cases form with
  | never | always | sum => simp

/-- A formula with few variables is not skipped. -/
theorem minimized_ne_skipped (h : f.vars.length ≤ limits.exactVariables)
    (hvars : f.vars.length ≤ Limits.mostVariables) : f.minimized limits ≠ .skipped := by
  have hform : f.twoLevel limits = .ok (Exact.minimize f.vars.length (f.indexed f.vars)) := by
    rw [twoLevel_eq, if_neg (Nat.not_lt.2 hvars), if_pos h]
  exact minimized_ne_skipped_of_twoLevel hform

end Formula

namespace Minimizer

theorem native_of_parse (limits : Limits) {text : String} {f : Formula String}
    (h : Formula.parse text = .ok f) :
    (native limits).minimize text = .ok (f.minimized limits.clamped) := by
  simp [native, h, bind, Except.bind, Formula.answer_eq]

/-- The built-in minimizer fails on the texts that do not read as a formula, and with the
same fault.  For a formula it has an answer: each variable has a position, below 64 unless
there are too many variables, and if the formula is not skipped then the answer settles it. -/
theorem native_minimize (limits : Limits) (text : String) :
    match Formula.parse text with
    | .error e => (native limits).minimize text = .error e
    | .ok f => ∃ answer, (native limits).minimize text = .ok answer ∧
        (∀ x ∈ f.occurrences, f.vars[f.vars.idxOf x]? = some x) ∧
        (64 < f.vars.length → answer = .skipped) ∧
        (f.vars.length ≤ 64 → ∀ i ∈ (f.indexed f.vars).occurrences, i < 64) ∧
        (answer ≠ .skipped → answer.Settles f) := by
  cases hparse : Formula.parse text with
  | error e => simp [native, hparse, bind, Except.bind]
  | ok f =>
    refine ⟨f.minimized limits.clamped, native_of_parse limits hparse,
      fun x hx => Formula.getElem?_idxOf_vars hx, Formula.minimized_of_many_vars, ?_,
      Formula.settles_minimized (Formula.printable_of_parse hparse)⟩
    intro hvars i hi
    exact Nat.lt_of_lt_of_le (Formula.lt_of_mem_occurrences_indexed hi) hvars

end Minimizer

end StreamFilter
