import StreamFilter.Proofs.Minimize.Native
set_option autoImplicit false

/-!
# The limit on cubes

The limit is tested many times while a formula is multiplied out, but every test only stops
the work or lets it go on (`Heuristic.fromLimit_cubes`).  So a text has one answer, which is
given from some limit on, and below that limit its formula is skipped
(`Minimizer.exists_native_limit`).  A larger limit never changes an answer
(`Minimizer.native_minimize_of_le`).
-/

namespace StreamFilter

namespace Formula

variable {f : Formula String}

/-- A formula that does not have too many variables has one answer, from some limit on. -/
theorem exists_minimized_limit (exactVariables : Nat) (hvars : f.vars.length ≤ 64) :
    ∃ answer least, answer ≠ .skipped ∧ ∀ cubes,
      f.minimized ⟨exactVariables, cubes⟩ = if least ≤ cubes then answer else .skipped := by
  obtain ⟨form, least, hform⟩ := fromLimit_twoLevel exactVariables hvars
  dsimp only at hform
  have hleast : f.twoLevel ⟨exactVariables, least⟩ = .ok form := by
    rw [hform, if_pos (Nat.le_refl least)]
  refine ⟨f.minimized ⟨exactVariables, least⟩, least, minimized_ne_skipped_of_twoLevel hleast,
    fun cubes => ?_⟩
  by_cases hle : least ≤ cubes
  · rw [if_pos hle, minimized, minimized, hleast, hform, if_pos hle]
  · rw [if_neg hle, minimized, hform, if_neg hle]

end Formula

/-! ## A formula of two cubes -/

/-- Two positive literals are two cubes, and neither absorbs the other. -/
theorem Heuristic.cubes_disjunction (limit : Nat) :
    cubes .ok (limit + 1) true (.or [.var 0, .var 1]) =
      within (limit + 1) [Cube.literal 0 true, Cube.literal 1 true] := by
  have hsorted : ([Cube.literal 0 true, Cube.literal 1 true].map Cube.sized).Pairwise
      fun a b => Cube.sizedLe a b = true := by decide
  have habsorb : Cover.absorb [Cube.literal 0 true, Cube.literal 1 true] =
      [Cube.literal 0 true, Cube.literal 1 true] := by
    rw [Cover.absorb, ascending, List.mergeSort_of_pairwise hsorted]
    decide
  simp [cubes, added, within, habsorb, bind, Except.bind]

namespace Formula

/-- The sum of two variables. -/
def disjunction : Formula String := .or [.var "v1", .var "v2"]

theorem parse_disjunction : parse "Or(v1, v2)" = .ok disjunction := by
  have hprintable : Printable disjunction := by
    simp only [disjunction, Printable, AllPrintable, List.length_cons, List.length_nil]
    decide
  have htext : disjunction.text = "Or(v1, v2)" := rfl
  rw [← htext]
  exact parse_text hprintable

theorem twoLevel_disjunction (cubes : Nat) :
    disjunction.twoLevel ⟨0, cubes⟩ = Heuristic.minimize .ok cubes (.or [.var 0, .var 1]) :=
  twoLevel_eq ⟨0, cubes⟩ disjunction

theorem minimized_disjunction_one : disjunction.minimized ⟨0, 1⟩ = .skipped := by
  rw [minimized, twoLevel_disjunction, Heuristic.minimize, Heuristic.cubes_disjunction 0]
  rfl

theorem minimized_disjunction_two : disjunction.minimized ⟨0, 2⟩ ≠ .skipped := by
  apply minimized_ne_skipped_of_twoLevel
  rw [twoLevel_disjunction, Heuristic.minimize, Heuristic.cubes_disjunction 1]
  rfl

end Formula

/-! ## The answer -/

namespace Minimizer

/-- The built-in minimizer has one answer for a text.  It is given from some limit on the
cubes on, and is to skip the formula only if that has too many variables. -/
theorem exists_native_limit (exactVariables : Nat) (text : String) :
    ∃ answer least,
      (answer = .ok .skipped ↔ ∃ f, Formula.parse text = .ok f ∧ 64 < f.vars.length) ∧
      ∀ cubes, (native ⟨exactVariables, cubes⟩).minimize text =
        if least ≤ cubes then answer else .ok .skipped := by
  cases hparse : Formula.parse text with
  | error e =>
    refine ⟨.error e, 0, by simp, fun cubes => ?_⟩
    simp [native, hparse, bind, Except.bind]
  | ok f =>
    simp only [native_of_parse _ hparse]
    by_cases hmany : 64 < f.vars.length
    · refine ⟨.ok .skipped, 0, iff_of_true rfl ⟨f, rfl, hmany⟩, fun cubes => ?_⟩
      rw [Formula.minimized_of_many_vars hmany, ite_self]
    · obtain ⟨answer, least, hanswer, hminimized⟩ :=
        Formula.exists_minimized_limit (min exactVariables Limits.mostExact) (Nat.not_lt.1 hmany)
      -- a limit of 0 is read as 1, so an answer that needs one cube is always given
      refine ⟨.ok answer, if least ≤ 1 then 0 else least, ?_, fun cubes => ?_⟩
      · refine iff_of_false (fun hskipped => hanswer (Except.ok.inj hskipped)) ?_
        rintro ⟨g, hg, hvars⟩
        exact hmany (Except.ok.inj hg ▸ hvars)
      · have hclamped : least ≤ max cubes 1 ↔ (if least ≤ 1 then 0 else least) ≤ cubes := by
          split <;> omega
        rw [Limits.clamped, hminimized, apply_ite Except.ok]
        simp only [hclamped]

/-- The limit on cubes decides whether a formula is answered, and never how: an answer stays
the same under every larger limit.  From some limit on only a formula with too many variables
is skipped, and below it the formula is skipped in any case. -/
theorem native_minimize_of_le (exactVariables : Nat) (text : String) :
    (∀ cubes more, cubes ≤ more →
      (native ⟨exactVariables, cubes⟩).minimize text ≠ .ok .skipped →
      (native ⟨exactVariables, more⟩).minimize text =
        (native ⟨exactVariables, cubes⟩).minimize text) ∧
    ∃ least, ∀ cubes, (native ⟨exactVariables, cubes⟩).minimize text = .ok .skipped ↔
      cubes < least ∨ ∃ f, Formula.parse text = .ok f ∧ 64 < f.vars.length := by
  obtain ⟨answer, least, hskipped, hminimize⟩ := exists_native_limit exactVariables text
  simp only [hminimize]
  constructor
  · intro cubes more hle hanswer
    have hleast : least ≤ cubes := Decidable.of_not_not fun hnot => hanswer (if_neg hnot)
    rw [if_pos hleast, if_pos (Nat.le_trans hleast hle)]
  · refine ⟨least, fun cubes => ?_⟩
    rw [← hskipped]
    split
    next hleast => simp [Nat.not_lt.2 hleast]
    next hleast => simp [Nat.lt_of_not_le hleast]

/-- The sum of two variables is skipped when one cube is allowed, and has one answer from two
cubes on. -/
theorem native_minimize_of_le_disjunction :
    (native ⟨0, 1⟩).minimize "Or(v1, v2)" = .ok .skipped ∧
      (native ⟨0, 2⟩).minimize "Or(v1, v2)" ≠ .ok .skipped ∧
      (native ⟨0, 4096⟩).minimize "Or(v1, v2)" = (native ⟨0, 2⟩).minimize "Or(v1, v2)" := by
  have htwo : (native ⟨0, 2⟩).minimize "Or(v1, v2)" ≠ .ok .skipped := by
    rw [native_of_parse _ Formula.parse_disjunction]
    exact fun h => Formula.minimized_disjunction_two (Except.ok.inj h)
  refine ⟨?_, htwo, (native_minimize_of_le 0 "Or(v1, v2)").1 2 4096 (by decide) htwo⟩
  rw [native_of_parse _ Formula.parse_disjunction]
  exact congrArg Except.ok Formula.minimized_disjunction_one

end Minimizer

end StreamFilter
