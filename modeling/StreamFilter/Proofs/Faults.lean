import StreamFilter.Proofs.Fault
import StreamFilter.Proofs.Skeleton.Restore
set_option autoImplicit false

/-!
# Where faults come from

Each step of optimizing has its own sort of faults.  Reading a formula finds text that does
not read (`Formula.failsOnly_parse`), walking a filter finds what is wrong with the filter
(`Filter.failsOnly_skeleton`), and putting conditions back fails at the first variable that
is not in the table (`Formula.toFilter_of_unknown`).
-/

namespace StreamFilter

namespace Fault

/-- Whether text is to blame that does not read as a formula over known variables. -/
def isUnreadable : Fault → Bool
  | unreadable _ _ => true
  | _ => false

/-- Whether a filter is to blame for its shape or its names. -/
def isStructural (e : Fault) : Bool := e.blamesFilter && e != neverMatches

theorem isUnreadable_iff {e : Fault} :
    e.isUnreadable = true ↔ ∃ offset detail, e = .unreadable offset detail := by
  cases e <;> simp [isUnreadable]

theorem isStructural_iff {e : Fault} :
    e.isStructural = true ↔ e.blamesFilter = true ∧ e ≠ .neverMatches := by
  simp [isStructural]

end Fault

/-! ## Reading formulas -/

namespace Formula

open Fault (isUnreadable)

theorem failsOnly_applyName (name : String) (offset : Nat) (arguments : List (Formula String)) :
    FailsOnly isUnreadable (applyName name offset arguments) := by
  unfold applyName
  dsimp only
  split
  · exact .ok _
  · split
    · exact .ok _
    · split
      · split
        · exact .ok _
        · exact .error rfl
      · exact .error rfl

theorem isUnreadable_unexpected (stop : Nat) (what : String) (ts : List Lexeme) :
    isUnreadable (unexpected stop what ts) = true := by
  cases ts <;> rfl

mutual

theorem failsOnly_readExpr (stop : Nat) (ts : List Lexeme) :
    FailsOnly isUnreadable (readExpr stop ts) := by
  rw [readExpr.eq_def]
  split
  next name offset _ rest =>
    have harguments := failsOnly_readArguments stop rest
    split
    next e he => exact .error (harguments e he)
    next arguments left _ =>
      have happly := failsOnly_applyName name offset arguments
      split
      next e he => exact .error (happly e he)
      next => exact .ok _
  next => exact .ok _
  next => exact .error (isUnreadable_unexpected _ _ _)
termination_by (ts.length, 0)

theorem failsOnly_readArguments (stop : Nat) (ts : List Lexeme) :
    FailsOnly isUnreadable (readArguments stop ts) := by
  have hexpr := failsOnly_readExpr stop ts
  rw [readArguments.eq_def]
  split
  next e he => exact .error (hexpr e he)
  next f _ rest hlt _ =>
    have hshorter : rest.length < ts.length := by
      rw [List.length_cons] at hlt
      omega
    have hrest := failsOnly_readArguments stop rest
    dsimp only
    split
    next e he => exact .error (hrest e he)
    next => exact .ok _
  next => exact .ok _
  next => exact .error (isUnreadable_unexpected _ _ _)
termination_by (ts.length, 1)

end

/-- Text that is no formula is unreadable. -/
theorem failsOnly_parse (text : String) : FailsOnly isUnreadable (parse text) := by
  unfold parse
  split
  · exact .error rfl
  next s _ =>
    unfold ofScanned
    split
    · exact .error rfl
    · have hread := failsOnly_readExpr s.stop s.lexemes
      split
      next e he => exact .error (hread e he)
      next => exact .ok _
      next => exact .error rfl

end Formula

/-! ## Walking filters -/

namespace Filter

open Fault (isStructural)

variable (v : Vocabulary)

theorem failsOnly_requireTwo (parent : Kind) (cs : List Filter) :
    FailsOnly isStructural (requireTwo parent cs) := by
  unfold requireTwo
  split
  · exact .error rfl
  · exact .ok _

theorem failsOnly_requireBoolean (parent : Kind) (f : Filter) :
    FailsOnly isStructural (requireBoolean parent f) := by
  unfold requireBoolean
  split
  · exact .error rfl
  · exact .ok _

theorem failsOnly_requireTriple (kind : Kind) (cs : List Filter) :
    FailsOnly isStructural (requireTriple kind cs) := by
  unfold requireTriple
  split
  · exact .ok _
  · exact .error rfl

theorem failsOnly_csdl_triple (t : Triple) : FailsOnly isStructural (t.csdl v) := by
  unfold Triple.csdl
  split
  · split
    · exact .ok _
    · exact .error rfl
  · exact .error rfl

theorem failsOnly_extractTriple (kind : Kind) (cs : List Filter) (vs : Variables) :
    FailsOnly isStructural (extractTriple v kind cs vs) := by
  unfold extractTriple
  refine (failsOnly_requireTriple kind cs).bind fun t => ?_
  refine (failsOnly_csdl_triple v t).bind fun text => ?_
  split
  · exact .ok _
  · exact .ok _

mutual

theorem failsOnly_extractWith : ∀ (f : Filter) (vs : Variables),
    FailsOnly isStructural (extractWith v f vs)
  | and cs, vs => by
    rw [extractWith]
    refine (failsOnly_requireTwo .and cs).bind fun _ => ?_
    exact (failsOnly_extractAll .and cs vs).bind fun _ => .ok _
  | or cs, vs => by
    rw [extractWith]
    refine (failsOnly_requireTwo .or cs).bind fun _ => ?_
    exact (failsOnly_extractAll .or cs vs).bind fun _ => .ok _
  | not [], vs => by
    rw [extractWith]
    exact .error rfl
  | not (c :: cs), vs => by
    cases hstart : startsWithTarget (c :: cs) with
    | true =>
      rw [extractWith_not_target hstart]
      exact (failsOnly_extractTriple v .not (c :: cs) vs).bind fun _ => .ok _
    | false =>
      rw [extractWith_not hstart]
      refine (failsOnly_requireBoolean .not c).bind fun _ => ?_
      exact (failsOnly_extractWith c vs).bind fun _ => .ok _
  | group [], vs => by
    rw [extractWith]
    exact .error rfl
  | group (c :: cs), vs => by
    rw [extractWith]
    exact (failsOnly_requireBoolean .group c).bind fun _ => failsOnly_extractWith c vs
  | condition cs, vs => by
    rw [extractWith]
    exact failsOnly_extractTriple v .condition cs vs
  | raw text, vs => by
    rw [extractWith]
    exact .ok _
  | target _, _ | operator _, _ | argument _, _ | string _, _ => by
    rw [extractWith]
    exact .error rfl

theorem failsOnly_extractAll : ∀ (parent : Kind) (cs : List Filter) (vs : Variables),
    FailsOnly isStructural (extractAll v parent cs vs)
  | parent, [], vs => by
    rw [extractAll]
    exact .ok _
  | parent, c :: cs, vs => by
    rw [extractAll]
    refine (failsOnly_requireBoolean parent c).bind fun _ => ?_
    refine (failsOnly_extractWith c vs).bind fun r => ?_
    exact (failsOnly_extractAll parent cs r.2).bind fun _ => .ok _

end

/-- A filter without skeleton is to blame for its shape or its names. -/
theorem failsOnly_skeleton (f : Filter) : FailsOnly isStructural (f.skeleton v) := by
  unfold skeleton
  split
  · exact .ok _
  · exact (failsOnly_extractWith v f {}).bind fun _ => .ok _

end Filter

/-! ## Putting conditions back -/

namespace Formula

variable {v : Vocabulary} {vs : Variables}

/-- The fault that a variable is not in the table. -/
def unknownVariable (name : String) : Fault := .unreadable 0 ("unknown variable " ++ name)

/-- The first of some names that is not in a table. -/
def firstUnknown? (vs : Variables) (names : List String) : Option String :=
  names.find? fun name => (vs.find? name).isNone

theorem firstUnknown?_eq_none {names : List String} :
    firstUnknown? vs names = none ↔ ∀ name ∈ names, ∃ x, vs.find? name = some x := by
  simp [firstUnknown?, Option.ne_none_iff_exists']

theorem find?_of_firstUnknown? {names : List String} {name : String}
    (h : firstUnknown? vs names = some name) : vs.find? name = none := by
  simpa using List.find?_some h

theorem firstUnknown?_append (vs : Variables) (names others : List String) :
    firstUnknown? vs (names ++ others) = (firstUnknown? vs names).or (firstUnknown? vs others) :=
  List.find?_append

theorem lookup_of_unknown {name unknown : String} (h : firstUnknown? vs [name] = some unknown) :
    lookup vs name = .error (unknownVariable unknown) := by
  have hname : unknown = name := by simpa using List.mem_of_find?_eq_some h
  rw [lookup, ← hname, find?_of_firstUnknown? h]
  rfl

theorem toFilter_not_of_error {f : Formula String} (hvar : ∀ name, f ≠ var name) {e : Fault}
    (h : toFilter vs f = .error e) : toFilter vs (not f) = .error e := by
  rw [toFilter, h]
  · rfl
  · exact hvar

mutual

/-- Putting conditions back fails at the first variable that is not in the table. -/
theorem toFilter_of_unknown (hvs : vs.Sound v) : ∀ (f : Formula String) {unknown : String},
    firstUnknown? vs f.occurrences = some unknown →
      toFilter vs f = .error (unknownVariable unknown)
  | var name, unknown, h => by
    rw [occurrences] at h
    rw [toFilter, lookup_of_unknown h]
    rfl
  | not (var name), unknown, h => by
    rw [occurrences, occurrences] at h
    rw [toFilter, lookup_of_unknown h]
    rfl
  | not (not f), unknown, h => by
    rw [occurrences] at h
    exact toFilter_not_of_error (by simp) (toFilter_of_unknown hvs (not f) h)
  | not (and fs), unknown, h => by
    rw [occurrences] at h
    exact toFilter_not_of_error (by simp) (toFilter_of_unknown hvs (and fs) h)
  | not (or fs), unknown, h => by
    rw [occurrences] at h
    exact toFilter_not_of_error (by simp) (toFilter_of_unknown hvs (or fs) h)
  | and fs, unknown, h => by
    rw [occurrences] at h
    rw [toFilter, toFilters_of_unknown hvs fs h]
    rfl
  | or fs, unknown, h => by
    rw [occurrences] at h
    rw [toFilter, toFilters_of_unknown hvs fs h]
    rfl

theorem toFilters_of_unknown (hvs : vs.Sound v) : ∀ (fs : List (Formula String))
    {unknown : String}, firstUnknown? vs (occurrencesAll fs) = some unknown →
      toFilters vs fs = .error (unknownVariable unknown)
  | [], unknown, h => by cases h
  | f :: fs, unknown, h => by
    rw [occurrencesAll, firstUnknown?_append] at h
    rw [toFilters]
    cases hfirst : firstUnknown? vs f.occurrences with
    | some name =>
      rw [hfirst, Option.some_or] at h
      rw [toFilter_of_unknown hvs f hfirst, Option.some.inj h]
      rfl
    | none =>
      rw [hfirst, Option.none_or] at h
      obtain ⟨g, hg, -⟩ := restores hvs f (firstUnknown?_eq_none.1 hfirst)
      rw [hg, toFilters_of_unknown hvs fs h]
      rfl

end

end Formula

end StreamFilter
