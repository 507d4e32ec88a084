import Mathlib.Logic.Function.Basic
import StreamFilter.Proofs.Minimize.PrimeCover
import StreamFilter.Proofs.Optimize
set_option autoImplicit false

/-!
# Minimizing keeps the atoms that matter

A filter depends on an atom if it matters for some set of atoms whether the atom is in it.
A formula depends on every variable of its prime covers, since each literal there decides
the formula at some assignment.  Variables stand for distinct atoms, so what the minimized
formula mentions are atoms that the filter depends on.  Putting them back and folding adds
none, and none can be missing from an equivalent filter.
-/

namespace StreamFilter

open Function (update)

/-! ## Variables on which a formula depends -/

namespace Formula

variable {α : Type} [DecidableEq α] {f : Formula α} {x : α}

/-- Whether under some assignment the value of a variable decides the formula. -/
def DependsOn (f : Formula α) (x : α) : Prop :=
  ∃ truth, f.holds (update truth x true) ≠ f.holds (update truth x false)

theorem DependsOn.mem_occurrences (h : f.DependsOn x) : x ∈ f.occurrences := by
  obtain ⟨truth, hne⟩ := h
  refine Classical.byContradiction fun hx => hne (holds_congr f fun y hy => ?_)
  have hyx : y ≠ x := fun heq => hx (heq ▸ hy)
  rw [Function.update_of_ne hyx, Function.update_of_ne hyx]

/-- A change of one variable that changes the value shows that the formula depends on it. -/
theorem dependsOn_of_update (truth : α → Bool) (value : Bool)
    (h : f.holds (update truth x value) ≠ f.holds truth) : f.DependsOn x := by
  have hvalue : truth x = !value := by
    refine Bool.eq_not_of_ne fun heq => h ?_
    rw [← heq, Function.update_eq_self]
  have hself : f.holds truth = f.holds (update truth x (!value)) := by
    rw [← hvalue, Function.update_eq_self]
  refine ⟨truth, ?_⟩
  cases value with
  | true => rwa [hself] at h
  | false => rw [hself] at h; exact h.symm

/-- A formula depends on each variable of a prime cover. -/
theorem IsPrimeCover.dependsOn {terms : List (List (α × Bool))} (h : f.IsPrimeCover terms)
    (hx : x ∈ (sumOfProducts terms).occurrences) : f.DependsOn x := by
  rw [occurrences_sumOfProducts] at hx
  obtain ⟨t, ht, hx⟩ := List.mem_flatMap.1 hx
  obtain ⟨l, hl, rfl⟩ := List.mem_map.1 hx
  obtain ⟨before, after, rfl⟩ := List.append_of_mem hl
  obtain ⟨truth, hothers, hfails⟩ := h.prime _ ht before l after rfl
  -- with the literal made true the whole term is
  have hterm : (product (before ++ l :: after)).holds (update truth l.1 l.2) = true := by
    refine holds_product.2 fun m hm => ?_
    rw [List.mem_append, List.mem_cons, or_left_comm, ← List.mem_append] at hm
    rcases hm with rfl | hm
    · exact Function.update_self ..
    · rw [Function.update_of_ne (fst_ne_of_nodup (h.distinct _ ht) m hm)]
      exact holds_product.1 hothers m hm
  apply dependsOn_of_update truth l.2
  rw [h.implies _ ht _ hterm, hfails]
  exact Bool.noConfusion

end Formula

/-! ## Atoms on which a filter depends -/

namespace Filter

/-- Whether for some set of atoms it matters that an atom is in it. -/
def DependsOn (f : Filter) (atom : String) : Prop :=
  ∃ atoms : Std.HashSet String,
    f.holds (atoms.insert atom).contains ≠ f.holds (atoms.erase atom).contains

theorem contains_insert_eq (atoms : Std.HashSet String) (atom : String) :
    (atoms.insert atom).contains = update atoms.contains atom true := by
  funext text
  rw [Std.HashSet.contains_insert, Function.update_apply]
  by_cases htext : text = atom
  · simp [htext]
  · simp [htext, Ne.symm htext]

theorem contains_erase_eq (atoms : Std.HashSet String) (atom : String) :
    (atoms.erase atom).contains = update atoms.contains atom false := by
  funext text
  rw [Std.HashSet.contains_erase, Function.update_apply]
  by_cases htext : text = atom
  · simp [htext]
  · simp [htext, Ne.symm htext]

theorem DependsOn.mem_occurrences {f : Filter} {atom : String} (h : f.DependsOn atom) :
    atom ∈ f.occurrences := by
  obtain ⟨atoms, hne⟩ := h
  refine Classical.byContradiction fun hatom => hne (holds_congr f fun text htext => ?_)
  have hother : text ≠ atom := fun heq => hatom (heq ▸ htext)
  rw [contains_insert_eq, contains_erase_eq, Function.update_of_ne hother,
    Function.update_of_ne hother]

end Filter

/-- Changing whether an atom holds changes its variable and no other. -/
theorem Variables.truth_update {vs : Variables} {name other : String} {x y : Variable}
    (hx : vs.find? name = some x) (hy : vs.find? other = some y) (truths : String → Bool)
    (value : Bool) :
    vs.truth (update truths x.text value) other = update (vs.truth truths) name value other := by
  rw [Variables.truth_of_find? hy, Function.update_apply, Function.update_apply,
    Variables.truth_of_find? hy]
  obtain ⟨hxmem, rfl⟩ := Variables.mem_of_find? hx
  obtain ⟨hymem, rfl⟩ := Variables.mem_of_find? hy
  have hiff : y.text = x.text ↔ y.name = x.name := by
    constructor
    · intro htext
      rw [Variables.eq_of_text hymem hxmem htext]
    · intro hname
      rw [hname, hx] at hy
      rw [Option.some.inj hy]
  simp only [hiff]

/-- A filter depends on the atom of each variable on which its skeleton depends. -/
theorem Filter.dependsOn_of_skeleton {v : Vocabulary} {f : Filter} {s : Skeleton}
    (hs : f.skeleton v = .ok (some s)) {name : String} {x : Variable}
    (hx : s.table.find? name = some x) (h : s.formula.DependsOn name) :
    f.DependsOn x.text := by
  obtain ⟨hsound, hformula⟩ := describes_of_skeleton hs
  obtain ⟨truth, hne⟩ := h
  -- the assignment comes from a set of atoms, and so do its two changes
  have hholds : ∀ value, f.holds (update (s.table.trueTexts truth).contains x.text value) =
      s.formula.holds (update truth name value) := by
    intro value
    rw [← hformula.value]
    refine Formula.holds_congr _ fun other hother => ?_
    obtain ⟨y, hy⟩ := hformula.known other hother
    rw [Variables.truth_update hx hy, Function.update_apply, Function.update_apply,
      Variables.truth_trueTexts hy]
  refine ⟨s.table.trueTexts truth, ?_⟩
  rw [contains_insert_eq, contains_erase_eq, hholds, hholds]
  exact hne

/-! ## The result -/

namespace Optimizer

variable {v : Vocabulary} {limits : Limits} {f : Filter} {s : Skeleton}

/-- If a formula is the answer for a skeleton, the result is a prime cover of the skeleton's
formula, put back and folded. -/
theorem exists_isPrimeCover_fold (hs : f.skeleton v = .ok (some s)) {out : String}
    (hout : s.formula.minimized limits.clamped = .formula out) :
    ∃ terms restored, s.formula.IsPrimeCover terms ∧
      Formula.Restored s.table (Formula.sumOfProducts terms) restored ∧
      (Optimizer.mk v (.native limits) .minimize).optimize f = .ok (some restored.fold) := by
  obtain ⟨-, hformula⟩ := Filter.describes_of_skeleton hs
  have hnative := Minimizer.native_of_parse limits (Formula.parse_text hformula.printable)
  rw [hout] at hnative
  obtain ⟨terms, hparse, hcover⟩ := Formula.exists_isPrimeCover hformula.printable hout
  have hknown : ∀ name ∈ (Formula.sumOfProducts terms).occurrences,
      ∃ x, s.table.find? name = some x :=
    fun name hname => hformula.known name (hcover.dependsOn hname).mem_occurrences
  obtain ⟨restored, hrestored, hresult⟩ := optimize_eq_fold hs hnative hparse hknown
  exact ⟨terms, restored, hcover, hrestored, hresult⟩

/-- A filter with few variables that is not constant has a result. -/
theorem exists_optimize_native (hs : f.skeleton v = .ok (some s))
    (hvars : s.formula.vars.length ≤ limits.clamped.exactVariables) {t u : String → Bool}
    (ht : s.formula.holds t = true) (hu : s.formula.holds u = false) :
    ∃ f', (Optimizer.mk v (.native limits) .minimize).optimize f = .ok (some f') := by
  have hprintable := (Filter.describes_of_skeleton hs).2.printable
  have hnative := Minimizer.native_of_parse limits (Formula.parse_text hprintable)
  have hskipped : s.formula.minimized limits.clamped ≠ .skipped := fun h =>
    native_ne_skipped hs hvars (hnative.trans (by rw [h]))
  obtain ⟨out, hout⟩ := Formula.exists_minimized_eq_formula hprintable hskipped ht hu
  obtain ⟨terms, restored, -, -, hresult⟩ := exists_isPrimeCover_fold hs hout
  exact ⟨restored.fold, hresult⟩

/-- With the built-in minimizer, a minimized filter mentions exactly the atoms on which the
filter depends. -/
theorem mem_atoms_optimize_native (v : Vocabulary) (limits : Limits) {f f' : Filter}
    {s : Skeleton} (hs : f.skeleton v = .ok (some s))
    (hanswer : (Minimizer.native limits).minimize s.formula.text ≠ .ok .skipped)
    (hresult : (Optimizer.mk v (.native limits) .minimize).optimize f = .ok (some f'))
    (atom : String) : atom ∈ f'.atoms ↔ f.DependsOn atom := by
  obtain ⟨-, hformula⟩ := Filter.describes_of_skeleton hs
  have hnative := Minimizer.native_of_parse limits (Formula.parse_text hformula.printable)
  obtain ⟨out, hout⟩ : ∃ out, s.formula.minimized limits.clamped = .formula out := by
    cases hminimized : s.formula.minimized limits.clamped with
    | formula out => exact ⟨out, rfl⟩
    | skipped => exact absurd (hnative.trans (by rw [hminimized])) hanswer
    | always | never =>
      rw [hminimized] at hnative
      rw [optimize_of_answer hs hnative] at hresult
      cases hresult
  obtain ⟨terms, restored, hcover, hrestored, hfold⟩ := exists_isPrimeCover_fold hs hout
  obtain rfl : restored.fold = f' := Option.some.inj (Except.ok.inj (hfold.symm.trans hresult))
  rw [Filter.mem_atoms]
  constructor
  · intro hatom
    rw [Filter.mem_occurrences_fold hrestored.targetsFirst, hrestored.occurrences,
      List.mem_filterMap] at hatom
    obtain ⟨name, hname, htext⟩ := hatom
    obtain ⟨x, hx, rfl⟩ := Option.map_eq_some_iff.1 htext
    exact Filter.dependsOn_of_skeleton hs hx (hcover.dependsOn hname)
  · rintro ⟨atoms, hne⟩
    have hvalue : ∀ truths, restored.fold.holds truths = f.holds truths := fun truths =>
      calc restored.fold.holds truths
          = restored.holds truths :=
            Filter.value_fold (.truth false truths) rfl hrestored.targetsFirst
        _ = s.formula.holds (s.table.truth truths) := by rw [hrestored.value, hcover.covers]
        _ = f.holds truths := hformula.value truths
    rw [← hvalue, ← hvalue] at hne
    exact Filter.DependsOn.mem_occurrences ⟨atoms, hne⟩

/-- A filter in which one atom does not matter. -/
def idle : Filter :=
  .and [.condition [.target "fb.content", .operator "contains_any", .argument (.string "x,y")],
    .or [.raw "r", .not [.raw "r"]]]

/-- The skeleton of that filter. -/
def idleSkeleton : Skeleton :=
  ⟨.and [.or [.var "v1", .var "v2"], .or [.var "v3", .not (.var "v3")]],
    .registered [⟨"fb.content contains \"x\"",
        .condition (Filter.ofTriple (.containing "fb.content" "x")),
        .not (Filter.ofTriple (.containing "fb.content" "x"))⟩,
      ⟨"fb.content contains \"y\"",
        .condition (Filter.ofTriple (.containing "fb.content" "y")),
        .not (Filter.ofTriple (.containing "fb.content" "y"))⟩,
      ⟨"r", .raw "r", .not [.raw "r"]⟩]⟩

theorem skeleton_idle : idle.skeleton {} = .ok (some idleSkeleton) := rfl

theorem not_dependsOn_idle : ¬idle.DependsOn "r" := by
  have hholds : ∀ truths : String → Bool, idle.holds truths =
      (truths "fb.content contains \"x\"" || truths "fb.content contains \"y\"") := by
    intro truths
    have hparts : idle.holds truths =
        ((truths "fb.content contains \"x\"" || (truths "fb.content contains \"y\"" || false)) &&
          ((truths "r" || (!truths "r" || false)) && true)) := rfl
    rw [hparts]
    cases truths "r" <;> simp
  rintro ⟨atoms, hne⟩
  rw [hholds, hholds, Filter.contains_insert_eq, Filter.contains_erase_eq] at hne
  exact hne rfl

theorem exists_optimize_idle :
    ∃ f', (Optimizer.mk {} (.native {}) .minimize).optimize idle = .ok (some f') :=
  exists_optimize_native skeleton_idle (by decide) (t := fun _ => true) (u := fun _ => false)
    (by decide) (by decide)

theorem mem_atoms_optimize_native_idle :
    idle.skeleton {} = .ok (some idleSkeleton) ∧
      (Minimizer.native {}).minimize idleSkeleton.formula.text ≠ .ok .skipped ∧
      ∃ f', (Optimizer.mk {} (.native {}) .minimize).optimize idle = .ok (some f') ∧
        (∀ atom, atom ∈ f'.atoms ↔ idle.DependsOn atom) ∧ "r" ∉ f'.atoms := by
  have hanswer : (Minimizer.native {}).minimize idleSkeleton.formula.text ≠ .ok .skipped :=
    native_ne_skipped skeleton_idle (by decide)
  obtain ⟨f', hresult⟩ := exists_optimize_idle
  have hatoms := mem_atoms_optimize_native {} {} skeleton_idle hanswer hresult
  exact ⟨skeleton_idle, hanswer, f', hresult, hatoms, mt (hatoms "r").1 not_dependsOn_idle⟩

end Optimizer

end StreamFilter
