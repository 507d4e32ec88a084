import StreamFilter.Filter.Fold
set_option autoImplicit false

/-!
# The recursion of folding

Folding is a recursion through several kinds of calls, `FoldCall`.  One of them is not on a part
of the tree that is folded: a negation of a connective folds the negations of the parts of what
folding has just made of that connective.

`FoldCall.Returns` says what a call returns if the calls that it makes return, and
`FoldCall.Calls` says which calls it makes.  Neither mentions `Filter.fold`.  A call that returns
has the result that the equations of folding give (`Returns.eq_result`).  As folding never raises
the height of a tree, each call is of lower rank than the one that makes it
(`rank_lt_of_calls`).  So every chain of calls comes to an end, and every call returns
(`returns_result`).
-/

namespace StreamFilter

open StreamFilter.Filter

/-- A call that folding makes. -/
inductive FoldCall where
  /-- Fold a filter. -/
  | filter (f : Filter)
  /-- Fold the parts of a connective and merge them. -/
  | connective (c : Connective) (parts : List Filter)
  /-- Fold what stands in a group. -/
  | group (children : List Filter)
  /-- Fold what is negated, and negate it. -/
  | negation (children : List Filter)
  /-- Negate the parts of a folded connective, and join them by the other connective. -/
  | distribution (c : Connective) (items : List Filter)

namespace FoldCall

/-- What a call returns, by what the calls that it makes return. -/
inductive Returns : FoldCall → Filter → Prop where
  | and {cs : List Filter} {g : Filter} :
      Returns (connective .and cs) g → Returns (filter (.and cs)) g
  | or {cs : List Filter} {g : Filter} :
      Returns (connective .or cs) g → Returns (filter (.or cs)) g
  | group {cs : List Filter} {g : Filter} :
      Returns (group cs) g → Returns (filter (.group cs)) g
  | directNot {cs : List Filter} :
      startsWithTarget cs = true → Returns (filter (.not cs)) (degrade (.not cs))
  | not {cs : List Filter} {g : Filter} :
      startsWithTarget cs = false → Returns (negation cs) g → Returns (filter (.not cs)) g
  | condition {cs : List Filter} : Returns (filter (.condition cs)) (degrade (.condition cs))
  | verbatim {f : Filter} : f.kind = .raw ∨ f.kind.isTerminal = true → Returns (filter f) f
  | connective {c : Connective} {parts : List Filter} {folded : Filter → Filter} :
      (∀ f ∈ parts, Returns (filter f) (folded f)) →
        Returns (connective c parts) (merge c (parts.map folded))
  | grouped {f g : Filter} : Returns (filter f) g → Returns (group [f]) (parenthesized g)
  | looseGroup {cs : List Filter} : cs.length ≠ 1 → Returns (group cs) (.group cs)
  | negated {f g : Filter} :
      Returns (filter f) g → g.exposed? = none → Returns (negation [f]) (negate g)
  | distributed {f g h : Filter} {c : Connective} {items : List Filter} :
      Returns (filter f) g → g.exposed? = some (c, items) → Returns (distribution c items) h →
        Returns (negation [f]) h
  | looseNot {cs : List Filter} : cs.length ≠ 1 → Returns (negation cs) (.not cs)
  | distribution {c : Connective} {items : List Filter} {folded : Filter → Filter} {h : Filter} :
      (∀ i ∈ items, Returns (filter (.not [i])) (folded i)) →
        Returns (connective c.dual (items.map folded)) h →
          Returns (distribution c items) (parenthesized h)

/-- The calls that a call makes.  Two of them are on what other calls have returned. -/
inductive Calls : FoldCall → FoldCall → Prop where
  | and {cs : List Filter} : Calls (filter (.and cs)) (connective .and cs)
  | or {cs : List Filter} : Calls (filter (.or cs)) (connective .or cs)
  | group {cs : List Filter} : Calls (filter (.group cs)) (group cs)
  | not {cs : List Filter} : startsWithTarget cs = false → Calls (filter (.not cs)) (negation cs)
  | part {c : Connective} {parts : List Filter} {f : Filter} :
      f ∈ parts → Calls (connective c parts) (filter f)
  | grouped {f : Filter} : Calls (group [f]) (filter f)
  | negated {f : Filter} : Calls (negation [f]) (filter f)
  | distributed {f g : Filter} {c : Connective} {items : List Filter} :
      Returns (filter f) g → g.exposed? = some (c, items) →
        Calls (negation [f]) (distribution c items)
  | item {c : Connective} {items : List Filter} {i : Filter} :
      i ∈ items → Calls (distribution c items) (filter (.not [i]))
  | joined {c : Connective} {items : List Filter} {folded : Filter → Filter} :
      (∀ i ∈ items, Returns (filter (.not [i])) (folded i)) →
        Calls (distribution c items) (connective c.dual (items.map folded))

/-! ## Calls that return -/

/-- The result of a call by the equations of folding. -/
def result : FoldCall → Filter
  | filter f => f.fold
  | connective c parts => merge c (parts.map fold)
  | group [f] => parenthesized f.fold
  | group cs => .group cs
  | negation [f] => foldNegation f.fold
  | negation cs => .not cs
  | distribution c items => parenthesized (merge c.dual (items.map fun i => fold (fold (.not [i]))))

theorem result_group {cs : List Filter} (h : cs.length ≠ 1) : result (group cs) = .group cs := by
  unfold result
  split <;> simp_all

theorem result_negation {cs : List Filter} (h : cs.length ≠ 1) :
    result (negation cs) = .not cs := by
  unfold result
  split <;> simp_all

theorem fold_group_eq (cs : List Filter) : (Filter.group cs).fold = result (group cs) := by
  by_cases hlength : cs.length = 1
  · obtain ⟨f, rfl⟩ := List.length_eq_one_iff.1 hlength
    exact fold_group_singleton f
  · rw [fold_group cs hlength, result_group hlength]

theorem fold_not_eq {cs : List Filter} (h : startsWithTarget cs = false) :
    (Filter.not cs).fold = result (negation cs) := by
  by_cases hlength : cs.length = 1
  · obtain ⟨f, rfl⟩ := List.length_eq_one_iff.1 hlength
    exact fold_not_singleton f h
  · rw [fold_not cs h hlength, result_negation hlength]

theorem foldNegation_of_exposed? {g : Filter} {c : Connective} {items : List Filter}
    (h : g.exposed? = some (c, items)) : foldNegation g = result (distribution c items) := by
  rw [foldNegation, h, result]

/-- A call that returns has the result that the equations of folding give. -/
theorem Returns.eq_result {call : FoldCall} {g : Filter} (h : Returns call g) :
    g = call.result := by
  induction h with
  | and _ ih => rw [ih, result, result, fold_and]
  | or _ ih => rw [ih, result, result, fold_or]
  | group _ ih => rw [ih, ← fold_group_eq, result]
  | directNot htarget => rw [result, fold_not_target _ htarget]
  | not htarget _ ih => rw [ih, ← fold_not_eq htarget, result]
  | condition => rw [result, fold_condition]
  | verbatim hkind => rw [result, fold_verbatim hkind]
  | connective _ ih => rw [result, List.map_congr_left ih]; rfl
  | grouped _ ih => rw [ih, result, result]
  | looseGroup hlength => rw [result_group hlength]
  | negated _ hexposed ih =>
    rw [ih, result] at hexposed
    rw [ih, result, result, foldNegation, hexposed]
  | distributed _ hexposed _ ih ihrest =>
    rw [ih, result] at hexposed
    rw [ihrest, ← foldNegation_of_exposed? hexposed, result]
  | looseNot hlength => rw [result_negation hlength]
  | distribution _ _ ih ihjoined =>
    have hitems := List.map_congr_left ih
    rw [ihjoined, result, result, hitems, List.map_map]
    rfl

/-! ## The recursion ends -/

/-- A measure of a call that the calls which it makes lower. -/
def rank : FoldCall → Nat
  | filter f => 2 * f.height
  | connective _ parts => 2 * tallest parts + 1
  | group cs => 2 * tallest cs + 1
  | negation cs => 4 * tallest cs + 1
  | distribution _ items => 4 * tallest items + 4

theorem rank_lt_of_calls {caller callee : FoldCall} (h : Calls caller callee) :
    callee.rank < caller.rank := by
  cases h with
  | and => simp only [rank, height_and]; omega
  | or => simp only [rank, height_or]; omega
  | group => simp only [rank, height_group]; omega
  | not _ => simp only [rank, height_not]; omega
  | part hf =>
    have hheight := height_le_tallest hf
    simp only [rank]
    omega
  | grouped => simp only [rank, tallest_cons, tallest_nil]; omega
  | negated => simp only [rank, tallest_cons, tallest_nil]; omega
  | @distributed f g c items hreturns hexposed =>
    -- what was folded is not higher, so its parts are lower than what is negated
    have hlow : g.height ≤ f.height := by
      rw [hreturns.eq_result]
      exact height_fold_le f
    have hitems := height_lt_of_mem_exposed? hexposed
    simp only [rank, tallest_cons, tallest_nil]
    omega
  | item hi =>
    have hheight := height_le_tallest hi
    simp only [rank, height_not_singleton]
    omega
  | @joined c items folded hreturns =>
    have hfolded : tallest (items.map folded) ≤ 1 + 2 * tallest items := by
      rw [tallest_le_iff, List.forall_mem_map]
      intro i hi
      rw [(hreturns i hi).eq_result]
      exact Nat.le_trans (height_fold_le _) (height_not_le hi)
    simp only [rank]
    omega

theorem wellFounded_calls : WellFounded fun callee caller => Calls caller callee :=
  Subrelation.wf rank_lt_of_calls (measure rank).wf

/-! ## Every call returns -/

theorem returns_filter {f : Filter}
    (ih : ∀ callee, Calls (filter f) callee → Returns callee callee.result) :
    Returns (filter f) f.fold := by
  by_cases hkind : f.kind = .raw ∨ f.kind.isTerminal = true
  · rw [fold_verbatim hkind]
    exact .verbatim hkind
  cases f with
  | and cs =>
    rw [fold_and]
    exact .and (ih _ .and)
  | or cs =>
    rw [fold_or]
    exact .or (ih _ .or)
  | group cs =>
    rw [fold_group_eq]
    exact .group (ih _ .group)
  | not cs =>
    cases htarget : startsWithTarget cs with
    | true =>
      rw [fold_not_target cs htarget]
      exact .directNot htarget
    | false =>
      rw [fold_not_eq htarget]
      exact .not htarget (ih _ (.not htarget))
  | condition cs =>
    rw [fold_condition]
    exact .condition
  | raw _ | target _ | operator _ | argument _ | string _ => simp [kind, Kind.isTerminal] at hkind

theorem returns_group {cs : List Filter}
    (ih : ∀ callee, Calls (group cs) callee → Returns callee callee.result) :
    Returns (group cs) (result (group cs)) := by
  by_cases hlength : cs.length = 1
  · obtain ⟨f, rfl⟩ := List.length_eq_one_iff.1 hlength
    exact .grouped (ih _ .grouped)
  · rw [result_group hlength]
    exact .looseGroup hlength

theorem returns_negation {cs : List Filter}
    (ih : ∀ callee, Calls (negation cs) callee → Returns callee callee.result) :
    Returns (negation cs) (result (negation cs)) := by
  by_cases hlength : cs.length = 1
  · obtain ⟨f, rfl⟩ := List.length_eq_one_iff.1 hlength
    have hfold : Returns (filter f) f.fold := ih _ .negated
    cases hexposed : f.fold.exposed? with
    | none =>
      rw [result, foldNegation, hexposed]
      exact .negated hfold hexposed
    | some found =>
      obtain ⟨c, items⟩ := found
      rw [result, foldNegation_of_exposed? hexposed]
      exact .distributed hfold hexposed (ih _ (.distributed hfold hexposed))
  · rw [result_negation hlength]
    exact .looseNot hlength

theorem returns_distribution {c : Connective} {items : List Filter}
    (ih : ∀ callee, Calls (distribution c items) callee → Returns callee callee.result) :
    Returns (distribution c items) (result (distribution c items)) := by
  have hitems : ∀ i ∈ items, Returns (filter (.not [i])) (fold (.not [i])) :=
    fun i hi => ih _ (.item hi)
  have hjoined := ih _ (.joined hitems)
  rw [result, List.map_map] at hjoined
  exact .distribution hitems hjoined

theorem returns_result (call : FoldCall) : Returns call call.result := by
  induction call using wellFounded_calls.induction with
  | _ call ih =>
    cases call with
    | filter f => exact returns_filter ih
    | connective c parts => exact .connective fun f hf => ih _ (.part hf)
    | group cs => exact returns_group ih
    | negation cs => exact returns_negation ih
    | distribution c items => exact returns_distribution ih

/-- Folding ends on every tree: there is no infinite chain of calls, every call returns one
result and no other, and what is returned for a filter is its fold. -/
theorem folding_terminates :
    (WellFounded fun callee caller => Calls caller callee) ∧
    (∀ call, ∃ g, Returns call g ∧ ∀ h, Returns call h → h = g) ∧
    ∀ f : Filter, Returns (filter f) f.fold :=
  ⟨wellFounded_calls, fun call => ⟨_, returns_result call, fun _ h => h.eq_result⟩,
    fun f => returns_result (filter f)⟩

end FoldCall

end StreamFilter
