import StreamFilter.Filter.Merge
set_option autoImplicit false

/-!
# Folding a filter

Folding turns a filter from the bottom up into an equivalent one with fewer
conditions: nested connectives are inlined, `contains` conditions are merged,
groups that need no parentheses go, and negations of connectives are pushed
inward by De Morgan's laws.  Trees of any shape can be folded; what folding does
not understand it leaves as it is.

The recursion ends because folding never raises the height of a tree, so the
negated parts of a folded connective are lower than the negation they come from.
`Filter.foldWithin` carries that bound along.  The lemmas `fold_and` to
`fold_not_singleton` are the equations of folding; nothing else about the
recursion has to be known.
-/

namespace StreamFilter.Filter

/-- Maps the members of a list to filters of bounded height. -/
def mapWithin (n : Nat) (fs : List Filter) (g : ∀ f ∈ fs, { g : Filter // g.height ≤ n }) :
    { gs : List Filter // tallest gs ≤ n } :=
  ⟨fs.attach.map fun f => (g f.1 f.2).1, by
    rw [tallest_le_iff]
    intro h hh
    obtain ⟨f, _, rfl⟩ := List.mem_map.1 hh
    exact (g f.1 f.2).2⟩

/-- De Morgan's laws do not raise the height. -/
theorem height_distributed_le {f g : Filter} {c : Connective} {items gs : List Filter}
    (hg : g.exposed? = some (c, items)) (hf : g.height ≤ f.height)
    (hgs : tallest gs ≤ 1 + 2 * tallest items) :
    (parenthesized (merge c.dual gs)).height ≤ (not [f]).height := by
  have := height_parenthesized_le (merge c.dual gs)
  have := height_merge_le c.dual gs
  have := height_lt_of_mem_exposed? hg
  rw [height_not_singleton]
  omega

/-- The negation of a part of a folded filter is lower than the negation of the
filter. -/
theorem height_not_lt {f g i : Filter} {c : Connective} {items : List Filter}
    (hg : g.exposed? = some (c, items)) (hf : g.height ≤ f.height) (hi : i ∈ items) :
    (not [i]).height < (not [f]).height := by
  have := height_le_tallest hi
  have := height_lt_of_mem_exposed? hg
  rw [height_not_singleton, height_not_singleton]
  omega

theorem height_merge_join_le (c : Connective) {cs gs : List Filter}
    (h : tallest gs ≤ tallest cs) : (merge c gs).height ≤ (c.join cs).height := by
  have := height_merge_le c gs
  rw [height_join]
  omega

theorem height_parenthesized_group_le {c g : Filter} (h : g.height ≤ c.height) :
    (parenthesized g).height ≤ (group [c]).height := by
  have := height_parenthesized_le g
  rw [height_group_singleton]
  omega

theorem height_negate_not_le {c g : Filter} (h : g.height ≤ c.height) :
    (negate g).height ≤ (not [c]).height := by
  have := height_negate_le g
  rw [height_not_singleton] at this ⊢
  omega

theorem height_lt_join (c : Connective) {f : Filter} {cs : List Filter} (h : f ∈ cs) :
    f.height < (c.join cs).height := by
  have := height_le_tallest h
  rw [height_join]
  omega

theorem height_lt_group (c : Filter) : c.height < (group [c]).height := by
  rw [height_group_singleton]
  omega

theorem height_lt_not (c : Filter) : c.height < (not [c]).height := by
  rw [height_not_singleton]
  omega

/-- The folded tree, together with the bound on its height. -/
def foldWithin (f : Filter) : { g : Filter // g.height ≤ f.height } :=
  match f with
  | and cs =>
    let folded := mapWithin (tallest cs) cs fun c hc =>
      let r := foldWithin c
      ⟨r.1, Nat.le_trans r.2 (height_le_tallest hc)⟩
    ⟨merge .and folded.1, height_merge_join_le .and folded.2⟩
  | or cs =>
    let folded := mapWithin (tallest cs) cs fun c hc =>
      let r := foldWithin c
      ⟨r.1, Nat.le_trans r.2 (height_le_tallest hc)⟩
    ⟨merge .or folded.1, height_merge_join_le .or folded.2⟩
  | group [c] =>
    let r := foldWithin c
    ⟨parenthesized r.1, height_parenthesized_group_le r.2⟩
  | group cs => ⟨group cs, Nat.le_refl _⟩
  | not cs =>
    if startsWithTarget cs then ⟨degrade (not cs), height_degrade_le _⟩
    else match cs with
      | [c] =>
        let r := foldWithin c
        match h : r.1.exposed? with
        | some (connective, items) =>
          let negated := mapWithin (1 + 2 * tallest items) items fun i hi =>
            match foldWithin (not [i]) with
            | ⟨once, h₁⟩ =>
              let twice := foldWithin once
              ⟨twice.1, Nat.le_trans twice.2 (Nat.le_trans h₁ (height_not_le hi))⟩
          ⟨parenthesized (merge connective.dual negated.1),
            height_distributed_le h r.2 negated.2⟩
        | none => ⟨negate r.1, height_negate_not_le r.2⟩
      | cs => ⟨not cs, Nat.le_refl _⟩
  | condition cs => ⟨degrade (condition cs), height_degrade_le _⟩
  | f => ⟨f, Nat.le_refl _⟩
termination_by f.height
decreasing_by
  · exact height_lt_join .and hc
  · exact height_lt_join .or hc
  · exact height_lt_group c
  · exact height_lt_not c
  · exact height_not_lt h r.2 hi
  · exact Nat.lt_of_le_of_lt h₁ (height_not_lt h r.2 hi)

/-- The folded tree. -/
def fold (f : Filter) : Filter := (foldWithin f).1

/-- The negation of a folded filter: De Morgan's laws for a connective, and
otherwise one `not` more or less. -/
def foldNegation (f : Filter) : Filter :=
  match f.exposed? with
  | some (c, items) => parenthesized (merge c.dual (items.map fun i => fold (fold (not [i]))))
  | none => negate f

/-! ## The equations of folding -/

theorem height_fold_le (f : Filter) : f.fold.height ≤ f.height := (foldWithin f).2

/-- Folding a node in terms of folding below it: `foldWithin` without its
bounds. -/
theorem fold_eq_def (f : Filter) : f.fold =
    match f with
    | and cs => merge .and (cs.map fold)
    | or cs => merge .or (cs.map fold)
    | group [c] => parenthesized c.fold
    | group cs => group cs
    | not cs =>
      if startsWithTarget cs then degrade (not cs)
      else match cs with
        | [c] => foldNegation c.fold
        | cs => not cs
    | condition cs => degrade (condition cs)
    | f => f := by
  rw [fold, foldWithin.eq_def]
  split
  · simp only [mapWithin, List.map_subtype, List.unattach_attach]
    rfl
  · simp only [mapWithin, List.map_subtype, List.unattach_attach]
    rfl
  · rfl
  · rfl
  · split
    · rfl
    · split
      next c _ =>
        dsimp only
        -- The recursion keeps what `exposed?` gave as a proof, so it is split before
        -- `foldNegation` is opened.
        split
        next hs =>
          simp only [foldNegation, fold, hs, mapWithin, List.map_subtype, List.unattach_attach]
        next hs => simp only [foldNegation, fold, hs]
      · rfl
  · rfl
  · rfl

theorem fold_and (cs : List Filter) : (and cs).fold = merge .and (cs.map fold) :=
  fold_eq_def (and cs)

theorem fold_or (cs : List Filter) : (or cs).fold = merge .or (cs.map fold) :=
  fold_eq_def (or cs)

theorem fold_join (c : Connective) (cs : List Filter) :
    (c.join cs).fold = merge c (cs.map fold) := by
  cases c with
  | and => exact fold_and cs
  | or => exact fold_or cs

theorem fold_group_singleton (c : Filter) : (group [c]).fold = parenthesized c.fold :=
  fold_eq_def (group [c])

theorem fold_group (cs : List Filter) (h : cs.length ≠ 1) : (group cs).fold = group cs := by
  match cs, h with
  | [], _ => exact fold_eq_def (group [])
  | c :: d :: cs, _ => exact fold_eq_def (group (c :: d :: cs))

theorem fold_condition (cs : List Filter) : (condition cs).fold = degrade (condition cs) :=
  fold_eq_def (condition cs)

theorem fold_not_target (cs : List Filter) (h : startsWithTarget cs = true) :
    (not cs).fold = degrade (not cs) :=
  (fold_eq_def (not cs)).trans (if_pos h)

theorem fold_not (cs : List Filter) (h : startsWithTarget cs = false) (hc : cs.length ≠ 1) :
    (not cs).fold = not cs := by
  rw [fold_eq_def]
  simp only [h, Bool.false_eq_true, ↓reduceIte]
  match cs, hc with
  | [], _ => rfl
  | _ :: _ :: _, _ => rfl

theorem fold_not_singleton (c : Filter) (h : startsWithTarget [c] = false) :
    (not [c]).fold = foldNegation c.fold := by
  rw [fold_eq_def]
  simp only [h, Bool.false_eq_true, ↓reduceIte]

/-- Verbatim text and the parts of a condition stay as they are. -/
theorem fold_verbatim {f : Filter} (h : f.kind = .raw ∨ f.kind.isTerminal = true) :
    f.fold = f := by
  cases f with
  | raw | target | operator | argument | string => exact fold_eq_def _
  | and | or | not | condition | group => simp [kind, Kind.isTerminal] at h

@[simp] theorem fold_raw (text : String) : (raw text).fold = raw text := fold_verbatim (.inl rfl)

@[simp] theorem fold_target (name : String) : (target name).fold = target name :=
  fold_verbatim (.inr rfl)

@[simp] theorem fold_operator (name : String) : (operator name).fold = operator name :=
  fold_verbatim (.inr rfl)

@[simp] theorem fold_argument (content : Filter) : (argument content).fold = argument content :=
  fold_verbatim (.inr rfl)

@[simp] theorem fold_string (text : String) : (string text).fold = string text :=
  fold_verbatim (.inr rfl)

end StreamFilter.Filter
