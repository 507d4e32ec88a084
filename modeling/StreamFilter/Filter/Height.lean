import StreamFilter.Filter.Basic
set_option autoImplicit false

/-!
# The height of a filter

The nesting depth of a tree in which a negation counts what it negates twice.
Pushing a negation below a connective does not raise this height, which is what
bounds the recursion of folding.
-/

namespace StreamFilter.Filter

mutual

/-- Nesting depth, where a negation counts its content twice. -/
def height : Filter → Nat
  | and cs | or cs | condition cs | group cs => 1 + tallest cs
  | not cs => 1 + 2 * tallest cs
  | argument content => 1 + height content
  | raw _ | target _ | operator _ | string _ => 1

/-- The height of the tallest filter of a list. -/
def tallest : List Filter → Nat
  | [] => 0
  | f :: fs => max (height f) (tallest fs)

end

theorem tallest_le_iff {fs : List Filter} {n : Nat} :
    tallest fs ≤ n ↔ ∀ f ∈ fs, f.height ≤ n := by
  induction fs with
  | nil => simp [tallest]
  | cons f fs ih => simp only [tallest, Nat.max_le, List.mem_cons, forall_eq_or_imp, ih]

theorem height_le_tallest {fs : List Filter} {f : Filter} (h : f ∈ fs) :
    f.height ≤ tallest fs :=
  tallest_le_iff.1 (Nat.le_refl _) f h

theorem height_pos (f : Filter) : 0 < f.height := by
  cases f <;> unfold height <;> omega

-- The parentheses keep these out of `dsimp`, which would rewrite inside the bounds that
-- recursions carry along.
@[simp] theorem height_and (cs : List Filter) : (and cs).height = 1 + tallest cs := (rfl)
@[simp] theorem height_or (cs : List Filter) : (or cs).height = 1 + tallest cs := (rfl)
@[simp] theorem height_not (cs : List Filter) : (not cs).height = 1 + 2 * tallest cs := (rfl)
@[simp] theorem height_condition (cs : List Filter) :
    (condition cs).height = 1 + tallest cs := (rfl)
@[simp] theorem height_group (cs : List Filter) : (group cs).height = 1 + tallest cs := (rfl)

@[simp] theorem tallest_nil : tallest [] = 0 := (rfl)
@[simp] theorem tallest_cons (f : Filter) (fs : List Filter) :
    tallest (f :: fs) = max f.height (tallest fs) := (rfl)

theorem height_not_singleton (f : Filter) : (not [f]).height = 1 + 2 * f.height := by simp

theorem height_group_singleton (f : Filter) : (group [f]).height = 1 + f.height := by simp

theorem height_not_le {fs : List Filter} {f : Filter} (h : f ∈ fs) :
    (not [f]).height ≤ 1 + 2 * tallest fs := by
  have := height_le_tallest h
  rw [height_not_singleton]
  omega

/-- A triple with an argument is two high. -/
@[simp] theorem tallest_ofTriple (t o text : String) :
    tallest (ofTriple ⟨t, o, some text⟩) = 2 := by
  simp [ofTriple, height]

/-- Children with a string argument are at least two high. -/
theorem two_le_tallest {cs : List Filter} {text : String}
    (h : cs.findSome? argumentText? = some text) : 2 ≤ tallest cs := by
  obtain ⟨f, hf, ht⟩ := List.exists_of_findSome?_eq_some h
  have : f.height ≤ tallest cs := height_le_tallest hf
  have : 2 ≤ f.height := by
    cases f <;> simp [argumentText?] at ht
    case argument content => simp [height]; have := height_pos content; omega
  omega

end StreamFilter.Filter
