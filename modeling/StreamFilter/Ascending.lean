set_option autoImplicit false

/-!
# Ascending lists without repetition

`ascending le xs` holds each element of `xs` once, in the order `le`.  It is
the form in which sets are listed: atoms, words of a list condition, cubes.
-/

namespace StreamFilter

variable {α : Type}

/-- Drops each element that equals the one before it. -/
def dropRepeats [DecidableEq α] : List α → List α
  | [] => []
  | [x] => [x]
  | x :: y :: xs => if x = y then dropRepeats (y :: xs) else x :: dropRepeats (y :: xs)

/-- The elements of a list in ascending order, each once. -/
def ascending [DecidableEq α] (le : α → α → Bool) (xs : List α) : List α :=
  dropRepeats (xs.mergeSort le)

/-- Code point order of strings. -/
def textLe (s t : String) : Bool := !(decide (t < s))

/-- The distinct strings of a list in code point order. -/
def ascendingTexts (xs : List String) : List String := ascending textLe xs

@[simp] theorem mem_dropRepeats [DecidableEq α] {x : α} {xs : List α} :
    x ∈ dropRepeats xs ↔ x ∈ xs := by
  fun_induction dropRepeats xs with
  | case1 => rfl
  | case2 => rfl
  | case3 x xs ih => rw [ih]; simp
  | case4 x y xs h ih => simp [ih]

@[simp] theorem mem_ascending [DecidableEq α] {le : α → α → Bool} {x : α} {xs : List α} :
    x ∈ ascending le xs ↔ x ∈ xs := by
  simp [ascending]

end StreamFilter
