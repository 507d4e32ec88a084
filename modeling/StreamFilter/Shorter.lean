set_option autoImplicit false

/-!
# Input that is left

A reader returns what it leaves of its input together with the fact that this is
less than it got, by which the recursion of readers ends.
-/

namespace StreamFilter

variable {α : Type}

/-- A list that is shorter than a given one. -/
abbrev Shorter (xs : List α) : Type := { rest : List α // rest.length < xs.length }

/-- A list that is not longer than a given one. -/
abbrev NoLonger (xs : List α) : Type := { rest : List α // rest.length ≤ xs.length }

theorem length_lt_length_append (x : α) (xs rest : List α) :
    rest.length < (x :: (xs ++ rest)).length := by
  simp only [List.length_cons, List.length_append]
  omega

theorem length_dropWhile_le (p : α → Bool) (xs : List α) :
    (xs.dropWhile p).length ≤ xs.length :=
  (List.dropWhile_sublist p).length_le

theorem length_drop_le (n : Nat) (xs : List α) : (xs.drop n).length ≤ xs.length := by
  rw [List.length_drop]
  exact Nat.sub_le _ _

/-- What is left behind one element and some more. -/
def Shorter.behind (x : α) (xs rest : List α) : Shorter (x :: (xs ++ rest)) :=
  ⟨rest, length_lt_length_append x xs rest⟩

/-- What is left of the tail of a list. -/
def Shorter.ofTail {xs : List α} (x : α) (r : NoLonger xs) : Shorter (x :: xs) :=
  ⟨r.1, Nat.lt_succ_of_le r.2⟩

/-- A list from the first element that does not satisfy a test. -/
def NoLonger.dropWhile (p : α → Bool) (xs : List α) : NoLonger xs :=
  ⟨xs.dropWhile p, length_dropWhile_le p xs⟩

/-- A list without its first elements. -/
def NoLonger.drop (n : Nat) (xs : List α) : NoLonger xs := ⟨xs.drop n, length_drop_le n xs⟩

end StreamFilter
