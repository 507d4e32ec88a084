import StreamFilter.Ascending
set_option autoImplicit false

/-!
# Ascending lists are ascending

For a linear order, `ascending le xs` is strictly sorted, so no element stands in it
twice, and there is one list for each set of elements (`ascending_congr`).  So the strings
that `ascendingTexts` lists ascend (`pairwise_ascendingTexts`), and strings that ascend are
listed as they are (`ascendingTexts_of_pairwise`).
-/

namespace StreamFilter

variable {α : Type} [DecidableEq α] {le : α → α → Bool}

/-- In a sorted list, dropping an element that equals the one before it leaves each
element once. -/
theorem pairwise_dropRepeats (antisymm : ∀ a b, le a b → le b a → a = b) {xs : List α}
    (h : xs.Pairwise (le · ·)) : (dropRepeats xs).Pairwise (fun a b => le a b ∧ a ≠ b) := by
  fun_induction dropRepeats xs with
  | case1 => exact .nil
  | case2 x => exact List.pairwise_singleton _ x
  | case3 x xs ih => exact ih (List.pairwise_cons.1 h).2
  | case4 x y xs hne ih =>
    obtain ⟨hx, hrest⟩ := List.pairwise_cons.1 h
    obtain ⟨hy, -⟩ := List.pairwise_cons.1 hrest
    refine List.pairwise_cons.2 ⟨fun z hz => ?_, ih hrest⟩
    have hz : z ∈ y :: xs := mem_dropRepeats.1 hz
    refine ⟨hx z hz, ?_⟩
    rintro rfl
    -- z is both above y and, standing before it, below
    rcases List.mem_cons.1 hz with rfl | hmem
    · exact hne rfl
    · exact hne (antisymm _ _ (hx y List.mem_cons_self) (hy _ hmem))

theorem pairwise_ascending (antisymm : ∀ a b, le a b → le b a → a = b)
    (trans : ∀ a b c, le a b → le b c → le a c) (total : ∀ a b, le a b || le b a)
    (xs : List α) : (ascending le xs).Pairwise (fun a b => le a b ∧ a ≠ b) :=
  pairwise_dropRepeats antisymm (List.pairwise_mergeSort trans total xs)

theorem nodup_ascending (antisymm : ∀ a b, le a b → le b a → a = b)
    (trans : ∀ a b c, le a b → le b c → le a c) (total : ∀ a b, le a b || le b a)
    (xs : List α) : (ascending le xs).Nodup :=
  (pairwise_ascending antisymm trans total xs).imp fun h => h.2

/-- What is listed depends on the set of elements only. -/
theorem ascending_congr (antisymm : ∀ a b, le a b → le b a → a = b)
    (trans : ∀ a b c, le a b → le b c → le a c) (total : ∀ a b, le a b || le b a)
    {xs ys : List α} (h : ∀ x, x ∈ xs ↔ x ∈ ys) : ascending le xs = ascending le ys := by
  refine List.Perm.eq_of_pairwise ?_ (pairwise_ascending antisymm trans total xs)
    (pairwise_ascending antisymm trans total ys) ?_
  · intro a b _ _ hab hba
    exact antisymm a b hab.1 hba.1
  · rw [List.perm_ext_iff_of_nodup (nodup_ascending antisymm trans total xs)
      (nodup_ascending antisymm trans total ys)]
    intro x
    rw [mem_ascending, mem_ascending, h]

theorem dropRepeats_of_nodup {xs : List α} (h : xs.Nodup) :
    dropRepeats xs = xs := by
  fun_induction dropRepeats xs with
  | case1 => rfl
  | case2 => rfl
  | case3 x xs _ => simp at h
  | case4 x y xs _ ih => rw [ih (List.nodup_cons.1 h).2]

/-! ## Texts -/

theorem textLe_iff {s t : String} : textLe s t = true ↔ s ≤ t := by
  rw [textLe, Bool.not_eq_true', decide_eq_false_iff_not, String.not_lt]

theorem textLe_antisymm (s t : String) (hst : textLe s t) (hts : textLe t s) : s = t :=
  String.le_antisymm (textLe_iff.1 hst) (textLe_iff.1 hts)

theorem textLe_trans (s t u : String) (hst : textLe s t) (htu : textLe t u) : textLe s u :=
  textLe_iff.2 (String.le_trans (textLe_iff.1 hst) (textLe_iff.1 htu))

theorem textLe_total (s t : String) : textLe s t || textLe t s := by
  rw [Bool.or_eq_true, textLe_iff, textLe_iff]
  exact String.le_total s t

theorem pairwise_ascendingTexts (names : List String) :
    (ascendingTexts names).Pairwise (· < ·) := by
  refine (pairwise_ascending textLe_antisymm textLe_trans textLe_total names).imp ?_
  intro s t h
  by_cases hlt : s < t
  · exact hlt
  · exact absurd (String.le_antisymm (textLe_iff.1 h.1) (String.not_lt.1 hlt)) h.2

theorem nodup_of_pairwise_lt {names : List String} (h : names.Pairwise (· < ·)) :
    names.Nodup := by
  refine h.imp fun {s t} hlt => ?_
  rintro rfl
  exact String.lt_irrefl s hlt

/-- Strings that ascend are listed as they are. -/
theorem ascendingTexts_of_pairwise {names : List String} (h : names.Pairwise (· < ·)) :
    ascendingTexts names = names := by
  have hsorted : names.Pairwise fun s t => textLe s t = true :=
    h.imp fun {s t} hlt => textLe_iff.2 (String.not_lt.1 (String.lt_asymm hlt))
  rw [ascendingTexts, ascending, List.mergeSort_of_pairwise hsorted,
    dropRepeats_of_nodup (nodup_of_pairwise_lt h)]

theorem ascendingTexts_congr {names others : List String} (h : ∀ s, s ∈ names ↔ s ∈ others) :
    ascendingTexts names = ascendingTexts others :=
  ascending_congr textLe_antisymm textLe_trans textLe_total h

end StreamFilter
