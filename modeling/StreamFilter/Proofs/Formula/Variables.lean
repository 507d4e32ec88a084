import StreamFilter.Formula.Basic
set_option autoImplicit false

/-!
# The variables of a formula

The value of a formula depends only on the variables that occur in it
(`Formula.holds_congr`), and renaming renames the variables (`occurrences_map`).
`Formula.vars` lists each of them once.  Where a connective is left out around a
single part, `Formula.unlessSingle` says what remains.
-/

namespace StreamFilter.Formula

variable {α β : Type}

mutual

/-- Assignments that agree on the variables of a formula give it one value. -/
theorem holds_congr {t u : α → Bool} : ∀ f : Formula α,
    (∀ x ∈ f.occurrences, t x = u x) → f.holds t = f.holds u
  | var x, h => by simpa [holds] using h x (by simp [occurrences])
  | not f, h => by
    rw [holds, holds, holds_congr f fun x hx => h x (by simpa [occurrences] using hx)]
  | and fs, h => by
    rw [holds, holds, allHold_congr fs fun x hx => h x (by simpa [occurrences] using hx)]
  | or fs, h => by
    rw [holds, holds, anyHolds_congr fs fun x hx => h x (by simpa [occurrences] using hx)]

theorem allHold_congr {t u : α → Bool} : ∀ fs : List (Formula α),
    (∀ x ∈ occurrencesAll fs, t x = u x) → allHold t fs = allHold u fs
  | [], _ => rfl
  | f :: fs, h => by
    rw [allHold, allHold, holds_congr f fun x hx => h x (by simp [occurrencesAll, hx]),
      allHold_congr fs fun x hx => h x (by simp [occurrencesAll, hx])]

theorem anyHolds_congr {t u : α → Bool} : ∀ fs : List (Formula α),
    (∀ x ∈ occurrencesAll fs, t x = u x) → anyHolds t fs = anyHolds u fs
  | [], _ => rfl
  | f :: fs, h => by
    rw [anyHolds, anyHolds, holds_congr f fun x hx => h x (by simp [occurrencesAll, hx]),
      anyHolds_congr fs fun x hx => h x (by simp [occurrencesAll, hx])]

end

mutual

theorem occurrences_map (g : α → β) : ∀ f : Formula α,
    (f.map g).occurrences = f.occurrences.map g
  | var _ => by simp [map, occurrences]
  | not f => by simp [map, occurrences, occurrences_map g f]
  | and fs => by simp [map, occurrences, occurrencesAll_mapAll g fs]
  | or fs => by simp [map, occurrences, occurrencesAll_mapAll g fs]

theorem occurrencesAll_mapAll (g : α → β) : ∀ fs : List (Formula α),
    occurrencesAll (mapAll g fs) = (occurrencesAll fs).map g
  | [] => rfl
  | f :: fs => by
    simp [mapAll, occurrencesAll, occurrences_map g f, occurrencesAll_mapAll g fs]

end

@[simp] theorem mem_vars [BEq α] [LawfulBEq α] {f : Formula α} {x : α} :
    x ∈ f.vars ↔ x ∈ f.occurrences :=
  List.mem_eraseDups

theorem nodup_eraseDups [BEq α] [LawfulBEq α] (xs : List α) : xs.eraseDups.Nodup := by
  match xs with
  | [] => exact List.nodup_nil
  | x :: xs =>
    rw [List.eraseDups_cons, List.nodup_cons]
    exact ⟨by simp [List.mem_eraseDups], nodup_eraseDups (xs.filter fun y => !y == x)⟩
termination_by xs.length
decreasing_by exact Nat.lt_succ_of_le (List.length_filter_le _ _)

/-- Renaming that tells the members of a list apart keeps their order of first appearance. -/
theorem eraseDups_map [BEq α] [LawfulBEq α] [BEq β] [LawfulBEq β] {g : α → β} (xs : List α)
    (hg : ∀ x ∈ xs, ∀ y ∈ xs, g x = g y → x = y) : (xs.map g).eraseDups = xs.eraseDups.map g := by
  match xs with
  | [] => rfl
  | x :: xs =>
    have hfilter : (xs.map g).filter (fun z => !z == g x) =
        (xs.filter fun y => !y == x).map g := by
      rw [List.filter_map]
      refine congrArg (List.map g) (List.filter_congr fun y hy => ?_)
      have hsame : (g y == g x) = (y == x) := by
        rw [Bool.eq_iff_iff, beq_iff_eq, beq_iff_eq]
        exact ⟨hg y (List.mem_cons_of_mem x hy) x List.mem_cons_self, congrArg g⟩
      rw [Function.comp_apply, hsame]
    have hrest := eraseDups_map (xs.filter fun y => !y == x) fun y hy z hz =>
      hg y (List.mem_cons_of_mem x (List.mem_filter.1 hy).1) z
        (List.mem_cons_of_mem x (List.mem_filter.1 hz).1)
    rw [List.map_cons, List.eraseDups_cons, List.eraseDups_cons, hfilter, hrest, List.map_cons]
termination_by xs.length
decreasing_by exact Nat.lt_succ_of_le (List.length_filter_le _ _)

theorem nodup_vars [BEq α] [LawfulBEq α] (f : Formula α) : f.vars.Nodup :=
  nodup_eraseDups f.occurrences

/-! ## One part stands alone -/

theorem holds_unlessSingle_and (truth : α → Bool) (fs : List (Formula α)) :
    (unlessSingle and fs).holds truth = fs.all (holds truth) := by
  unfold unlessSingle
  split
  · simp
  · rw [holds, allHold_eq]

theorem holds_unlessSingle_or (truth : α → Bool) (fs : List (Formula α)) :
    (unlessSingle or fs).holds truth = fs.any (holds truth) := by
  unfold unlessSingle
  split
  · simp
  · rw [holds, anyHolds_eq]

theorem map_unlessSingle (make : List (Formula α) → Formula α)
    (make' : List (Formula β) → Formula β) {g : α → β}
    (h : ∀ fs, (make fs).map g = make' (mapAll g fs)) (fs : List (Formula α)) :
    (unlessSingle make fs).map g = unlessSingle make' (fs.map (map g)) := by
  match fs with
  | [_] => rfl
  | [] | _ :: _ :: _ =>
    rw [unlessSingle, h, mapAll_eq]
    · rfl
    · simp

theorem occurrences_unlessSingle {make : List (Formula α) → Formula α}
    (h : ∀ fs, (make fs).occurrences = occurrencesAll fs) (fs : List (Formula α)) :
    (unlessSingle make fs).occurrences = fs.flatMap occurrences := by
  unfold unlessSingle
  split
  · simp
  · rw [h, occurrencesAll_eq]

end StreamFilter.Formula
