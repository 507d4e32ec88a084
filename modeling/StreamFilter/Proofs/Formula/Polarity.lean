import StreamFilter.Proofs.Formula.Variables
set_option autoImplicit false

/-!
# Polarity of variables

A variable occurs positively under an even number of negations and negatively under an
odd one.  `Formula.signed` lists the occurrences with their polarity, and a formula can
only gain truth when an assignment gains literals of the formula (`holds_mono`).  In a
unate formula no variable occurs with both polarities.
-/

namespace StreamFilter.Formula

variable {α β : Type}

mutual

/-- The variables of a formula with the polarity of each occurrence, if the formula
itself has the polarity `positive`. -/
def signed (positive : Bool) : Formula α → List (α × Bool)
  | var name => [(name, positive)]
  | not part => signed (!positive) part
  | and parts | or parts => signedAll positive parts

/-- The variables of a list of formulas with their polarities. -/
def signedAll (positive : Bool) : List (Formula α) → List (α × Bool)
  | [] => []
  | f :: fs => signed positive f ++ signedAll positive fs

end

/-- Whether each variable occurs under an even number of negations only or under an odd
number only. -/
def Unate (f : Formula α) : Prop := ∀ l ∈ f.signed true, (l.1, !l.2) ∉ f.signed true

instance [DecidableEq α] (f : Formula α) : Decidable f.Unate :=
  inferInstanceAs (Decidable (∀ l ∈ f.signed true, (l.1, !l.2) ∉ f.signed true))

mutual

theorem map_fst_signed (positive : Bool) : ∀ f : Formula α,
    (f.signed positive).map Prod.fst = f.occurrences
  | var _ => rfl
  | not f => by rw [signed, occurrences, map_fst_signed]
  | and fs => by rw [signed, occurrences, map_fst_signedAll]
  | or fs => by rw [signed, occurrences, map_fst_signedAll]

theorem map_fst_signedAll (positive : Bool) : ∀ fs : List (Formula α),
    (signedAll positive fs).map Prod.fst = occurrencesAll fs
  | [] => rfl
  | f :: fs => by
    rw [signedAll, occurrencesAll, List.map_append, map_fst_signed, map_fst_signedAll]

end

theorem mem_occurrences_of_mem_signed {f : Formula α} {positive : Bool} {l : α × Bool}
    (h : l ∈ f.signed positive) : l.1 ∈ f.occurrences := by
  rw [← map_fst_signed positive f]
  exact List.mem_map_of_mem h

mutual

theorem signed_map (g : α → β) (positive : Bool) : ∀ f : Formula α,
    (f.map g).signed positive = (f.signed positive).map fun l => (g l.1, l.2)
  | var _ => by rw [map, signed, signed, List.map_singleton]
  | not f => by rw [map, signed, signed, signed_map]
  | and fs => by rw [map, signed, signed, signedAll_mapAll]
  | or fs => by rw [map, signed, signed, signedAll_mapAll]

theorem signedAll_mapAll (g : α → β) (positive : Bool) : ∀ fs : List (Formula α),
    signedAll positive (mapAll g fs) = (signedAll positive fs).map fun l => (g l.1, l.2)
  | [] => rfl
  | f :: fs => by
    rw [mapAll, signedAll, signedAll, List.map_append, signed_map, signedAll_mapAll]

end

/-- A renaming that keeps the variables of a unate formula apart leaves it unate. -/
theorem Unate.map {f : Formula α} (h : f.Unate) {g : α → β}
    (hg : ∀ x ∈ f.occurrences, ∀ y ∈ f.occurrences, g x = g y → x = y) : (f.map g).Unate := by
  intro l hl hopposite
  rw [signed_map, List.mem_map] at hl hopposite
  obtain ⟨⟨x, p⟩, hx, rfl⟩ := hl
  obtain ⟨⟨y, q⟩, hy, heq⟩ := hopposite
  obtain ⟨hname, rfl⟩ := Prod.mk.inj heq
  obtain rfl : y = x := hg y (mem_occurrences_of_mem_signed hy) x
    (mem_occurrences_of_mem_signed hx) hname
  exact h _ hx hy

/-! ## Monotonicity -/

section Monotone

variable {t u : α → Bool}

mutual

/-- If an assignment agrees with another wherever that one has a literal of the formula,
the formula keeps the value it is read for. -/
theorem holds_mono : ∀ (positive : Bool) (f : Formula α),
    (∀ l ∈ f.signed positive, t l.1 = l.2 → u l.1 = l.2) →
      f.holds t = positive → f.holds u = positive
  | positive, var x, h, ht => by
    rw [holds] at ht ⊢
    exact h (x, positive) (by simp [signed]) ht
  | positive, not f, h, ht => by
    rw [holds, Bool.not_eq_eq_eq_not] at ht ⊢
    exact holds_mono (!positive) f (fun l hl => h l (by rwa [signed])) ht
  | positive, and fs, h, ht => by
    have hparts := holds_mono_of_mem positive fs fun l hl => h l (by rwa [signed])
    rw [holds, allHold_eq] at ht ⊢
    cases positive with
    | true =>
      rw [List.all_eq_true] at ht ⊢
      exact fun f hf => hparts f hf (ht f hf)
    | false =>
      rw [List.all_eq_false] at ht ⊢
      obtain ⟨f, hf, hfails⟩ := ht
      exact ⟨f, hf, Bool.not_eq_true _ ▸ hparts f hf (Bool.eq_false_iff.2 hfails)⟩
  | positive, or fs, h, ht => by
    have hparts := holds_mono_of_mem positive fs fun l hl => h l (by rwa [signed])
    rw [holds, anyHolds_eq] at ht ⊢
    cases positive with
    | true =>
      rw [List.any_eq_true] at ht ⊢
      obtain ⟨f, hf, hholds⟩ := ht
      exact ⟨f, hf, hparts f hf hholds⟩
    | false =>
      rw [List.any_eq_false] at ht ⊢
      exact fun f hf => Bool.eq_false_iff.1 (hparts f hf (Bool.eq_false_iff.2 (ht f hf)))

theorem holds_mono_of_mem : ∀ (positive : Bool) (fs : List (Formula α)),
    (∀ l ∈ signedAll positive fs, t l.1 = l.2 → u l.1 = l.2) →
      ∀ f ∈ fs, f.holds t = positive → f.holds u = positive
  | _, [], _ => by simp
  | positive, f :: fs, h => by
    rw [signedAll, List.forall_mem_append] at h
    have hhead := holds_mono positive f h.1
    have htail := holds_mono_of_mem positive fs h.2
    exact List.forall_mem_cons.2 ⟨hhead, htail⟩

end

end Monotone

end StreamFilter.Formula
