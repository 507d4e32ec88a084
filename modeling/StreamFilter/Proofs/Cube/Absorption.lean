import StreamFilter.Proofs.Cube.Algebra
import StreamFilter.Proofs.Cube.Tautology
set_option autoImplicit false

/-!
# Absorption

Absorption goes through the cubes of a cover once, those with fewer literals first, and keeps
each that no kept cube covers.  A canonical cube that is covered by another one has more
literals (`Cube.Canonical.size_lt_of_covers`), so every cube that could absorb it has come
before.  What is kept is what no other cube of the cover covers (`Cover.mem_absorb_iff`), in an
order that depends on the set of cubes only (`Cover.absorb_exact`).
-/

namespace StreamFilter

namespace Cube

variable {c d e : Cube}

/-! ## Covering is an order -/

theorem Canonical.covers_self (hc : c.Canonical) : c.covers c = true :=
  (hc.covers_iff hc).2 fun _ h => h

theorem Canonical.covers_trans (hc : c.Canonical) (hd : d.Canonical) (he : e.Canonical)
    (hcd : c.covers d = true) (hde : d.covers e = true) : c.covers e = true := by
  rw [hc.covers_iff hd] at hcd
  rw [hd.covers_iff he] at hde
  exact (hc.covers_iff he).2 fun point h => hcd point (hde point h)

theorem Canonical.eq_of_covers_of_care (hd : d.Canonical) (h : c.covers d = true)
    (hcare : c.care = d.care) : c = d := by
  rw [covers, Bool.and_eq_true, beq_iff_eq, beq_iff_eq] at h
  obtain ⟨care, value⟩ := c
  obtain ⟨care', value'⟩ := d
  obtain rfl : care = care' := hcare
  obtain rfl : value = value' := h.2.symm.trans hd
  rfl

theorem Canonical.covers_antisymm (hd : d.Canonical) (hcd : c.covers d = true)
    (hdc : d.covers c = true) : c = d := by
  refine hd.eq_of_covers_of_care hcd ?_
  rw [covers, Bool.and_eq_true, beq_iff_eq] at hcd hdc
  rw [← hcd.1, UInt64.and_comm, hdc.1]

/-- A cube has fewer literals than those that it covers. -/
theorem Canonical.size_lt_of_covers (hd : d.Canonical) (h : c.covers d = true) (hne : c ≠ d) :
    c.size < d.size := by
  have hshared : ∀ i, Bits.has c.care i = true → Bits.has d.care i = true := by
    intro i hi
    rw [covers, Bool.and_eq_true, beq_iff_eq] at h
    have hbit := congrArg (Bits.has · i) h.1
    simpa [hi] using hbit
  obtain ⟨i, hi, hdi, hci⟩ : ∃ i < 64, Bits.has d.care i = true ∧ Bits.has c.care i = false := by
    refine Classical.byContradiction fun hnone => hne (hd.eq_of_covers_of_care h ?_)
    refine Bits.eq_of_has fun i hi => Bool.eq_iff_iff.2 ⟨hshared i, fun hdi => ?_⟩
    exact eq_true_of_ne_false fun hci => hnone ⟨i, hi, hdi, hci⟩
  -- every literal of c is one of d, but not that of variable i
  have hsubset : Bits.positions c.care ⊆ Bits.positions (d.without (Bits.single i)).care := by
    intro j hj
    obtain ⟨hlt, hcj⟩ := Bits.mem_positions.1 hj
    have hji : j ≠ i := by
      rintro rfl
      rw [hci] at hcj
      cases hcj
    rw [Bits.mem_positions, Cube.without, Bits.has_and, Bits.has_not, Bits.has_single hlt hi]
    exact ⟨hlt, by simp [hshared j hcj, hji]⟩
  have hle := (Bits.nodup_positions c.care).length_le_of_subset hsubset
  have hsize := size_without hi hdi
  rw [size, size] at hsize ⊢
  omega

/-! ## The order of absorption -/

/-- Fewer literals first, then smaller `care`, then smaller `value`. -/
def Precedes (c d : Cube) : Prop :=
  c.size < d.size ∨ c.size = d.size ∧ (c.care < d.care ∨ c.care = d.care ∧ c.value < d.value)

theorem Precedes.ne (h : c.Precedes d) : c ≠ d := by
  rintro rfl
  simp [Precedes] at h

theorem Precedes.size_le (h : c.Precedes d) : c.size ≤ d.size := by
  rcases h with hlt | heq
  · exact Nat.le_of_lt hlt
  · exact Nat.le_of_eq heq.1

theorem sizedLe_iff {a b : Nat × Cube} :
    sizedLe a b = true ↔ a.1 < b.1 ∨ a.1 = b.1 ∧ a.2.le b.2 = true := by
  simp [sizedLe]

theorem sizedLe_antisymm (a b : Nat × Cube) (hab : sizedLe a b = true)
    (hba : sizedLe b a = true) : a = b := by
  rw [sizedLe_iff] at hab hba
  rcases hab with hlt | ⟨heq, hle⟩
  · omega
  · rcases hba with hlt | ⟨-, hge⟩
    · omega
    · exact Prod.ext heq (le_antisymm a.2 b.2 hle hge)

theorem sizedLe_trans (a b c : Nat × Cube) (hab : sizedLe a b = true)
    (hbc : sizedLe b c = true) : sizedLe a c = true := by
  rw [sizedLe_iff] at hab hbc ⊢
  rcases hab with hab | ⟨hab, hle⟩
  · exact .inl (by omega)
  · rcases hbc with hbc | ⟨hbc, hle'⟩
    · exact .inl (by omega)
    · exact .inr ⟨hab.trans hbc, le_trans a.2 b.2 c.2 hle hle'⟩

theorem sizedLe_total (a b : Nat × Cube) : (sizedLe a b || sizedLe b a) = true := by
  have hcubes := le_total a.2 b.2
  rw [Bool.or_eq_true] at hcubes ⊢
  rw [sizedLe_iff, sizedLe_iff]
  rcases Nat.lt_trichotomy a.1 b.1 with hlt | heq | hlt
  · exact .inl (.inl hlt)
  · exact hcubes.imp (fun hle => .inr ⟨heq, hle⟩) fun hle => .inr ⟨heq.symm, hle⟩
  · exact .inr (.inl hlt)

theorem precedes_of_sizedLe (h : sizedLe c.sized d.sized = true) (hne : c.sized ≠ d.sized) :
    c.Precedes d := by
  rcases sizedLe_iff.1 h with hlt | ⟨heq, hle⟩
  · exact .inl hlt
  · refine .inr ⟨heq, ?_⟩
    rcases le_iff.1 hle with hcare | ⟨hcare, hvalue⟩
    · exact .inl (UInt64.lt_iff_toNat_lt.2 hcare)
    · refine .inr ⟨UInt64.toNat_inj.1 hcare, UInt64.lt_iff_toNat_lt.2 ?_⟩
      refine Nat.lt_of_le_of_ne hvalue fun hsame => hne ?_
      have hback : d.le c = true := le_iff.2 (.inr ⟨hcare.symm, Nat.le_of_eq hsame.symm⟩)
      rw [le_antisymm c d hle hback]

end Cube

namespace Cover

variable {cubes : List Cube} {c d : Cube}

/-! ## One pass -/

/-- The cubes in the order in which absorption goes through them. -/
theorem pairwise_map_sized_ascending (cubes : List Cube) :
    ((ascending Cube.sizedLe (cubes.map Cube.sized)).map Prod.snd).Pairwise Cube.Precedes := by
  rw [List.pairwise_map]
  refine (pairwise_ascending Cube.sizedLe_antisymm Cube.sizedLe_trans Cube.sizedLe_total
    (cubes.map Cube.sized)).imp_of_mem ?_
  intro a b ha hb h
  obtain ⟨c, -, rfl⟩ := List.mem_map.1 (mem_ascending.1 ha)
  obtain ⟨d, -, rfl⟩ := List.mem_map.1 (mem_ascending.1 hb)
  exact Cube.precedes_of_sizedLe h.1 h.2

theorem keepUncovered_sublist (kept cubes : List Cube) :
    (keepUncovered kept cubes).Sublist (kept.reverse ++ cubes) := by
  fun_induction keepUncovered kept cubes with
  | case1 kept => simp
  | case2 kept c cs _ ih =>
    exact ih.trans ((List.Sublist.refl kept.reverse).append (List.sublist_cons_self c cs))
  | case3 kept c cs _ ih => simpa using ih

/-- No cube that is kept covers one that is kept after it. -/
theorem pairwise_keepUncovered {kept : List Cube}
    (h : kept.reverse.Pairwise fun c d => c.covers d = false) (cubes : List Cube) :
    (keepUncovered kept cubes).Pairwise fun c d => c.covers d = false := by
  fun_induction keepUncovered kept cubes with
  | case1 kept => exact h
  | case2 kept c cs _ ih => exact ih h
  | case3 kept c cs hnone ih =>
    apply ih
    rw [List.reverse_cons, List.pairwise_append]
    refine ⟨h, List.pairwise_singleton _ c, fun k hk d hd => ?_⟩
    rw [List.mem_singleton.1 hd]
    refine Bool.eq_false_iff.2 fun hcovers => hnone ?_
    exact List.any_eq_true.2 ⟨k, List.mem_reverse.1 hk, hcovers⟩

/-- What is kept stays, and every cube is covered by one that is kept. -/
theorem exists_covers_of_mem_keepUncovered {kept : List Cube} (hc : c.Canonical)
    (h : (∃ k ∈ kept, k.covers c = true) ∨ c ∈ cubes) :
    ∃ k ∈ keepUncovered kept cubes, k.covers c = true := by
  fun_induction keepUncovered kept cubes with
  | case1 kept =>
    rcases h with ⟨k, hk, hcovers⟩ | hmem
    · exact ⟨k, List.mem_reverse.2 hk, hcovers⟩
    · exact absurd hmem List.not_mem_nil
  | case2 kept d ds hd ih =>
    apply ih
    rcases h with hkept | hmem
    · exact .inl hkept
    · rcases List.mem_cons.1 hmem with rfl | hmem
      · exact .inl (List.any_eq_true.1 hd)
      · exact .inr hmem
  | case3 kept d ds _ ih =>
    apply ih
    rcases h with ⟨k, hk, hcovers⟩ | hmem
    · exact .inl ⟨k, List.mem_cons_of_mem d hk, hcovers⟩
    · rcases List.mem_cons.1 hmem with rfl | hmem
      · exact .inl ⟨c, List.mem_cons_self, hc.covers_self⟩
      · exact .inr hmem

/-! ## What absorption keeps -/

theorem pairwise_absorb (cubes : List Cube) : (absorb cubes).Pairwise Cube.Precedes :=
  (pairwise_map_sized_ascending cubes).sublist (keepUncovered_sublist [] _)

theorem nodup_absorb (cubes : List Cube) : (absorb cubes).Nodup :=
  (pairwise_absorb cubes).imp Cube.Precedes.ne

/-- Every cube is absorbed by one that is kept. -/
theorem exists_covers_of_mem_absorb (hc : c.Canonical) (hmem : c ∈ cubes) :
    ∃ k ∈ absorb cubes, k.covers c = true :=
  exists_covers_of_mem_keepUncovered hc (.inr (mem_map_sized_ascending.2 hmem))

/-- Of the cubes that are kept none covers another: a later one has at least as many literals. -/
theorem eq_of_covers_of_mem_absorb (hcanonical : ∀ c ∈ cubes, c.Canonical)
    (hc : c ∈ absorb cubes) (hd : d ∈ absorb cubes) (h : c.covers d = true) : c = d := by
  have huncovered : (absorb cubes).Pairwise fun c d => c.covers d = false :=
    pairwise_keepUncovered .nil _
  obtain ⟨i, hi, rfl⟩ := List.getElem_of_mem hc
  obtain ⟨j, hj, rfl⟩ := List.getElem_of_mem hd
  rcases Nat.lt_trichotomy i j with hlt | rfl | hlt
  · have hfalse := List.pairwise_iff_getElem.1 huncovered i j hi hj hlt
    rw [h] at hfalse
    cases hfalse
  · rfl
  · have hprecedes := List.pairwise_iff_getElem.1 (pairwise_absorb cubes) j i hj hi hlt
    have hless := (hcanonical _ (mem_of_mem_absorb hd)).size_lt_of_covers h hprecedes.ne.symm
    exact absurd hprecedes.size_le (Nat.not_le.2 hless)

/-- Absorption keeps the cubes that no other cube of the cover covers. -/
theorem mem_absorb_iff (hcanonical : ∀ c ∈ cubes, c.Canonical) :
    c ∈ absorb cubes ↔ c ∈ cubes ∧ ∀ d ∈ cubes, d.covers c = true → d = c := by
  constructor
  · intro hc
    have hmem := mem_of_mem_absorb hc
    refine ⟨hmem, fun d hd hdc => ?_⟩
    obtain ⟨k, hk, hkd⟩ := exists_covers_of_mem_absorb (hcanonical d hd) hd
    have hkc : k.covers c = true :=
      (hcanonical k (mem_of_mem_absorb hk)).covers_trans (hcanonical d hd) (hcanonical c hmem)
        hkd hdc
    obtain rfl := eq_of_covers_of_mem_absorb hcanonical hk hc hkc
    exact (hcanonical k hmem).covers_antisymm hdc hkd
  · rintro ⟨hmem, hmaximal⟩
    obtain ⟨k, hk, hkc⟩ := exists_covers_of_mem_absorb (hcanonical c hmem) hmem
    exact hmaximal k (mem_of_mem_absorb hk) hkc ▸ hk

theorem holdsAt_eq_contains (hcanonical : ∀ c ∈ cubes, c.Canonical) {point : UInt64} :
    holdsAt cubes point = true ↔ ∃ c ∈ cubes, c.contains point = true := by
  rw [holdsAt_iff]
  refine exists_congr fun c => and_congr_right fun hc => ?_
  rw [(hcanonical c hc).contains_eq_agrees]

theorem absorb_congr {others : List Cube} (h : ∀ c, c ∈ others ↔ c ∈ cubes) :
    absorb others = absorb cubes := by
  have hsorted : ascending Cube.sizedLe (others.map Cube.sized) =
      ascending Cube.sizedLe (cubes.map Cube.sized) := by
    refine ascending_congr Cube.sizedLe_antisymm Cube.sizedLe_trans Cube.sizedLe_total fun a => ?_
    simp only [List.mem_map, h]
  rw [absorb, absorb, hsorted]

/-- Absorption is exact.  It keeps the cubes that no other cube of the cover covers, each once and
in the order of their sizes and then of cubes; they contain the same points as the cover; and
neither the order nor the repetitions of the cubes of the cover matter. -/
theorem absorb_exact {cubes : List Cube} (hcanonical : ∀ c ∈ cubes, c.Canonical) :
    (absorb cubes).Nodup ∧ (∀ c ∈ absorb cubes, c ∈ cubes) ∧
    (absorb cubes).Pairwise Cube.Precedes ∧
    (∀ c ∈ absorb cubes, ∀ d ∈ absorb cubes, c.covers d = true → c = d) ∧
    (∀ point, (∃ c ∈ absorb cubes, c.contains point = true) ↔
      ∃ c ∈ cubes, c.contains point = true) ∧
    (∀ c, c ∈ absorb cubes ↔ c ∈ cubes ∧ ∀ d ∈ cubes, d.covers c = true → d = c) ∧
    ∀ others : List Cube, (∀ c, c ∈ others ↔ c ∈ cubes) → absorb others = absorb cubes := by
  have hkept : ∀ c ∈ absorb cubes, c.Canonical := fun c hc =>
    hcanonical c (mem_of_mem_absorb hc)
  refine ⟨nodup_absorb cubes, fun c => mem_of_mem_absorb, pairwise_absorb cubes,
    fun c hc d hd => eq_of_covers_of_mem_absorb hcanonical hc hd, fun point => ?_,
    fun c => mem_absorb_iff hcanonical, fun others => absorb_congr⟩
  rw [← holdsAt_eq_contains hkept, ← holdsAt_eq_contains hcanonical, holdsAt_absorb]

/-- A product of two literals, another literal, and the first literal of the product twice. -/
def repeated : List Cube :=
  [⟨3, 3⟩, Cube.literal 63 false, Cube.literal 0 true, Cube.literal 0 true]

/-- A literal absorbs its repetition and the product that it is part of. -/
theorem absorb_exact_repeated : (∀ c ∈ repeated, c.Canonical) ∧
    absorb repeated = [Cube.literal 0 true, Cube.literal 63 false] := by
  have hproduct : (⟨3, 3⟩ : Cube).Canonical := rfl
  have hcanonical : ∀ c ∈ repeated, c.Canonical := by
    simp [repeated, hproduct, Cube.canonical_literal]
  have hsorted : ([Cube.literal 0 true, Cube.literal 63 false, ⟨3, 3⟩].map Cube.sized).Pairwise
      fun a b => Cube.sizedLe a b = true := by decide
  have habsorb : absorb [Cube.literal 0 true, Cube.literal 63 false, ⟨3, 3⟩] =
      [Cube.literal 0 true, Cube.literal 63 false] := by
    rw [absorb, ascending, List.mergeSort_of_pairwise hsorted]
    decide
  have hset : ∀ c, c ∈ [Cube.literal 0 true, Cube.literal 63 false, ⟨3, 3⟩] ↔ c ∈ repeated := by
    intro c
    simp only [repeated, List.mem_cons, List.not_mem_nil]
    grind
  obtain ⟨-, -, -, -, -, -, hcongr⟩ := absorb_exact hcanonical
  exact ⟨hcanonical, (hcongr _ hset).symm.trans habsorb⟩

end Cover

end StreamFilter
