import StreamFilter.Cube.Cover
import StreamFilter.Proofs.Cube.Points
set_option autoImplicit false

/-!
# Covers as sets of points

`Cover.holdsAt` is the value of a cover at a point.  In its terms the operations on
covers mean what they should: absorption changes nothing (`holdsAt_absorb`), the
tautology check is exact (`isTautology_iff`), and so is the implication of a cube
(`implies_iff`).  Cubes need not be canonical here.

The covers that the check comes to are those that `SplitsInto` reaches; each has less mass
than the one before it.
-/

namespace StreamFilter.Cover

/-- Whether a point agrees with some cube of a cover. -/
def holdsAt (cubes : List Cube) (point : UInt64) : Bool := cubes.any (·.agrees point)

@[simp] theorem holdsAt_nil (point : UInt64) : holdsAt [] point = false := rfl

@[simp] theorem holdsAt_cons (c : Cube) (cs : List Cube) (point : UInt64) :
    holdsAt (c :: cs) point = (c.agrees point || holdsAt cs point) := rfl

@[simp] theorem holdsAt_append (cs ds : List Cube) (point : UInt64) :
    holdsAt (cs ++ ds) point = (holdsAt cs point || holdsAt ds point) :=
  List.any_append

theorem holdsAt_iff {cubes : List Cube} {point : UInt64} :
    holdsAt cubes point = true ↔ ∃ c ∈ cubes, c.agrees point = true :=
  List.any_eq_true

theorem holdsAt_congr {cs ds : List Cube} (h : ∀ c, c ∈ cs ↔ c ∈ ds) (point : UInt64) :
    holdsAt cs point = holdsAt ds point := by
  rw [Bool.eq_iff_iff, holdsAt_iff, holdsAt_iff]
  simp only [h]

/-! ## Absorption -/

theorem mem_of_mem_keepUncovered {kept cubes : List Cube} {c : Cube}
    (h : c ∈ keepUncovered kept cubes) : c ∈ kept ∨ c ∈ cubes := by
  fun_induction keepUncovered kept cubes with
  | case1 kept => exact .inl (List.mem_reverse.1 h)
  | case2 kept d ds _ ih => exact (ih h).imp_right (List.mem_cons_of_mem d)
  | case3 kept d ds _ ih =>
    rcases ih h with hk | hd
    · rcases List.mem_cons.1 hk with rfl | hk
      · exact .inr List.mem_cons_self
      · exact .inl hk
    · exact .inr (List.mem_cons_of_mem d hd)

theorem holdsAt_keepUncovered (kept cubes : List Cube) (point : UInt64) :
    holdsAt (keepUncovered kept cubes) point = (holdsAt kept point || holdsAt cubes point) := by
  fun_induction keepUncovered kept cubes with
  | case1 kept =>
    rw [holdsAt_nil, Bool.or_false]
    exact holdsAt_congr (fun c => List.mem_reverse) point
  | case2 kept d ds hd ih =>
    -- the dropped cube holds only where the kept cube that covers it holds
    obtain ⟨k, hk, hkd⟩ := List.any_eq_true.1 hd
    have hdrop : (holdsAt kept point || d.agrees point) = holdsAt kept point := by
      cases hpoint : d.agrees point with
      | false => exact Bool.or_false _
      | true =>
        have hkept : holdsAt kept point = true :=
          holdsAt_iff.2 ⟨k, hk, Cube.agrees_of_covers hkd hpoint⟩
        rw [hkept]
        rfl
    rw [ih, holdsAt_cons, ← Bool.or_assoc, hdrop]
  | case3 kept d ds _ ih =>
    rw [ih, holdsAt_cons, holdsAt_cons, Bool.or_comm (d.agrees point), Bool.or_assoc]

theorem mem_map_sized_ascending {cubes : List Cube} {c : Cube} :
    c ∈ (ascending Cube.sizedLe (cubes.map Cube.sized)).map Prod.snd ↔ c ∈ cubes := by
  simp [Cube.sized]

/-- Absorption keeps cubes of the cover only. -/
theorem mem_of_mem_absorb {cubes : List Cube} {c : Cube} (h : c ∈ absorb cubes) : c ∈ cubes := by
  rcases mem_of_mem_keepUncovered h with hnil | hmem
  · exact absurd hnil List.not_mem_nil
  · exact mem_map_sized_ascending.1 hmem

/-- Absorption changes the value of a cover nowhere. -/
theorem holdsAt_absorb (cubes : List Cube) (point : UInt64) :
    holdsAt (absorb cubes) point = holdsAt cubes point := by
  rw [absorb, holdsAt_keepUncovered, holdsAt_nil, Bool.false_or]
  exact holdsAt_congr (fun c => mem_map_sized_ascending) point

/-! ## Cofactors -/

/-- Inside a cube, a cover and its cofactor have the same value. -/
theorem holdsAt_cofactor (cubes : List Cube) {d : Cube} {point : UInt64}
    (hd : d.agrees point = true) : holdsAt (cofactor cubes d) point = holdsAt cubes point := by
  rw [Bool.eq_iff_iff, holdsAt_iff, holdsAt_iff]
  constructor
  · rintro ⟨e, he, hpoint⟩
    obtain ⟨c, hc, rfl⟩ := List.mem_map.1 he
    obtain ⟨hc, hcd⟩ := List.mem_filter.1 hc
    refine ⟨c, hc, ?_⟩
    rw [Cube.agrees_without] at hpoint
    rw [Cube.compatible_iff] at hcd
    rw [Cube.agrees_iff] at hd ⊢
    intro i hi hcare
    cases hdi : Bits.has d.care i with
    | false => exact hpoint i hi hcare hdi
    | true => rw [hcd i hi hcare hdi, hd i hi hdi]
  · rintro ⟨c, hc, hpoint⟩
    refine ⟨c.without d.care, ?_, Cube.agrees_without_of_agrees _ hpoint⟩
    exact List.mem_map_of_mem (List.mem_filter.2 ⟨hc, Cube.compatible_of_agrees hpoint hd⟩)

/-- A cofactor does not look at the variables of its cube. -/
theorem holdsAt_cofactor_place (cubes : List Cube) (d : Cube) (point : UInt64) :
    holdsAt (cofactor cubes d) (d.place point) = holdsAt (cofactor cubes d) point := by
  have hwithout : ∀ c : Cube,
      (c.without d.care).agrees (d.place point) = (c.without d.care).agrees point := by
    intro c
    rw [Bool.eq_iff_iff, Cube.agrees_without, Cube.agrees_without]
    constructor <;> intro h i hi hcare hfree
    · have hbit := h i hi hcare hfree
      rwa [Cube.has_place, hfree] at hbit
    · rw [Cube.has_place, hfree]
      exact h i hi hcare hfree
  unfold holdsAt cofactor
  rw [List.any_map, List.any_map]
  simp only [Function.comp_def, hwithout]

/-- A cofactor holds everywhere when the cover holds throughout the cube. -/
theorem forall_holdsAt_cofactor_iff {cubes : List Cube} {d : Cube} :
    (∀ point, holdsAt (cofactor cubes d) point = true) ↔
      ∀ point, d.agrees point = true → holdsAt cubes point = true := by
  constructor
  · intro h point hd
    rw [← holdsAt_cofactor cubes hd]
    exact h point
  · intro h point
    have hplace := d.agrees_place point
    rw [← holdsAt_cofactor_place, holdsAt_cofactor cubes hplace]
    exact h _ hplace

/-! ## Unate covers -/

theorem has_positives {cubes : List Cube} {i : Nat} :
    Bits.has (positives cubes) i = true ↔
      ∃ c ∈ cubes, Bits.has c.care i = true ∧ Bits.has c.value i = true := by
  induction cubes with
  | nil => simp [positives]
  | cons c cs ih => simp [positives, ih]

theorem has_negatives {cubes : List Cube} {i : Nat} :
    Bits.has (negatives cubes) i = true ↔
      ∃ c ∈ cubes, Bits.has c.care i = true ∧ Bits.has c.value i = false := by
  induction cubes with
  | nil => simp [negatives]
  | cons c cs ih => simp [negatives, ih]

/-- A unate cover without the empty product fails where each variable has the
polarity in which it does not occur. -/
theorem holdsAt_negatives_of_unate {cubes : List Cube} (hunate : binate cubes = 0)
    (hnone : cubes.any (·.care == 0) = false) : holdsAt cubes (negatives cubes) = false := by
  rw [Bool.eq_false_iff]
  intro hholds
  obtain ⟨c, hc, hagrees⟩ := holdsAt_iff.1 hholds
  have hcare : c.care ≠ 0 := by
    intro hzero
    have htrue : cubes.any (·.care == 0) = true := List.any_eq_true.2 ⟨c, hc, by simp [hzero]⟩
    rw [hnone] at htrue
    cases htrue
  obtain ⟨i, hi, hci⟩ : ∃ i < 64, Bits.has c.care i = true := by
    refine Classical.byContradiction fun hno => hcare (Bits.eq_zero_iff.2 fun i hi => ?_)
    exact Bool.eq_false_iff.2 fun hbit => hno ⟨i, hi, hbit⟩
  have hbit := Cube.agrees_iff.1 hagrees i hi hci
  cases hvalue : Bits.has c.value i with
  | false =>
    have hneg := has_negatives.2 ⟨c, hc, hci, hvalue⟩
    rw [hneg, hvalue] at hbit
    cases hbit
  | true =>
    have hpos := has_positives.2 ⟨c, hc, hci, hvalue⟩
    rw [hvalue] at hbit
    have hboth : Bits.has (binate cubes) i = true := by simp [binate, hpos, hbit]
    rw [hunate, Bits.has_zero] at hboth
    cases hboth

/-! ## The variable of a split -/

theorem isSome_moreFrequent (cubes : List Cube) (best : Option (UInt64 × Nat)) (bit : UInt64) :
    (moreFrequent cubes best bit).isSome = true := by
  cases best with
  | none => rfl
  | some x =>
    unfold moreFrequent
    dsimp only
    split <;> rfl

theorem mostFrequent?_cons_isSome (cubes : List Cube) (bit : UInt64) (bits : List UInt64) :
    (mostFrequent? cubes (bit :: bits)).isSome = true := by
  rw [mostFrequent?, Option.isSome_map, List.foldl_cons]
  exact List.foldlRecOn (motive := fun best => best.isSome = true) bits _
    (isSome_moreFrequent cubes none bit) fun best _ b _ => isSome_moreFrequent cubes best b

theorem binate_eq_zero_of_splitBit? {cubes : List Cube} (h : splitBit? cubes = none) :
    binate cubes = 0 := by
  unfold splitBit? at h
  cases hpos : Bits.positions (binate cubes) with
  | nil =>
    rw [Bits.eq_zero_iff]
    intro i hi
    refine Bool.eq_false_iff.2 fun hbit => ?_
    have hmem := Bits.mem_positions.2 ⟨hi, hbit⟩
    rw [hpos] at hmem
    exact absurd hmem List.not_mem_nil
  | cons i is =>
    rw [hpos, List.map_cons] at h
    have hsome := mostFrequent?_cons_isSome cubes (Bits.single i) (is.map Bits.single)
    rw [h] at hsome
    cases hsome

theorem exists_single_of_splitBit? {cubes : List Cube} {bit : UInt64}
    (h : splitBit? cubes = some bit) : ∃ i < 64, bit = Bits.single i := by
  obtain ⟨i, hi, rfl⟩ := List.mem_map.1 (mem_of_mostFrequent? h)
  exact ⟨i, (Bits.mem_positions.1 hi).1, rfl⟩

/-- Every point lies in one half of a split. -/
theorem agrees_halves {i : Nat} (hi : i < 64) (point : UInt64) :
    (⟨Bits.single i, Bits.single i⟩ : Cube).agrees point = true ∨
      (⟨Bits.single i, 0⟩ : Cube).agrees point = true := by
  have hpos : (⟨Bits.single i, Bits.single i⟩ : Cube) = Cube.literal i true := rfl
  have hneg : (⟨Bits.single i, 0⟩ : Cube) = Cube.literal i false := rfl
  rw [hpos, hneg, Cube.agrees_literal hi, Cube.agrees_literal hi]
  cases Bits.has point i <;> simp

/-! ## Tautology and implication are exact -/

theorem isTautology_iff {cubes : List Cube} :
    isTautology cubes = true ↔ ∀ point, holdsAt cubes point = true := by
  fun_induction isTautology cubes with
  | case1 cubes hempty =>
    obtain ⟨c, hc, hzero⟩ := List.any_eq_true.1 hempty
    refine iff_of_true rfl fun point => holdsAt_iff.2 ⟨c, hc, ?_⟩
    exact Cube.agrees_of_care_eq_zero (beq_iff_eq.1 hzero) point
  | case2 cubes _ bit hsplit _ _ ihpos ihneg =>
    obtain ⟨i, hi, rfl⟩ := exists_single_of_splitBit? hsplit
    rw [Bool.and_eq_true, ihpos, ihneg, forall_holdsAt_cofactor_iff, forall_holdsAt_cofactor_iff]
    constructor
    · rintro ⟨hpos, hneg⟩ point
      rcases agrees_halves hi point with h | h
      · exact hpos point h
      · exact hneg point h
    · intro h
      exact ⟨fun point _ => h point, fun point _ => h point⟩
  | case3 cubes hempty hsplit =>
    refine iff_of_false Bool.false_ne_true fun hall => ?_
    have hfalse := holdsAt_negatives_of_unate (binate_eq_zero_of_splitBit? hsplit)
      (Bool.eq_false_iff.2 hempty)
    rw [hall] at hfalse
    cases hfalse

theorem implies_iff {cubes : List Cube} {d : Cube} :
    implies cubes d = true ↔ ∀ point, d.agrees point = true → holdsAt cubes point = true := by
  rw [implies_eq, isTautology_iff, forall_holdsAt_cofactor_iff]

/-! ## The check ends -/

/-- The covers that a cover is split into: without the empty product, the cofactors by the two
literals of the chosen variable. -/
inductive SplitsInto (cubes : List Cube) : List Cube → Prop where
  | positive {bit : UInt64} : cubes.any (·.care == 0) = false → splitBit? cubes = some bit →
      SplitsInto cubes (cofactor cubes ⟨bit, bit⟩)
  | negative {bit : UInt64} : cubes.any (·.care == 0) = false → splitBit? cubes = some bit →
      SplitsInto cubes (cofactor cubes ⟨bit, 0⟩)

theorem mass_lt_of_splitsInto {cubes half : List Cube} (h : SplitsInto cubes half) :
    mass half < mass cubes := by
  cases h with
  | positive _ hsplit => exact mass_cofactor_lt (exists_care_of_splitBit? hsplit)
  | negative _ hsplit => exact mass_cofactor_lt (exists_care_of_splitBit? hsplit)

/-- No cover is split forever. -/
theorem wellFounded_splitsInto : WellFounded fun half cubes => SplitsInto cubes half :=
  Subrelation.wf mass_lt_of_splitsInto (measure mass).wf

/-- The check is the recursion over these splits: yes with the empty product, no where there is
nothing to split, and otherwise what it answers for both halves. -/
theorem isTautology_iff_splitsInto {cubes : List Cube} :
    isTautology cubes = true ↔ cubes.any (·.care == 0) = true ∨
      (∃ half, SplitsInto cubes half) ∧
        ∀ half, SplitsInto cubes half → isTautology half = true := by
  fun_cases isTautology cubes with
  | case1 hempty => exact iff_of_true rfl (.inl hempty)
  | case2 hempty bit hsplit =>
    have hempty : cubes.any (·.care == 0) = false := Bool.eq_false_iff.2 hempty
    rw [Bool.and_eq_true, hempty]
    constructor
    · rintro ⟨hpos, hneg⟩
      refine .inr ⟨⟨_, .positive hempty hsplit⟩, fun half hhalf => ?_⟩
      cases hhalf with
      | positive _ hother => cases hsplit.symm.trans hother; exact hpos
      | negative _ hother => cases hsplit.symm.trans hother; exact hneg
    · rintro (habsurd | ⟨-, hhalves⟩)
      · cases habsurd
      · exact ⟨hhalves _ (.positive hempty hsplit), hhalves _ (.negative hempty hsplit)⟩
  | case3 hempty hsplit =>
    refine iff_of_false Bool.false_ne_true ?_
    rintro (habsurd | ⟨⟨half, hhalf⟩, -⟩)
    · exact hempty habsurd
    · cases hhalf with
      | positive _ hother => cases hsplit.symm.trans hother
      | negative _ hother => cases hsplit.symm.trans hother

/-- The tautology check is a recursion that ends on every cover, and it is exact: it succeeds if
every point agrees with some cube on the variables of that cube.  So is the implication of a
cube, which asks this of the points of the cube only. -/
theorem isTautology_exact :
    (WellFounded fun half cubes => SplitsInto cubes half) ∧
    (∀ cubes : List Cube, isTautology cubes = true ↔ cubes.any (·.care == 0) = true ∨
      (∃ half, SplitsInto cubes half) ∧ ∀ half, SplitsInto cubes half → isTautology half = true) ∧
    (∀ cubes : List Cube, isTautology cubes = true ↔
      ∀ point : UInt64, ∃ c ∈ cubes, point &&& c.care = c.value &&& c.care) ∧
    ∀ (cubes : List Cube) (d : Cube), implies cubes d = true ↔
      ∀ point : UInt64, point &&& d.care = d.value &&& d.care →
        ∃ c ∈ cubes, point &&& c.care = c.value &&& c.care := by
  refine ⟨wellFounded_splitsInto, fun _ => isTautology_iff_splitsInto, fun cubes => ?_,
    fun cubes d => ?_⟩
  · simp only [isTautology_iff, holdsAt_iff, Cube.agrees, beq_iff_eq]
  · simp only [implies_iff, holdsAt_iff, Cube.agrees, beq_iff_eq]

end StreamFilter.Cover
