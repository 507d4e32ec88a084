import StreamFilter.Cube.Basic
set_option autoImplicit false

/-!
# The points of a cube

A point is a word whose bit `i` is the value of variable `i`.  A cube holds at the
points that agree with it on its variables, `Cube.agrees`.  Bits of `value` outside
`care` do not matter for agreement; a cube without such bits is canonical, and its
points are those that `Cube.contains` accepts.  It agrees where each of its literals does
(`Cube.agrees_iff_literals`).

Everything here is said bit by bit, through `Bits.has`.
-/

namespace StreamFilter

namespace Bits

/-! ## Bits of words -/

theorem toBitVec_single (i : Nat) : (single i).toBitVec = BitVec.twoPow 64 (i % 64) := by
  have hmod : (UInt64.ofNat i).toBitVec % 64 = BitVec.ofNat 64 (i % 64) := by
    apply BitVec.eq_of_toNat_eq
    rw [UInt64.toBitVec_ofNat', BitVec.toNat_umod, BitVec.toNat_ofNat, BitVec.toNat_ofNat,
      show BitVec.toNat (64 : BitVec 64) = 64 by decide]
    omega
  have hlt : i % 64 % 2 ^ 64 = i % 64 := Nat.mod_eq_of_lt (by omega)
  rw [single, UInt64.toBitVec_shiftLeft, BitVec.twoPow_eq]
  show 1#64 <<< ((UInt64.ofNat i).toBitVec % 64) = 1#64 <<< (i % 64)
  rw [hmod, BitVec.shiftLeft_eq', BitVec.toNat_ofNat, hlt]

/-- Bit numbers count modulo the width of a word. -/
theorem has_eq_getLsbD (w : UInt64) (i : Nat) : has w i = w.toBitVec.getLsbD (i % 64) := by
  have hand : (w &&& single i).toBitVec =
      if w.toBitVec.getLsbD (i % 64) then BitVec.twoPow 64 (i % 64) else 0#64 := by
    rw [UInt64.toBitVec_and, toBitVec_single, BitVec.and_twoPow]
  unfold has
  cases hbit : w.toBitVec.getLsbD (i % 64) with
  | false =>
    have hzero : w &&& single i = 0 := by
      apply UInt64.toBitVec_inj.1
      rw [hand, hbit]
      rfl
    simp [hzero]
  | true =>
    have hne : w &&& single i ≠ 0 := by
      intro hzero
      have hpow : BitVec.twoPow 64 (i % 64) = 0#64 := by
        have h := congrArg UInt64.toBitVec hzero
        rw [hand, hbit] at h
        simpa using h
      have hself : (BitVec.twoPow 64 (i % 64)).getLsbD (i % 64) = true := by
        rw [BitVec.getLsbD_twoPow]
        simp [Nat.mod_lt i (by decide : 0 < 64)]
      rw [hpow] at hself
      simp at hself
    simpa using hne

theorem has_eq_testBit (w : UInt64) {i : Nat} (hi : i < 64) : has w i = w.toNat.testBit i := by
  rw [has_eq_getLsbD, Nat.mod_eq_of_lt hi]
  rfl

@[simp] theorem has_zero (i : Nat) : has 0 i = false := by
  simp [has_eq_getLsbD]

@[simp] theorem has_and (u w : UInt64) (i : Nat) : has (u &&& w) i = (has u i && has w i) := by
  simp [has_eq_getLsbD]

@[simp] theorem has_or (u w : UInt64) (i : Nat) : has (u ||| w) i = (has u i || has w i) := by
  simp [has_eq_getLsbD]

@[simp] theorem has_xor (u w : UInt64) (i : Nat) : has (u ^^^ w) i = (has u i ^^ has w i) := by
  simp [has_eq_getLsbD]

@[simp] theorem has_not (w : UInt64) (i : Nat) : has (~~~w) i = !has w i := by
  have hlt : i % 64 < 64 := Nat.mod_lt i (by decide)
  simp [has_eq_getLsbD, hlt]

theorem has_single {i j : Nat} (hi : i < 64) (hj : j < 64) :
    has (single j) i = decide (i = j) := by
  rw [has_eq_getLsbD, toBitVec_single, BitVec.getLsbD_twoPow, Nat.mod_eq_of_lt hi,
    Nat.mod_eq_of_lt hj]
  simp [hj, eq_comm]

/-- A word is determined by its bits. -/
theorem eq_of_has {u w : UInt64} (h : ∀ i < 64, has u i = has w i) : u = w := by
  apply UInt64.toBitVec_inj.1
  apply BitVec.eq_of_getLsbD_eq
  intro i hi
  have hbit := h i hi
  rwa [has_eq_getLsbD, has_eq_getLsbD, Nat.mod_eq_of_lt hi] at hbit

theorem eq_zero_iff {w : UInt64} : w = 0 ↔ ∀ i < 64, has w i = false := by
  constructor
  · rintro rfl i _
    exact has_zero i
  · intro h
    exact eq_of_has fun i hi => by rw [h i hi, has_zero]

@[simp] theorem mem_positions {w : UInt64} {i : Nat} :
    i ∈ positions w ↔ i < 64 ∧ has w i = true := by
  simp [positions, all]

/-- The word in which, of some bits, those are set that are true. -/
def gather (truth : Nat → Bool) : List Nat → UInt64
  | [] => 0
  | i :: is => if truth i then single i ||| gather truth is else gather truth is

theorem has_gather (truth : Nat → Bool) {i : Nat} (hi : i < 64) (is : List Nat)
    (his : ∀ j ∈ is, j < 64) : has (gather truth is) i = (is.contains i && truth i) := by
  induction is with
  | nil => simp [gather]
  | cons j js ih =>
    have hj : j < 64 := his j List.mem_cons_self
    have hrest := ih fun k hk => his k (List.mem_cons_of_mem _ hk)
    rw [gather, List.contains_cons]
    by_cases hij : i = j
    · subst hij
      cases htruth : truth i with
      | false => simp [hrest, htruth]
      | true => simp [has_single hi hi]
    · have hbeq : (i == j) = false := beq_false_of_ne hij
      cases htruth : truth j with
      | false => simp [hrest, hbeq]
      | true => simp [hrest, hij, hbeq, has_single hi hj]

/-- The point at which the variables have the values of an assignment. -/
def ofTruth (truth : Nat → Bool) : UInt64 := gather truth all

theorem has_ofTruth (truth : Nat → Bool) {i : Nat} (hi : i < 64) :
    has (ofTruth truth) i = truth i := by
  rw [ofTruth, has_gather truth hi all (by simp [all])]
  simp [all, hi]

end Bits

namespace Cube

/-! ## Agreement -/

/-- Whether a point has the polarity of the cube at each of its variables. -/
def agrees (c : Cube) (point : UInt64) : Bool := point &&& c.care == c.value &&& c.care

/-- Whether every bit of `value` lies within `care`. -/
def Canonical (c : Cube) : Prop := c.value &&& c.care = c.value

instance (c : Cube) : Decidable c.Canonical := inferInstanceAs (Decidable (_ = _))

theorem agrees_iff {c : Cube} {point : UInt64} :
    c.agrees point = true ↔
      ∀ i < 64, Bits.has c.care i = true → Bits.has point i = Bits.has c.value i := by
  rw [agrees, beq_iff_eq]
  constructor
  · intro h i _ hcare
    have hbit := congrArg (Bits.has · i) h
    simpa [hcare] using hbit
  · intro h
    apply Bits.eq_of_has
    intro i hi
    rw [Bits.has_and, Bits.has_and]
    cases hcare : Bits.has c.care i with
    | false => simp
    | true => rw [h i hi hcare]

theorem canonical_iff {c : Cube} :
    c.Canonical ↔ ∀ i < 64, Bits.has c.value i = true → Bits.has c.care i = true := by
  constructor
  · intro h i _ hvalue
    have hbit := congrArg (Bits.has · i) h
    simpa [hvalue] using hbit
  · intro h
    apply Bits.eq_of_has
    intro i hi
    rw [Bits.has_and]
    cases hvalue : Bits.has c.value i with
    | false => rfl
    | true => rw [h i hi hvalue]; rfl

theorem Canonical.has_value_of_has_care {c : Cube} (h : c.Canonical) {i : Nat} (hi : i < 64)
    (hcare : Bits.has c.care i = false) : Bits.has c.value i = false := by
  refine Bool.eq_false_iff.2 fun hvalue => ?_
  rw [canonical_iff.1 h i hi hvalue] at hcare
  cases hcare

/-- A cube is determined by the bits of its words. -/
theorem eq_of_has {c d : Cube} (hcare : ∀ i < 64, Bits.has c.care i = Bits.has d.care i)
    (hvalue : ∀ i < 64, Bits.has c.value i = Bits.has d.value i) : c = d := by
  obtain ⟨care, value⟩ := c
  obtain ⟨care', value'⟩ := d
  obtain rfl : care = care' := Bits.eq_of_has hcare
  obtain rfl : value = value' := Bits.eq_of_has hvalue
  rfl

theorem Canonical.contains_eq_agrees {c : Cube} (h : c.Canonical) (point : UInt64) :
    c.contains point = c.agrees point := by
  rw [contains, agrees, h]

/-! ## Operations on cubes -/

theorem canonical_everything : everything.Canonical := rfl

theorem canonical_literal (i : Nat) (positive : Bool) : (literal i positive).Canonical := by
  cases positive <;> simp [literal, Canonical]

theorem Canonical.without {c : Cube} (h : c.Canonical) (bits : UInt64) :
    (c.without bits).Canonical := by
  rw [canonical_iff] at h ⊢
  intro i hi hvalue
  simp only [Cube.without, Bits.has_and, Bits.has_not, Bool.and_eq_true] at hvalue ⊢
  exact ⟨h i hi hvalue.1, hvalue.2⟩

@[simp] theorem agrees_everything (point : UInt64) : everything.agrees point = true := by
  simp [agrees, everything]

theorem agrees_literal {i : Nat} (hi : i < 64) (positive : Bool) (point : UInt64) :
    (literal i positive).agrees point = (Bits.has point i == positive) := by
  rw [Bool.eq_iff_iff, agrees_iff, beq_iff_eq]
  constructor
  · intro h
    have hself := h i hi (by simp [literal, Bits.has_single hi hi])
    rw [hself]
    cases positive <;> simp [literal, Bits.has_single hi hi]
  · intro h j hj hcare
    have hij : j = i := by simpa [literal, Bits.has_single hj hi] using hcare
    subst hij
    rw [h]
    cases positive <;> simp [literal, Bits.has_single hj hj]

theorem compatible_iff {c d : Cube} :
    c.compatible d = true ↔
      ∀ i < 64, Bits.has c.care i = true → Bits.has d.care i = true →
        Bits.has c.value i = Bits.has d.value i := by
  rw [compatible, beq_iff_eq, Bits.eq_zero_iff]
  constructor
  · intro h i hi hc hd
    have hbit := h i hi
    simpa [hc, hd] using hbit
  · intro h i hi
    simp only [Bits.has_and, Bits.has_xor]
    cases hc : Bits.has c.care i with
    | false => simp
    | true =>
      cases hd : Bits.has d.care i with
      | false => simp
      | true => simp [h i hi hc hd]

/-- Two cubes that share a point are compatible. -/
theorem compatible_of_agrees {c d : Cube} {point : UInt64} (hc : c.agrees point = true)
    (hd : d.agrees point = true) : c.compatible d = true := by
  rw [agrees_iff] at hc hd
  rw [compatible_iff]
  intro i hi hci hdi
  rw [← hc i hi hci, hd i hi hdi]

/-- Without some variables, a cube agrees when it agrees on the others. -/
theorem agrees_without {c : Cube} {bits point : UInt64} :
    (c.without bits).agrees point = true ↔
      ∀ i < 64, Bits.has c.care i = true → Bits.has bits i = false →
        Bits.has point i = Bits.has c.value i := by
  rw [agrees_iff]
  constructor
  · intro h i hi hcare hbit
    have hpoint := h i hi (by simp [without, hcare, hbit])
    simpa [without, hbit] using hpoint
  · intro h i hi hcare
    simp only [without, Bits.has_and, Bits.has_not, Bool.and_eq_true, Bool.not_eq_true'] at hcare
    rw [h i hi hcare.1 hcare.2]
    simp [without, hcare.2]

/-- Dropping variables only adds points. -/
theorem agrees_without_of_agrees {c : Cube} {point : UInt64} (bits : UInt64)
    (h : c.agrees point = true) : (c.without bits).agrees point = true := by
  rw [agrees_iff] at h
  rw [agrees_without]
  intro i hi hcare _
  exact h i hi hcare

/-- The product of two canonical cubes holds where both do. -/
theorem agrees_of_inter? {c d e : Cube} (hc : c.Canonical) (hd : d.Canonical)
    (h : c.inter? d = some e) :
    e.Canonical ∧ ∀ point, e.agrees point = (c.agrees point && d.agrees point) := by
  unfold inter? at h
  split at h
  next hcd =>
    cases h
    rw [canonical_iff] at hc hd
    rw [compatible_iff] at hcd
    refine ⟨canonical_iff.2 ?_, ?_⟩
    · intro i hi hvalue
      simp only [Bits.has_or, Bool.or_eq_true] at hvalue ⊢
      exact hvalue.imp (hc i hi) (hd i hi)
    · intro point
      rw [Bool.eq_iff_iff, Bool.and_eq_true, agrees_iff, agrees_iff, agrees_iff]
      -- at a variable of one cube only, canonicity makes the other's value bit vanish
      have hleft : ∀ i < 64, Bits.has c.care i = true →
          Bits.has (c.value ||| d.value) i = Bits.has c.value i := by
        intro i hi hci
        rw [Bits.has_or]
        cases hdv : Bits.has d.value i with
        | false => simp
        | true => rw [hcd i hi hci (hd i hi hdv), hdv]; rfl
      have hright : ∀ i < 64, Bits.has d.care i = true →
          Bits.has (c.value ||| d.value) i = Bits.has d.value i := by
        intro i hi hdi
        rw [Bits.has_or]
        cases hcv : Bits.has c.value i with
        | false => simp
        | true => rw [← hcd i hi (hc i hi hcv) hdi, hcv]; rfl
      constructor
      · intro h
        refine ⟨fun i hi hci => ?_, fun i hi hdi => ?_⟩
        · rw [h i hi (by simp [hci]), hleft i hi hci]
        · rw [h i hi (by simp [hdi]), hright i hi hdi]
      · rintro ⟨h₁, h₂⟩ i hi hcare
        rw [Bits.has_or, Bool.or_eq_true] at hcare
        rcases hcare with hci | hdi
        · rw [h₁ i hi hci, hleft i hi hci]
        · rw [h₂ i hi hdi, hright i hi hdi]
  next => cases h

/-- Where two cubes both hold, they have a product. -/
theorem isSome_inter? {c d : Cube} {point : UInt64} (hc : c.agrees point = true)
    (hd : d.agrees point = true) : (c.inter? d).isSome = true := by
  simp [inter?, compatible_of_agrees hc hd]

/-- A cube that covers another holds where the other does. -/
theorem agrees_of_covers {c d : Cube} {point : UInt64} (h : c.covers d = true)
    (hd : d.agrees point = true) : c.agrees point = true := by
  rw [covers, Bool.and_eq_true, beq_iff_eq, beq_iff_eq] at h
  rw [agrees_iff] at hd ⊢
  intro i hi hcare
  have hdcare : Bits.has d.care i = true := by
    have hbit := congrArg (Bits.has · i) h.1
    simpa [hcare] using hbit
  have hvalue : Bits.has d.value i = Bits.has c.value i := by
    have hbit := congrArg (Bits.has · i) h.2
    simpa [hcare] using hbit
  rw [hd i hi hdcare, hvalue]

/-- A point of a cube, whatever the other variables are. -/
def place (d : Cube) (point : UInt64) : UInt64 := (point &&& ~~~d.care) ||| (d.value &&& d.care)

theorem has_place (d : Cube) (point : UInt64) (i : Nat) :
    Bits.has (d.place point) i =
      if Bits.has d.care i then Bits.has d.value i else Bits.has point i := by
  rw [place, Bits.has_or, Bits.has_and, Bits.has_and, Bits.has_not]
  cases Bits.has d.care i <;> simp

theorem agrees_place (d : Cube) (point : UInt64) : d.agrees (d.place point) = true := by
  rw [agrees_iff]
  intro i _ hcare
  rw [has_place, if_pos hcare]

/-- A cube in which no literal is left holds everywhere. -/
theorem agrees_of_care_eq_zero {c : Cube} (h : c.care = 0) (point : UInt64) :
    c.agrees point = true := by
  simp [agrees, h]

/-! ## Literals -/

theorem mem_literals {c : Cube} {i : Nat} {positive : Bool} :
    (i, positive) ∈ c.literals ↔
      i < 64 ∧ Bits.has c.care i = true ∧ Bits.has c.value i = positive := by
  rw [literals, List.mem_map]
  constructor
  · rintro ⟨j, hj, hpair⟩
    cases hpair
    exact ⟨(Bits.mem_positions.1 hj).1, (Bits.mem_positions.1 hj).2, rfl⟩
  · rintro ⟨hi, hcare, rfl⟩
    exact ⟨i, Bits.mem_positions.2 ⟨hi, hcare⟩, rfl⟩

theorem agrees_iff_literals {c : Cube} {point : UInt64} :
    c.agrees point = true ↔ ∀ l ∈ c.literals, Bits.has point l.1 = l.2 := by
  rw [agrees_iff]
  constructor
  · rintro h ⟨i, positive⟩ hl
    obtain ⟨hi, hcare, rfl⟩ := mem_literals.1 hl
    exact h i hi hcare
  · intro h i hi hcare
    exact h (i, Bits.has c.value i) (mem_literals.2 ⟨hi, hcare, rfl⟩)

theorem literals_ne_nil {c : Cube} (h : c.care ≠ 0) : c.literals ≠ [] := by
  intro hnil
  refine h (Bits.eq_zero_iff.2 fun i hi => Bool.eq_false_iff.2 fun hcare => ?_)
  have hmem := mem_literals.2 ⟨hi, hcare, rfl⟩
  rw [hnil] at hmem
  exact List.not_mem_nil hmem

theorem map_fst_literals (c : Cube) : c.literals.map Prod.fst = Bits.positions c.care := by
  simp [literals, Function.comp_def]

end Cube

end StreamFilter
