import StreamFilter.Cube.Cover
import StreamFilter.Proofs.Cube.Order
set_option autoImplicit false

/-!
# Cubes as sets of points

The operations on canonical cubes are operations on the sets of their points: covering is
inclusion (`Cube.Canonical.covers_iff`), a product is an intersection, and there is none
exactly if the intersection is empty (`Cube.Canonical.inter?_eq_none_iff`,
`Cube.Canonical.contains_inter?`).  Every operation gives canonical cubes again.

A canonical cube is the product of its literals, in whatever order they are multiplied: after
some of them the product is the part of the cube on the variables that have occurred
(`Cube.foldlM_inter?_literals`).  The literals are listed by taking the lowest variable away
until none is left (`Cube.literals_of_care_ne_zero`).
-/

namespace StreamFilter

namespace Bits

/-! ## Taking the lowest bit away -/

/-- The number of the lowest bit that is set. -/
def lowest (w : UInt64) : Nat := w.toBitVec.ctz.toNat

variable {w : UInt64}

theorem toBitVec_ne_zero (h : w ≠ 0) : w.toBitVec ≠ 0#64 :=
  fun hzero => h (UInt64.toBitVec_inj.1 hzero)

theorem lowest_lt (h : w ≠ 0) : lowest w < 64 :=
  BitVec.ctz_lt_iff_ne_zero.2 (toBitVec_ne_zero h)

theorem has_lowest (h : w ≠ 0) : has w (lowest w) = true := by
  rw [has_eq_getLsbD, Nat.mod_eq_of_lt (lowest_lt h)]
  exact BitVec.getLsbD_true_ctz_of_ne_zero (toBitVec_ne_zero h)

theorem has_of_lt_lowest {i : Nat} (h : i < lowest w) (hi : i < 64) : has w i = false := by
  rw [has_eq_getLsbD, Nat.mod_eq_of_lt hi]
  exact BitVec.getLsbD_false_of_lt_ctz h

/-- Subtracting one from a number clears its lowest bit, sets the bits below it and keeps
those above it. -/
theorem testBit_sub_one {n t : Nat} (hset : n.testBit t = true)
    (hclear : ∀ i < t, n.testBit i = false) (i : Nat) :
    (n - 1).testBit i = if i ≤ t then decide (i < t) else n.testBit i := by
  have hpos : 0 < 2 ^ t := Nat.two_pow_pos t
  have hbelow : 2 ^ t < 2 ^ (t + 1) := Nat.pow_lt_pow_succ (by decide)
  have hlow : n % 2 ^ (t + 1) = 2 ^ t := by
    apply Nat.eq_of_testBit_eq
    intro j
    rw [Nat.testBit_mod_two_pow, Nat.testBit_two_pow]
    by_cases hj : j < t
    · simp [hclear j hj, Nat.ne_of_gt hj]
    · by_cases heq : t = j
      · simp [← heq, hset]
      · simp [heq, show ¬j < t + 1 by omega]
  have hsplit : 2 ^ (t + 1) * (n / 2 ^ (t + 1)) + 2 ^ t = n := by
    rw [← hlow]
    exact Nat.div_add_mod _ _
  have hpred : n - 1 = 2 ^ (t + 1) * (n / 2 ^ (t + 1)) + (2 ^ t - 1) := by omega
  have hbit := Nat.testBit_two_pow_mul_add (n / 2 ^ (t + 1)) hbelow i
  rw [hsplit] at hbit
  rw [hpred, Nat.testBit_two_pow_mul_add _ (Nat.lt_of_le_of_lt (Nat.sub_le _ _) hbelow), hbit]
  by_cases hle : i ≤ t
  · rw [if_pos (Nat.lt_succ_of_le hle), if_pos hle, Nat.testBit_two_pow_sub_one]
  · have hgt : ¬i < t + 1 := fun hlt => hle (Nat.le_of_lt_succ hlt)
    rw [if_neg hgt, if_neg hle, if_neg hgt]

theorem has_sub_one (h : w ≠ 0) {i : Nat} (hi : i < 64) :
    has (w - 1) i = if i ≤ lowest w then decide (i < lowest w) else has w i := by
  have hset : w.toNat.testBit (lowest w) = true := by
    rw [← has_eq_testBit w (lowest_lt h), has_lowest h]
  have hclear : ∀ j < lowest w, w.toNat.testBit j = false := by
    intro j hj
    have hlt : j < 64 := Nat.lt_trans hj (lowest_lt h)
    rw [← has_eq_testBit w hlt, has_of_lt_lowest hj hlt]
  have hone : (1 : UInt64) ≤ w := by
    rw [UInt64.le_iff_toNat_le, UInt64.toNat_one]
    exact Nat.pos_of_ne_zero fun hzero => h (UInt64.toNat_inj.1 hzero)
  rw [has_eq_testBit _ hi, has_eq_testBit _ hi, UInt64.toNat_sub_of_le _ _ hone, UInt64.toNat_one]
  exact testBit_sub_one hset hclear i

theorem and_sub_one (h : w ≠ 0) : w &&& (w - 1) = w &&& ~~~single (lowest w) := by
  apply eq_of_has
  intro i hi
  rw [has_and, has_and, has_not, has_sub_one h hi, has_single hi (lowest_lt h)]
  by_cases hlt : i < lowest w
  · simp [has_of_lt_lowest hlt hi]
  · by_cases heq : i = lowest w
    · simp [heq]
    · simp [heq, show ¬i ≤ lowest w by omega]

/-- The list of bits starts with the lowest one and goes on with what is left without it. -/
theorem positions_of_ne_zero (h : w ≠ 0) :
    positions w = lowest w :: positions (w &&& (w - 1)) := by
  have hmem : lowest w ∈ positions w := mem_positions.2 ⟨lowest_lt h, has_lowest h⟩
  have hleast : ∀ i ∈ positions w, lowest w ≤ i := by
    intro i hi
    obtain ⟨hlt, hbit⟩ := mem_positions.1 hi
    refine Nat.not_lt.1 fun hless => ?_
    rw [has_of_lt_lowest hless hlt] at hbit
    cases hbit
  rw [and_sub_one h, positions_clear (lowest_lt h)]
  have hsorted := pairwise_positions w
  cases hpos : positions w with
  | nil =>
    rw [hpos] at hmem
    exact absurd hmem List.not_mem_nil
  | cons i is =>
    rw [hpos] at hmem hleast hsorted
    -- the lowest bit cannot stand behind the first one
    have hfirst : lowest w = i := by
      rcases List.mem_cons.1 hmem with heq | hbehind
      · exact heq
      · have hlt := (List.pairwise_cons.1 hsorted).1 _ hbehind
        exact absurd (hleast i List.mem_cons_self) (Nat.not_le.2 hlt)
    rw [hfirst, List.erase_cons_head]

/-- As many bits are listed as are set. -/
theorem length_positions (w : UInt64) : (positions w).length = w.toBitVec.cpop.toNat := by
  have hcount : ∀ n ≤ 64, w.toBitVec.cpopNatRec n 0 = ((List.range n).filter (has w)).length := by
    intro n
    induction n with
    | zero =>
      intro _
      rfl
    | succ n ih =>
      intro hn
      have hbit : has w n = w.toBitVec.getLsbD n := by
        rw [has_eq_getLsbD, Nat.mod_eq_of_lt hn]
      rw [BitVec.cpopNatRec_succ, BitVec.cpopNatRec_eq, ih (Nat.le_of_succ_le hn),
        List.range_succ, List.filter_append, List.length_append, ← hbit]
      cases hset : has w n <;> simp [hset]
  rw [BitVec.toNat_cpop, hcount 64 (Nat.le_refl 64)]
  rfl

end Bits

namespace Cube

variable {a b c : Cube}

/-! ## Operations on points -/

theorem Canonical.inter? (ha : a.Canonical) (hb : b.Canonical) (h : a.inter? b = some c) :
    c.Canonical :=
  (agrees_of_inter? ha hb h).1

theorem Canonical.cofactor {cubes : List Cube} (h : ∀ c ∈ cubes, c.Canonical) (d : Cube) :
    ∀ c ∈ Cover.cofactor cubes d, c.Canonical := by
  intro c hc
  obtain ⟨e, he, rfl⟩ := List.mem_map.1 hc
  exact (h e (List.mem_filter.1 he).1).without d.care

/-- A canonical cube covers those that have its literals. -/
theorem Canonical.covers_iff_has (ha : a.Canonical) :
    a.covers b = true ↔ ∀ i < 64, Bits.has a.care i = true →
      Bits.has b.care i = true ∧ Bits.has b.value i = Bits.has a.value i := by
  rw [covers, Bool.and_eq_true, beq_iff_eq, beq_iff_eq]
  constructor
  · rintro ⟨hcare, hvalue⟩ i _ hi
    have hcarebit := congrArg (Bits.has · i) hcare
    have hvaluebit := congrArg (Bits.has · i) hvalue
    simp only [Bits.has_and, hi, Bool.true_and, Bool.and_true] at hcarebit hvaluebit
    exact ⟨hcarebit, hvaluebit⟩
  · intro h
    refine ⟨Bits.eq_of_has fun i hi => ?_, Bits.eq_of_has fun i hi => ?_⟩
    · rw [Bits.has_and]
      cases hcare : Bits.has a.care i with
      | false => rfl
      | true => rw [(h i hi hcare).1]; rfl
    · rw [Bits.has_and]
      cases hcare : Bits.has a.care i with
      | false =>
        rw [ha.has_value_of_has_care hi hcare, Bool.and_false]
      | true => rw [(h i hi hcare).2, Bool.and_true]

/-- Covering is inclusion of points. -/
theorem Canonical.covers_iff (ha : a.Canonical) (hb : b.Canonical) :
    a.covers b = true ↔ ∀ point, b.contains point = true → a.contains point = true := by
  constructor
  · intro h point hpoint
    rw [hb.contains_eq_agrees] at hpoint
    rw [ha.contains_eq_agrees]
    exact agrees_of_covers h hpoint
  · intro h
    rw [ha.covers_iff_has]
    intro i hi hcare
    -- a point of b that differs from a wherever b leaves it free to
    have hpoint := b.agrees_place (~~~a.value)
    rw [← hb.contains_eq_agrees] at hpoint
    have hagrees := h _ hpoint
    rw [ha.contains_eq_agrees, agrees_iff] at hagrees
    have hbit := hagrees i hi hcare
    rw [has_place, Bits.has_not] at hbit
    cases hbcare : Bits.has b.care i with
    | false => simp [hbcare] at hbit
    | true => exact ⟨rfl, by simpa [hbcare] using hbit⟩

/-- A product contains the shared points. -/
theorem Canonical.contains_inter? (ha : a.Canonical) (hb : b.Canonical)
    (h : a.inter? b = some c) (point : UInt64) :
    c.contains point = (a.contains point && b.contains point) := by
  obtain ⟨hc, hagrees⟩ := agrees_of_inter? ha hb h
  rw [hc.contains_eq_agrees, ha.contains_eq_agrees, hb.contains_eq_agrees, hagrees]

/-- Cubes without a shared point have no product. -/
theorem Canonical.inter?_eq_none_iff (ha : a.Canonical) (hb : b.Canonical) :
    a.inter? b = none ↔ ¬∃ point, a.contains point = true ∧ b.contains point = true := by
  constructor
  · rintro hnone ⟨point, hapoint, hbpoint⟩
    rw [ha.contains_eq_agrees] at hapoint
    rw [hb.contains_eq_agrees] at hbpoint
    have hsome := isSome_inter? hapoint hbpoint
    rw [hnone] at hsome
    cases hsome
  · intro hdisjoint
    cases hinter : a.inter? b with
    | none => rfl
    | some c =>
      have hc := ha.inter? hb hinter
      have hpoint := c.agrees_place 0
      rw [← hc.contains_eq_agrees, ha.contains_inter? hb hinter, Bool.and_eq_true] at hpoint
      exact absurd ⟨_, hpoint⟩ hdisjoint

/-! ## The product of literals -/

/-- The product of some literals, one after the other. -/
def ofLiterals? (ls : List (Nat × Bool)) : Option Cube :=
  ls.foldlM (fun c l => c.inter? (literal l.1 l.2)) everything

/-- The part of a cube on the variables in a word. -/
def part (c : Cube) (bits : UInt64) : Cube := ⟨c.care &&& bits, c.value &&& bits⟩

theorem part_zero (c : Cube) : c.part 0 = everything := by
  simp [part, everything]

/-- The part of a canonical cube on all its variables is the cube. -/
theorem Canonical.part_eq (hc : c.Canonical) {bits : UInt64}
    (h : ∀ i < 64, Bits.has c.care i = true → Bits.has bits i = true) : c.part bits = c := by
  apply eq_of_has
  · intro i hi
    rw [part, Bits.has_and]
    cases hcare : Bits.has c.care i with
    | false => rfl
    | true => rw [h i hi hcare]; rfl
  · intro i hi
    rw [part, Bits.has_and]
    cases hvalue : Bits.has c.value i with
    | false => rfl
    | true => rw [h i hi (canonical_iff.1 hc i hi hvalue)]; rfl

theorem compatible_part_literal (a : Cube) (bits : UInt64) {i : Nat} (hi : i < 64) :
    (a.part bits).compatible (literal i (Bits.has a.value i)) = true := by
  rw [compatible_iff]
  intro j hj hpart hliteral
  have hji : j = i := by simpa [literal, Bits.has_single hj hi] using hliteral
  subst hji
  rw [part, Bits.has_and, Bool.and_eq_true] at hpart
  cases hvalue : Bits.has a.value j <;>
    simp [part, literal, hvalue, hpart.2, Bits.has_single hj hj]

/-- One more literal of a cube adds its variable to the part that is multiplied already. -/
theorem inter?_literal_of_mem {l : Nat × Bool} (hl : l ∈ a.literals) (bits : UInt64) :
    (a.part bits).inter? (literal l.1 l.2) = some (a.part (bits ||| Bits.single l.1)) := by
  obtain ⟨i, positive⟩ := l
  obtain ⟨hi, hcare, rfl⟩ := mem_literals.1 hl
  rw [Cube.inter?, if_pos (compatible_part_literal a bits hi), Option.some.injEq]
  apply eq_of_has
  · intro j hj
    simp only [part, literal, Bits.has_or, Bits.has_and, Bits.has_single hj hi]
    by_cases hji : j = i
    · simp [hji, hcare]
    · simp [hji]
  · intro j hj
    simp only [part, literal, Bits.has_or, Bits.has_and, Bits.has_single hj hi]
    by_cases hji : j = i
    · subst hji
      cases hvalue : Bits.has a.value j <;> simp [Bits.has_single hj hj]
    · cases hvalue : Bits.has a.value i <;> simp [hji, Bits.has_single hj hi]

/-- After some literals of a cube, the product is the part of the cube on their variables. -/
theorem foldlM_inter?_literals {ls : List (Nat × Bool)} (hls : ∀ l ∈ ls, l ∈ a.literals)
    (bits : UInt64) :
    ls.foldlM (fun c l => c.inter? (literal l.1 l.2)) (a.part bits) =
      some (a.part (bits ||| Bits.gather (fun _ => true) (ls.map Prod.fst))) := by
  induction ls generalizing bits with
  | nil => simp [Bits.gather]
  | cons l ls ih =>
    rw [List.foldlM_cons, inter?_literal_of_mem (hls l List.mem_cons_self)]
    refine (ih (fun m hm => hls m (List.mem_cons_of_mem _ hm)) _).trans ?_
    rw [List.map_cons, Bits.gather, if_pos rfl, UInt64.or_assoc]

/-- A canonical cube is the product of its literals in any order. -/
theorem Canonical.ofLiterals?_of_perm (ha : a.Canonical) {ls : List (Nat × Bool)}
    (hperm : ls.Perm a.literals) : ofLiterals? ls = some a := by
  have hbelow : ∀ i ∈ ls.map Prod.fst, i < 64 := by
    intro i hi
    obtain ⟨l, hl, rfl⟩ := List.mem_map.1 hi
    exact (mem_literals.1 (hperm.mem_iff.1 hl)).1
  have hgathered : ∀ i < 64, Bits.has a.care i = true →
      Bits.has (0 ||| Bits.gather (fun _ => true) (ls.map Prod.fst)) i = true := by
    intro i hi hcare
    have hl : (i, Bits.has a.value i) ∈ ls := hperm.mem_iff.2 (mem_literals.2 ⟨hi, hcare, rfl⟩)
    rw [Bits.has_or, Bits.has_zero, Bool.false_or, Bits.has_gather _ hi _ hbelow, Bool.and_true,
      List.contains_iff_mem]
    exact List.mem_map_of_mem hl
  rw [ofLiterals?, ← a.part_zero, foldlM_inter?_literals (fun l hl => hperm.mem_iff.1 hl),
    ha.part_eq hgathered]

theorem pairwise_literals (c : Cube) : (c.literals.map Prod.fst).Pairwise (· < ·) := by
  rw [map_fst_literals]
  exact Bits.pairwise_positions c.care

theorem length_literals (c : Cube) : c.literals.length = c.size := by
  rw [literals, List.length_map, size]

/-- The first literal is that of the lowest variable, and the others are those of the cube
without this variable. -/
theorem literals_of_care_ne_zero (h : c.care ≠ 0) :
    c.literals = (Bits.lowest c.care, Bits.has c.value (Bits.lowest c.care)) ::
      literals ⟨c.care &&& (c.care - 1), c.value⟩ := by
  rw [literals, Bits.positions_of_ne_zero h, List.map_cons, literals]

/-! ## The algebra of cubes -/

/-- Cubes denote sets of points.  The operations keep cubes canonical; covering is inclusion; a
product is the intersection, and is missing exactly if that is empty.  A cube is the product of
its literals in any order; they are listed by ascending variable, one for each bit of `care`,
by taking the lowest bit away until none is left. -/
theorem algebra_exact {a b : Cube} (ha : a.Canonical) (hb : b.Canonical) :
    (everything.Canonical ∧ (∀ i positive, (literal i positive).Canonical) ∧
      (∀ c, a.inter? b = some c → c.Canonical) ∧ (∀ bits, (a.without bits).Canonical) ∧
      ∀ cubes : List Cube, (∀ c ∈ cubes, c.Canonical) →
        ∀ d, ∀ c ∈ Cover.cofactor cubes d, c.Canonical) ∧
    (a.covers b = true ↔ ∀ point, b.contains point = true → a.contains point = true) ∧
    (a.inter? b = none ↔ ¬∃ point, a.contains point = true ∧ b.contains point = true) ∧
    (∀ c, a.inter? b = some c →
      ∀ point, c.contains point = true ↔ a.contains point = true ∧ b.contains point = true) ∧
    (∀ ls : List (Nat × Bool), ls.Perm a.literals → ofLiterals? ls = some a) ∧
    (a.literals.map Prod.fst).Pairwise (· < ·) ∧
    a.literals.length = a.size ∧ a.size = a.care.toBitVec.cpop.toNat ∧
    (a.care ≠ 0 → a.literals = (Bits.lowest a.care, Bits.has a.value (Bits.lowest a.care)) ::
      literals ⟨a.care &&& (a.care - 1), a.value⟩) := by
  refine ⟨⟨canonical_everything, canonical_literal, fun c => ha.inter? hb, ha.without,
    fun cubes => Canonical.cofactor⟩, ha.covers_iff hb, ha.inter?_eq_none_iff hb, ?_,
    fun ls => ha.ofLiterals?_of_perm, a.pairwise_literals, a.length_literals,
    Bits.length_positions a.care, literals_of_care_ne_zero⟩
  intro c hc point
  rw [ha.contains_inter? hb hc, Bool.and_eq_true]

/-- A cube on the variables 1 and 63, of which the literal of variable 63 covers it and the
opposite literal shares no point with it. -/
theorem algebra_exact_highest :
    (⟨0x8000000000000002, 2⟩ : Cube).Canonical ∧
      ofLiterals? [(63, false), (1, true)] = some ⟨0x8000000000000002, 2⟩ ∧
      (∀ point, (⟨0x8000000000000002, 2⟩ : Cube).contains point = true →
        (literal 63 false).contains point = true) ∧
      ¬∃ point, (⟨0x8000000000000002, 2⟩ : Cube).contains point = true ∧
        (literal 63 true).contains point = true := by
  have hcube : (⟨0x8000000000000002, 2⟩ : Cube).Canonical := by decide
  have hliterals : [(63, false), (1, true)].Perm (⟨0x8000000000000002, 2⟩ : Cube).literals := by
    decide
  obtain ⟨-, -, hdisjoint, -, hproduct, -⟩ :=
    algebra_exact hcube (canonical_literal 63 true)
  obtain ⟨-, hcovers, -⟩ := algebra_exact (canonical_literal 63 false) hcube
  exact ⟨hcube, hproduct _ hliterals, hcovers.1 (by decide), hdisjoint.1 (by decide)⟩

end Cube

end StreamFilter
