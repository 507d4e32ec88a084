import StreamFilter.Ascending
import StreamFilter.Cube.Basic
set_option autoImplicit false

/-!
# Covers

A cover is a list of cubes; it holds at a point that lies in one of them.

`isTautology` decides whether a cover holds everywhere.  It splits on a variable
that occurs in both polarities, the most frequent one, and ends because each
split takes literals away.
-/

namespace StreamFilter.Cover

/-- Keeps the cubes that no earlier kept cube covers. -/
def keepUncovered : List Cube → List Cube → List Cube
  | kept, [] => kept.reverse
  | kept, c :: cs =>
    if kept.any (·.covers c) then keepUncovered kept cs else keepUncovered (c :: kept) cs

/-- Drops repeated cubes and cubes that another cube covers.  What is left has
fewer literals first. -/
def absorb (cubes : List Cube) : List Cube :=
  keepUncovered [] ((ascending Cube.sizedLe (cubes.map Cube.sized)).map Prod.snd)

/-- The cover inside a cube, over the variables that the cube leaves free. -/
def cofactor (cubes : List Cube) (d : Cube) : List Cube :=
  (cubes.filter (·.compatible d)).map (·.without d.care)

/-- The variables that occur positively. -/
def positives : List Cube → UInt64
  | [] => 0
  | c :: cs => (c.care &&& c.value) ||| positives cs

/-- The variables that occur negatively. -/
def negatives : List Cube → UInt64
  | [] => 0
  | c :: cs => (c.care &&& ~~~c.value) ||| negatives cs

/-- The variables that occur in both polarities. -/
def binate (cubes : List Cube) : UInt64 := positives cubes &&& negatives cubes

/-- The number of cubes in which a variable occurs. -/
def frequency (cubes : List Cube) (bit : UInt64) : Nat := cubes.countP (·.care &&& bit != 0)

/-- The more frequent of a variable found so far, kept with its frequency, and another. -/
def moreFrequent (cubes : List Cube) (best : Option (UInt64 × Nat)) (bit : UInt64) :
    Option (UInt64 × Nat) :=
  let n := frequency cubes bit
  match best with
  | some (_, m) => if m < n then some (bit, n) else best
  | none => some (bit, n)

/-- The first of some variables that occurs most often. -/
def mostFrequent? (cubes : List Cube) (bits : List UInt64) : Option UInt64 :=
  (bits.foldl (moreFrequent cubes) none).map Prod.fst

/-- The variable on which the tautology check splits, if one occurs in both
polarities. -/
def splitBit? (cubes : List Cube) : Option UInt64 :=
  mostFrequent? cubes ((Bits.positions (binate cubes)).map Bits.single)

/-- A measure of the literals of a cover. -/
def mass : List Cube → Nat
  | [] => 0
  | c :: cs => c.care.toNat + mass cs

/-! ## Splitting takes literals away -/

/-- A comparison keeps what was found or takes the other variable. -/
theorem moreFrequent_eq_some {cubes : List Cube} {best : Option (UInt64 × Nat)} {bit : UInt64}
    {x : UInt64 × Nat} (h : moreFrequent cubes best bit = some x) : best = some x ∨ x.1 = bit := by
  unfold moreFrequent at h
  dsimp only at h
  split at h
  · split at h
    · cases h
      exact .inr rfl
    · exact .inl h
  · cases h
    exact .inr rfl

theorem foldl_moreFrequent_eq_some {cubes : List Cube} {bits : List UInt64}
    {best : Option (UInt64 × Nat)} {x : UInt64 × Nat}
    (h : bits.foldl (moreFrequent cubes) best = some x) : best = some x ∨ x.1 ∈ bits := by
  induction bits generalizing best with
  | nil => exact .inl h
  | cons bit bits ih =>
    rcases ih h with hstep | hmem
    · refine (moreFrequent_eq_some hstep).imp_right fun hbit => ?_
      rw [hbit]
      exact List.mem_cons_self
    · exact .inr (List.mem_cons_of_mem bit hmem)

theorem mem_of_mostFrequent? {cubes : List Cube} {bits : List UInt64} {bit : UInt64}
    (h : mostFrequent? cubes bits = some bit) : bit ∈ bits := by
  obtain ⟨x, hx, rfl⟩ := Option.map_eq_some_iff.1 h
  exact (foldl_moreFrequent_eq_some hx).resolve_left (by simp)

theorem or_and_distrib (x y b : UInt64) : (x ||| y) &&& b = (x &&& b) ||| (y &&& b) := by
  apply UInt64.toNat_inj.1
  simp only [UInt64.toNat_and, UInt64.toNat_or, Nat.and_or_distrib_right]

theorem positives_and_eq_zero {cubes : List Cube} {bit : UInt64}
    (h : ∀ c ∈ cubes, c.care &&& bit = 0) : positives cubes &&& bit = 0 := by
  induction cubes with
  | nil => simp [positives]
  | cons c cs ih =>
    have hc : c.care &&& c.value &&& bit = 0 := by
      rw [UInt64.and_assoc, UInt64.and_comm c.value, ← UInt64.and_assoc, h c List.mem_cons_self]
      simp
    rw [positives, or_and_distrib, hc, ih fun d hd => h d (List.mem_cons_of_mem _ hd)]
    rfl

theorem exists_care_of_splitBit? {cubes : List Cube} {bit : UInt64}
    (h : splitBit? cubes = some bit) : ∃ c ∈ cubes, c.care &&& bit ≠ 0 := by
  have hm := mem_of_mostFrequent? h
  obtain ⟨i, hi, rfl⟩ := List.mem_map.1 hm
  have hb : binate cubes &&& Bits.single i ≠ 0 := by
    simpa [Bits.positions, Bits.has] using (List.mem_filter.1 hi).2
  refine Classical.byContradiction fun hn => hb ?_
  have hz : ∀ c ∈ cubes, c.care &&& Bits.single i = 0 := fun c hc =>
    Classical.byContradiction fun hne => hn ⟨c, hc, hne⟩
  rw [binate, UInt64.and_assoc, UInt64.and_comm (negatives _) (Bits.single i), ← UInt64.and_assoc,
    positives_and_eq_zero hz]
  simp

theorem mass_cofactor_cons_le (c : Cube) (cs : List Cube) (d : Cube) :
    mass (cofactor (c :: cs) d) ≤ (c.without d.care).care.toNat + mass (cofactor cs d) := by
  unfold cofactor
  rw [List.filter_cons]
  split
  · simp [mass]
  · exact Nat.le_add_left _ _

theorem mass_cofactor_le (cubes : List Cube) (d : Cube) :
    mass (cofactor cubes d) ≤ mass cubes := by
  induction cubes with
  | nil => simp [mass, cofactor]
  | cons c cs ih =>
    have h₁ := mass_cofactor_cons_le c cs d
    have h₂ := c.toNat_care_without_le d.care
    have h₃ : mass (c :: cs) = c.care.toNat + mass cs := rfl
    omega

theorem mass_cofactor_lt {cubes : List Cube} {d : Cube}
    (h : ∃ c ∈ cubes, c.care &&& d.care ≠ 0) : mass (cofactor cubes d) < mass cubes := by
  induction cubes with
  | nil => simp at h
  | cons c cs ih =>
    have h₁ := mass_cofactor_cons_le c cs d
    have h₂ := c.toNat_care_without_le d.care
    have h₃ : mass (c :: cs) = c.care.toNat + mass cs := rfl
    have h₄ := mass_cofactor_le cs d
    obtain ⟨e, he, hne⟩ := h
    rcases List.mem_cons.1 he with rfl | he
    · have h₅ := Cube.toNat_care_without_lt hne
      omega
    · have h₅ := ih ⟨e, he, hne⟩
      omega

/-! ## Tautologies -/

/-- Whether a cover holds everywhere. -/
def isTautology (cubes : List Cube) : Bool :=
  if cubes.any (·.care == 0) then true
  else
    match found : splitBit? cubes with
    | some bit =>
      have : mass (cofactor cubes ⟨bit, bit⟩) < mass cubes :=
        mass_cofactor_lt (exists_care_of_splitBit? found)
      have : mass (cofactor cubes ⟨bit, 0⟩) < mass cubes :=
        mass_cofactor_lt (exists_care_of_splitBit? found)
      isTautology (cofactor cubes ⟨bit, bit⟩) && isTautology (cofactor cubes ⟨bit, 0⟩)
    | none => false
termination_by mass cubes

/-! ## Implication

A cover holds throughout a cube if its cofactor by the cube is a tautology.  Most
answers can be read off the cover without building the cofactor: yes if one of its
cubes contains the whole cube, and no if no variable of the cofactor occurs in both
polarities. -/

/-- Whether a cube, inside another one, has no literal left. -/
def fills (d c : Cube) : Bool := c.compatible d && c.care &&& ~~~d.care == 0

/-- The variables that occur positively inside a cube. -/
def positivesWithin (d : Cube) : List Cube → UInt64
  | [] => 0
  | c :: cs =>
    if c.compatible d then (c.care &&& ~~~d.care &&& c.value) ||| positivesWithin d cs
    else positivesWithin d cs

/-- The variables that occur negatively inside a cube. -/
def negativesWithin (d : Cube) : List Cube → UInt64
  | [] => 0
  | c :: cs =>
    if c.compatible d then (c.care &&& ~~~d.care &&& ~~~c.value) ||| negativesWithin d cs
    else negativesWithin d cs

/-- Whether a cover holds throughout a cube. -/
def implies (cubes : List Cube) (d : Cube) : Bool :=
  if cubes.any (fills d) then true
  else if positivesWithin d cubes &&& negativesWithin d cubes == 0 then false
  else isTautology (cofactor cubes d)

theorem any_cofactor (cubes : List Cube) (d : Cube) :
    (cofactor cubes d).any (·.care == 0) = cubes.any (fills d) := by
  rw [cofactor, List.any_map, List.any_filter]
  rfl

theorem and_not_and_and_not (x y b : UInt64) : x &&& ~~~b &&& (y &&& ~~~b) = x &&& ~~~b &&& y := by
  apply UInt64.toBitVec_inj.1
  simp only [UInt64.toBitVec_and, UInt64.toBitVec_not]
  ext i hi
  simp only [BitVec.getElem_and]
  cases (x.toBitVec)[i] <;> cases (y.toBitVec)[i] <;> cases (~~~b.toBitVec)[i] <;> rfl

theorem and_not_and_not_and_not (x y b : UInt64) :
    x &&& ~~~b &&& ~~~(y &&& ~~~b) = x &&& ~~~b &&& ~~~y := by
  apply UInt64.toBitVec_inj.1
  simp only [UInt64.toBitVec_and, UInt64.toBitVec_not]
  ext i hi
  simp only [BitVec.getElem_and, BitVec.getElem_not]
  cases (x.toBitVec)[i] <;> cases (y.toBitVec)[i] <;> cases (b.toBitVec)[i] <;> rfl

theorem positives_cofactor (cubes : List Cube) (d : Cube) :
    positives (cofactor cubes d) = positivesWithin d cubes := by
  induction cubes with
  | nil => rfl
  | cons c cs ih =>
    unfold cofactor at ih ⊢
    rw [List.filter_cons, positivesWithin]
    split
    · rw [List.map_cons, positives, ih, Cube.without, and_not_and_and_not]
    · exact ih

theorem negatives_cofactor (cubes : List Cube) (d : Cube) :
    negatives (cofactor cubes d) = negativesWithin d cubes := by
  induction cubes with
  | nil => rfl
  | cons c cs ih =>
    unfold cofactor at ih ⊢
    rw [List.filter_cons, negativesWithin]
    split
    · rw [List.map_cons, negatives, ih, Cube.without, and_not_and_not_and_not]
    · exact ih

theorem isTautology_of_binate {cubes : List Cube} (h : binate cubes = 0) :
    isTautology cubes = cubes.any (·.care == 0) := by
  have hs : splitBit? cubes = none := by
    rw [splitBit?, h]
    rfl
  rw [isTautology]
  split
  · next ha => exact ha.symm
  · next ha =>
    rw [Bool.not_eq_true] at ha
    split
    · next bit found => rw [hs] at found; cases found
    · exact ha.symm

/-- Implication is tautology of the cofactor. -/
theorem implies_eq (cubes : List Cube) (d : Cube) :
    implies cubes d = isTautology (cofactor cubes d) := by
  unfold implies
  rw [← positives_cofactor, ← negatives_cofactor, ← any_cofactor]
  split
  · next ha => rw [isTautology, if_pos ha]
  · next ha =>
    rw [Bool.not_eq_true] at ha
    split
    · next hb => rw [isTautology_of_binate (beq_iff_eq.1 hb), ha]
    · rfl

end StreamFilter.Cover
