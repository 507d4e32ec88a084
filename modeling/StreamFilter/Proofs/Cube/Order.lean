import StreamFilter.Proofs.Ascending
import StreamFilter.Proofs.Cube.Points
set_option autoImplicit false

/-!
# The order and the size of cubes

Cubes are ordered by `care` and then by `value`, a linear order, so a set of cubes has one
ascending list (`Cube.nodup_ascending_cubes`).  Dropping a literal makes a cube smaller by one
(`Cube.size_without`).
-/

namespace StreamFilter

namespace Bits

theorem pairwise_positions (w : UInt64) : (positions w).Pairwise (· < ·) :=
  List.pairwise_lt_range.sublist List.filter_sublist

theorem nodup_positions (w : UInt64) : (positions w).Nodup :=
  (pairwise_positions w).imp Nat.ne_of_lt

theorem positions_clear {i : Nat} (hi : i < 64) (w : UInt64) :
    positions (w &&& ~~~single i) = (positions w).erase i := by
  rw [(nodup_positions w).erase_eq_filter, positions, positions, List.filter_filter]
  refine List.filter_congr fun j hj => ?_
  have hj : j < 64 := by simpa [all] using hj
  rw [has_and, has_not, has_single hj hi]
  by_cases hne : j = i <;> simp [hne]

end Bits

namespace Cube

/-- Without one of its literals, a cube has one literal less. -/
theorem size_without {c : Cube} {i : Nat} (hi : i < 64) (hcare : Bits.has c.care i = true) :
    (c.without (Bits.single i)).size + 1 = c.size := by
  have hmem : i ∈ Bits.positions c.care := Bits.mem_positions.2 ⟨hi, hcare⟩
  have hpos := List.length_pos_of_mem hmem
  rw [size, size, without, Bits.positions_clear hi, List.length_erase_of_mem hmem]
  omega

/-! ## The order -/

theorem le_iff {c d : Cube} :
    c.le d = true ↔ c.care.toNat < d.care.toNat ∨
      c.care.toNat = d.care.toNat ∧ c.value.toNat ≤ d.value.toNat := by
  simp [le, UInt64.lt_iff_toNat_lt, UInt64.le_iff_toNat_le, UInt64.toNat_inj]

theorem le_antisymm (c d : Cube) (hcd : c.le d = true) (hdc : d.le c = true) : c = d := by
  rw [le_iff] at hcd hdc
  obtain ⟨care, value⟩ := c
  obtain ⟨care', value'⟩ := d
  have hcare : care.toNat = care'.toNat := by dsimp only at hcd hdc; omega
  have hvalue : value.toNat = value'.toNat := by dsimp only at hcd hdc; omega
  rw [UInt64.toNat_inj.1 hcare, UInt64.toNat_inj.1 hvalue]

theorem le_trans (c d e : Cube) (hcd : c.le d = true) (hde : d.le e = true) : c.le e = true := by
  rw [le_iff] at hcd hde ⊢
  omega

theorem le_total (c d : Cube) : (c.le d || d.le c) = true := by
  rw [Bool.or_eq_true, le_iff, le_iff]
  omega

theorem nodup_ascending_cubes (cubes : List Cube) : (ascending le cubes).Nodup :=
  nodup_ascending le_antisymm le_trans le_total cubes

end Cube

end StreamFilter
