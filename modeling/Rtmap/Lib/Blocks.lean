import Mathlib.Data.Set.Basic
import Mathlib.Order.Lattice.Nat
import Mathlib.Tactic.Common

/-!
# Bytes in blocks

A memory in blocks of one size, and the blocks that a run of bytes is in.
-/
namespace Rtmap.Blocks
variable {size offset len k : ℕ}

/-- The blocks of the bytes from `offset`. -/
def spanned (size offset len : ℕ) : Set ℕ := {k | ∃ b, offset ≤ b ∧ b < offset + len ∧ b / size = k}

/-- They are those from the block of the first byte to the block of the last one. -/
theorem mem_spanned : k ∈ spanned size offset len ↔
    0 < len ∧ offset / size ≤ k ∧ k ≤ (offset + len - 1) / size := by
  constructor
  · rintro ⟨b, hlow, hhigh, rfl⟩
    exact ⟨by omega, Nat.div_le_div_right hlow, Nat.div_le_div_right (by omega)⟩
  · rintro ⟨hlen, hfirst, hlast⟩
    rcases Nat.eq_zero_or_pos size with rfl | hsize
    · refine ⟨offset, le_rfl, by omega, ?_⟩
      rw [Nat.div_zero] at hlast ⊢
      omega
    · rw [Nat.le_div_iff_mul_le hsize] at hlast
      -- the first byte of the block, or of the run where that is later
      rcases Nat.le_total offset (k * size) with hle | hle
      · exact ⟨k * size, hle, by omega, Nat.mul_div_cancel k hsize⟩
      · have hk : k ≤ offset / size := (Nat.le_div_iff_mul_le hsize).mpr hle
        exact ⟨offset, le_rfl, by omega, Nat.le_antisymm hfirst hk⟩

instance decidableMemSpanned : Decidable (k ∈ spanned size offset len) :=
  decidable_of_iff _ mem_spanned.symm

theorem first_mem_spanned (hlen : 0 < len) : offset / size ∈ spanned size offset len :=
  mem_spanned.mpr ⟨hlen, le_rfl, Nat.div_le_div_right (by omega)⟩

end Rtmap.Blocks
