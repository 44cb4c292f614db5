import Mathlib.Data.Nat.Bitwise
import Mathlib.Logic.Function.Basic

/-!
# Bits in words

A set of numbers as an array of 64-bit words: number `b` is bit `b % 64` of word
`b / 64`.
-/
namespace Rtmap.BitWords

def mask (b : ℕ) : UInt64 := 1 <<< UInt64.ofNat (b % 64)

def test (w : ℕ → UInt64) (b : ℕ) : Bool := w (b / 64) &&& mask b != 0

def set (w : ℕ → UInt64) (b : ℕ) : ℕ → UInt64 :=
  Function.update w (b / 64) (w (b / 64) ||| mask b)

theorem toNat_mask (b : ℕ) : (mask b).toNat = 2 ^ (b % 64) := by
  have hlt : b % 64 < 64 := Nat.mod_lt b (by omega)
  have hpow : 2 ^ (b % 64) < 2 ^ 64 := Nat.pow_lt_pow_right (by omega) hlt
  rw [mask, UInt64.toNat_shiftLeft, UInt64.toNat_ofNat']
  rw [Nat.mod_eq_of_lt (a := b % 64) (by omega), Nat.mod_eq_of_lt hlt]
  simpa [Nat.one_shiftLeft] using Nat.mod_eq_of_lt hpow

/-- The test reads the bit of the word. -/
theorem test_eq (w : ℕ → UInt64) (b : ℕ) : test w b = (w (b / 64)).toNat.testBit (b % 64) := by
  have hzero : (w (b / 64) &&& mask b = 0) ↔ (w (b / 64)).toNat.testBit (b % 64) = false := by
    rw [← UInt64.toNat_inj, UInt64.toNat_and, toNat_mask, Nat.and_two_pow]
    cases (w (b / 64)).toNat.testBit (b % 64) <;> simp
  cases hbit : (w (b / 64)).toNat.testBit (b % 64) with
  | false => simp [test, hzero.mpr hbit]
  | true =>
      rw [test, bne_iff_ne]
      intro h
      rw [hzero.mp h] at hbit
      cases hbit

theorem test_set (w : ℕ → UInt64) (b c : ℕ) : test (set w b) c = (test w c || b == c) := by
  rw [test_eq, test_eq, set]
  by_cases hword : b / 64 = c / 64
  · rw [hword, Function.update_self, UInt64.toNat_or, Nat.testBit_or, toNat_mask,
      Nat.testBit_two_pow]
    have hiff : b % 64 = c % 64 ↔ b = c := by omega
    rw [decide_eq_decide.mpr hiff]
    rfl
  · rw [Function.update_of_ne (Ne.symm hword)]
    have hne : b ≠ c := fun h => hword (by rw [h])
    simp [hne]

end Rtmap.BitWords
