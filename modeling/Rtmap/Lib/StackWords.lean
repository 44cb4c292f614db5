import Mathlib.Algebra.Group.Int.Defs
import Mathlib.Algebra.Group.Nat.Defs
import Mathlib.Algebra.GroupWithZero.Nat
import Mathlib.Data.Int.Init
import Mathlib.Data.Nat.Notation
import Mathlib.Tactic.Common

/-!
# Stack operations on 64-bit words

The operations of DWARF expressions on a stack of 64-bit words, the top first, as the
standard has them: arithmetic is modulo 2^64, division is signed, the right shift of a
signed word fills with its sign, and shifts go by any amount.
-/
namespace Rtmap.StackWords

/-- The quotient of the signed words, rounded towards zero. -/
def div (a b : UInt64) : UInt64 := (Int64.ofInt (a.toInt64.toInt.tdiv b.toInt64.toInt)).toUInt64

/-- The magnitude of the signed word. -/
def abs (a : UInt64) : UInt64 := if a.toInt64.toInt < 0 then 0 - a else a

def shl (a b : UInt64) : UInt64 := if b.toNat < 64 then a <<< b else 0

def shr (a b : UInt64) : UInt64 := if b.toNat < 64 then a >>> b else 0

/-- The right shift of the signed word. -/
def sar (a : UInt64) (n : ℕ) : UInt64 := .ofBitVec (a.toBitVec.sshiftRight n)

def shra (a b : UInt64) : UInt64 := sar a b.toNat

inductive Op where
  | plus | minus | mul | div | mod | neg | abs | and | or | xor | shl | shr | shra | not
  | drop
  | pick (n : ℕ)
  | swap | rot
  | plusConst (c : UInt64)

/-- What an operation makes of the stack; there is no result for want of operands and where
the divisor is zero. -/
def Op.apply : Op → List UInt64 → Option (List UInt64)
  | .plus, b :: a :: st => some ((a + b) :: st)
  | .minus, b :: a :: st => some ((a - b) :: st)
  | .mul, b :: a :: st => some ((a * b) :: st)
  | .div, b :: a :: st => if b = 0 then none else some ((StackWords.div a b) :: st)
  | .mod, b :: a :: st => if b = 0 then none else some ((a % b) :: st)
  | .neg, a :: st => some ((0 - a) :: st)
  | .abs, a :: st => some ((StackWords.abs a) :: st)
  | .and, b :: a :: st => some ((a &&& b) :: st)
  | .or, b :: a :: st => some ((a ||| b) :: st)
  | .xor, b :: a :: st => some ((a ^^^ b) :: st)
  | .shl, b :: a :: st => some ((StackWords.shl a b) :: st)
  | .shr, b :: a :: st => some ((StackWords.shr a b) :: st)
  | .shra, b :: a :: st => some ((StackWords.shra a b) :: st)
  | .not, a :: st => some ((~~~a) :: st)
  | .drop, _ :: st => some st
  | .pick n, st => st[n]?.map (· :: st)
  | .swap, b :: a :: st => some (a :: b :: st)
  | .rot, c :: b :: a :: st => some (b :: a :: c :: st)
  | .plusConst c, a :: st => some ((a + c) :: st)
  | _, _ => none

section Meaning

/-- It is the quotient of the machine. -/
theorem div_eq (a b : UInt64) : div a b = (a.toInt64 / b.toInt64).toUInt64 := by
  have hsame : Int64.ofInt (a.toInt64.toInt.tdiv b.toInt64.toInt) = a.toInt64 / b.toInt64 := by
    rw [← Int64.toInt_inj, Int64.toInt_div, Int64.toInt_ofInt]
  rw [div, hsame]

/-- The shift divides the signed word and rounds down. -/
theorem toInt_sar (a : UInt64) (n : ℕ) : (sar a n).toInt64.toInt = a.toInt64.toInt / 2 ^ n := by
  change (a.toBitVec.sshiftRight n).toInt = a.toBitVec.toInt / 2 ^ n
  rw [BitVec.toInt_sshiftRight, Int.shiftRight_eq_div_pow]
  norm_cast

/-- From 64 on the sign fills the word. -/
theorem sar_of_le {n : ℕ} (h : 64 ≤ n) (a : UInt64) :
    sar a n = if a.toInt64.toInt < 0 then -1 else 0 := by
  have hpow : (2 : ℤ) ^ 64 ≤ 2 ^ n := by
    exact_mod_cast Nat.pow_le_pow_right (by decide) h
  have hlo := a.toInt64.le_toInt
  have hhi := a.toInt64.toInt_lt
  have hint := toInt_sar a n
  split
  · rename_i hneg
    have hquot : a.toInt64.toInt / 2 ^ n = -1 := by
      rw [Int.ediv_eq_iff_of_pos (by omega)]
      omega
    rw [hquot] at hint
    have hone : sar a n = (-1 : Int64).toUInt64 :=
      congrArg Int64.toUInt64 (Int64.toInt_inj.mp hint)
    exact hone
  · rename_i hpos
    rw [Int.ediv_eq_zero_of_lt (by omega) (by omega)] at hint
    have hzero : sar a n = (0 : Int64).toUInt64 :=
      congrArg Int64.toUInt64 (Int64.toInt_inj.mp hint)
    exact hzero

end Meaning

end Rtmap.StackWords
