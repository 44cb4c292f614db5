import Mathlib.Algebra.Group.Nat.Defs
import Mathlib.Data.List.Basic
import Mathlib.Data.List.Flatten
import Mathlib.Tactic.Common

/-!
# Records of fixed width

Words as little-endian bytes, and files of records that all have the same number of
bytes: whatever is left of such a file, a reader of whole records finds the first ones.
-/
namespace Rtmap.Records

section LittleEndian

/-- The lowest `n` bytes of a number, lowest first. -/
def toLe : ℕ → ℕ → List UInt8
  | 0, _ => []
  | n + 1, v => UInt8.ofNat v :: toLe n (v / 256)

def ofLe : List UInt8 → ℕ
  | [] => 0
  | b :: bs => b.toNat + 256 * ofLe bs

@[simp] theorem length_toLe (n v : ℕ) : (toLe n v).length = n := by
  induction n generalizing v with
  | zero => rfl
  | succ n ih => rw [toLe, List.length_cons, ih]

theorem ofLe_toLe {n v : ℕ} (h : v < 256 ^ n) : ofLe (toLe n v) = v := by
  induction n generalizing v with
  | zero =>
      rw [Nat.pow_zero] at h
      rw [Nat.lt_one_iff.mp h]
      rfl
  | succ n ih =>
      have hrest : v / 256 < 256 ^ n := by
        rw [Nat.pow_succ] at h
        omega
      rw [toLe, ofLe, ih hrest, UInt8.toNat_ofNat']
      omega

end LittleEndian

/-- The bytes from `i` to `j`. -/
def slice (i j : ℕ) (bs : List UInt8) : List UInt8 := (bs.drop i).take (j - i)

/-- The first field. -/
theorem slice_front {j : ℕ} {field : List UInt8} (hj : field.length = j) (back : List UInt8) :
    slice 0 j (field ++ back) = field := by
  subst hj
  rw [slice, List.drop_zero, Nat.sub_zero, List.take_left]

/-- A field behind the first one. -/
theorem slice_behind {i j n : ℕ} {front : List UInt8} (hn : front.length = n) (hi : n ≤ i)
    (bs : List UInt8) : slice i j (front ++ bs) = slice (i - n) (j - n) bs := by
  subst hn
  rw [slice, slice, List.drop_append, List.drop_of_length_le hi, List.nil_append]
  congr 1
  omega

/-- Bytes put in the place of others. -/
def overwrite (i : ℕ) (new bs : List UInt8) : List UInt8 :=
  bs.take i ++ new ++ bs.drop (i + new.length)

theorem overwrite_append {i : ℕ} {front old new back : List UInt8} (hi : front.length = i)
    (hlen : old.length = new.length) :
    overwrite i new (front ++ (old ++ back)) = front ++ (new ++ back) := by
  subst hi
  rw [overwrite, List.take_left, ← hlen, List.append_assoc, ← List.length_append,
    ← List.append_assoc front old back, List.drop_left]

/-- The first `n` bytes and what is left, if there are so many. -/
def readExact (n : ℕ) (bs : List UInt8) : Option (List UInt8 × List UInt8) :=
  if n ≤ bs.length then some (bs.take n, bs.drop n) else none

section Files
variable {α : Type*} {width : ℕ} {encode : α → List UInt8} (hwidth : ∀ a, (encode a).length = width)
include hwidth

theorem length_flatMap_encode (as : List α) :
    (as.flatMap encode).length = width * as.length := by
  induction as with
  | nil => rfl
  | cons a as ih => rw [List.flatMap_cons, List.length_append, hwidth, ih, List.length_cons,
      Nat.mul_succ, Nat.add_comm]

/-- What is left of a file behind a cut still starts with the first record, if the cut
lies behind it. -/
theorem readExact_cut (a : α) (as : List α) (k : ℕ) :
    readExact width (((a :: as).flatMap encode).take k) =
      if width ≤ k then some (encode a, (as.flatMap encode).take (k - width)) else none := by
  rw [List.flatMap_cons, readExact, List.length_take, List.length_append, hwidth]
  by_cases hk : width ≤ k
  · have hwhole : (encode a).take k = encode a :=
      List.take_of_length_le (by rw [hwidth]; exact hk)
    have hcut : (encode a ++ as.flatMap encode).take k =
        encode a ++ (as.flatMap encode).take (k - width) := by
      rw [List.take_append, hwhole, hwidth]
    rw [if_pos (by omega), if_pos hk, hcut, ← hwidth a, List.take_left, List.drop_left]
  · rw [if_neg (by omega), if_neg hk]

end Files

end Rtmap.Records
