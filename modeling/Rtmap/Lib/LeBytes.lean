import Rtmap.Lib.Records

/-!
# Words in byte memories

The bytes of a number, lowest first, and memories that hold numbers in as many bytes as
one likes. Two words that lie across each other in one memory share some of their bytes.
-/
namespace Rtmap.LeBytes
open Records (toLe)

/-- The byte at a place of the number. -/
def byte (v k : ℕ) : UInt8 := UInt8.ofNat (v / 256 ^ k)

section Numbers
variable {n k : ℕ} (v u : ℕ)

theorem byte_succ : byte v (k + 1) = byte (v / 256) k := by
  rw [byte, byte, Nat.pow_succ, Nat.mul_comm, Nat.div_div_eq_div_mul]

theorem byte_div (j : ℕ) : byte (v / 256 ^ j) k = byte v (j + k) := by
  rw [byte, byte, Nat.div_div_eq_div_mul, ← Nat.pow_add]

theorem byte_zero_eq_iff : byte v 0 = byte u 0 ↔ v % 256 = u % 256 := by
  rw [← UInt8.toNat_inj, byte, byte, Nat.pow_zero, Nat.div_one, Nat.div_one, UInt8.toNat_ofNat',
    UInt8.toNat_ofNat']

/-- The last bytes say what the number is modulo the power. -/
theorem mod_pow_eq_iff (n v u : ℕ) :
    v % 256 ^ n = u % 256 ^ n ↔ ∀ k < n, byte v k = byte u k := by
  induction n generalizing v u with
  | zero => exact iff_of_true (by omega) (by omega)
  | succ n ih =>
      rw [Nat.forall_lt_succ_left, byte_zero_eq_iff]
      simp only [byte_succ]
      rw [← ih, Nat.pow_succ, Nat.mul_comm, Nat.mod_mul, Nat.mod_mul]
      have hv : v % 256 < 256 := Nat.mod_lt _ (by decide)
      have hu : u % 256 < 256 := Nat.mod_lt _ (by decide)
      omega

/-- Numbers of so many bytes are their bytes. -/
theorem eq_iff_byte_eq {v u : ℕ} (hv : v < 256 ^ n) (hu : u < 256 ^ n) :
    v = u ↔ ∀ k < n, byte v k = byte u k := by
  rw [← mod_pow_eq_iff, Nat.mod_eq_of_lt hv, Nat.mod_eq_of_lt hu]

theorem getElem?_toLe (n v k : ℕ) : (toLe n v)[k]? = if k < n then some (byte v k) else none := by
  induction n generalizing v k with
  | zero => rfl
  | succ n ih =>
      cases k with
      | zero =>
          rw [byte, Nat.pow_zero, Nat.div_one, if_pos (Nat.succ_pos n)]
          rfl
      | succ k =>
          rw [toLe, List.getElem?_cons_succ, ih, byte_succ]
          exact if_congr Nat.succ_lt_succ_iff.symm rfl rfl

end Numbers

/-- The number that `n` bytes from `a` on hold. -/
def contents (mem : ℕ → UInt8) : ℕ → ℕ → ℕ
  | _, 0 => 0
  | a, n + 1 => (mem a).toNat + 256 * contents mem (a + 1) n

/-- The memory with the lowest `n` bytes of the number from `a` on. -/
def store (mem : ℕ → UInt8) (a n v : ℕ) : ℕ → UInt8 := fun x =>
  if a ≤ x ∧ x < a + n then byte v (x - a) else mem x

section Memories
variable (mem : ℕ → UInt8) {n : ℕ}

theorem contents_lt (a n : ℕ) : contents mem a n < 256 ^ n := by
  induction n generalizing a with
  | zero => exact Nat.one_pos
  | succ n ih =>
      have hrest := ih (a + 1)
      have hbyte := (mem a).toNat_lt
      rw [contents, Nat.pow_succ]
      omega

theorem byte_contents (a : ℕ) {n k : ℕ} (hk : k < n) : byte (contents mem a n) k = mem (a + k) := by
  induction n generalizing a k with
  | zero => omega
  | succ n ih =>
      have hbyte := (mem a).toNat_lt
      rw [contents]
      cases k with
      | zero =>
          rw [← UInt8.toNat_inj, byte, Nat.pow_zero, Nat.div_one, UInt8.toNat_ofNat']
          change _ = (mem a).toNat
          omega
      | succ k =>
          have hrest : ((mem a).toNat + 256 * contents mem (a + 1) n) / 256 =
              contents mem (a + 1) n := by omega
          rw [byte_succ, hrest, ih (a + 1) (Nat.lt_of_succ_lt_succ hk), Nat.add_right_comm,
            Nat.add_assoc]

theorem store_of_mem {a n x : ℕ} (v : ℕ) (hx : a ≤ x ∧ x < a + n) :
    store mem a n v x = byte v (x - a) :=
  if_pos hx

theorem store_of_not_mem {a n x : ℕ} (v : ℕ) (hx : ¬ (a ≤ x ∧ x < a + n)) :
    store mem a n v x = mem x :=
  if_neg hx

/-- A number is what the bytes hold if each of them is its byte. -/
theorem eq_contents_iff {a n v : ℕ} (hv : v < 256 ^ n) :
    v = contents mem a n ↔ ∀ k < n, byte v k = mem (a + k) := by
  rw [eq_iff_byte_eq hv (contents_lt mem a n)]
  exact forall₂_congr fun k hk => by rw [byte_contents mem a hk]

end Memories

/-- How many bytes two ranges have in common. -/
def common (a n b m : ℕ) : ℕ := min (a + n) (b + m) - max a b

/-- The bytes of a word at `a` that lie from `b` on, `k` of them. -/
def part (v a b k : ℕ) : ℕ := v / 256 ^ (b - a) % 256 ^ k

/-- Two words agree on the bytes that they have in common. -/
theorem part_eq_iff (v u a n b m : ℕ) :
    part v a b (common a n b m) = part u b a (common a n b m) ↔
      ∀ x, a ≤ x ∧ x < a + n → b ≤ x ∧ x < b + m → byte v (x - a) = byte u (x - b) := by
  rw [part, part, mod_pow_eq_iff, common]
  simp only [byte_div]
  constructor
  · intro h x ha hb
    have hplace := h (x - max a b) (by omega)
    rwa [show b - a + (x - max a b) = x - a by omega,
      show a - b + (x - max a b) = x - b by omega] at hplace
  · intro h k hk
    have hplace := h (max a b + k) (by omega) (by omega)
    rwa [show max a b + k - a = b - a + k by omega,
      show max a b + k - b = a - b + k by omega] at hplace

/-- The word changes a byte of the other if it differs on what they have in common. -/
theorem exists_store_ne_iff {mem : ℕ → UInt8} {v u a n b m : ℕ} (hv : v = contents mem a n) :
    (∃ x, (a ≤ x ∧ x < a + n) ∧ (b ≤ x ∧ x < b + m) ∧ store mem b m u x ≠ mem x) ↔
      part v a b (common a n b m) ≠ part u b a (common a n b m) := by
  rw [ne_eq, part_eq_iff, ← not_iff_not, not_not]
  push Not
  refine forall₃_congr fun x ha hb => ?_
  have hbyte : byte v (x - a) = mem x := by
    rw [hv, byte_contents mem a (by omega), show a + (x - a) = x by omega]
  rw [store_of_mem mem u hb, hbyte]
  exact eq_comm

end Rtmap.LeBytes
