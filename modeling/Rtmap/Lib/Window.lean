import Mathlib.Data.Nat.Count
import Mathlib.Algebra.Order.Group.Nat
import Mathlib.Data.Nat.ModEq

/-!
# Windows of a circular array and the offset potential

Free-running counters address a circular array of `cap` cells by their residue.
Counters less than `cap` apart address different cells, so a window of `cap`
consecutive counters never aliases.

The second part concerns a sequence of positions in which some positions are
*free* and the others lie in blocks. `off p` is the distance of `p` from the
start of its block. A walk by whole blocks that starts inside a block stays
inside blocks only as long as it meets no free position: the sum of the offset
and the number of free positions passed grows by at most one per position.
-/
namespace Rtmap.Window

theorem and_mask_eq_mod (k x : ℕ) : x &&& (2 ^ k - 1) = x % 2 ^ k :=
  Nat.and_two_pow_sub_one_eq_mod x k

/-- Counters less than one lap apart address different cells. -/
theorem mod_ne_of_lt {cap a b : ℕ} (hab : a < b) (hb : b < a + cap) : a % cap ≠ b % cap := by
  intro h
  have hd : cap ∣ b - a := (Nat.modEq_iff_dvd' hab.le).mp h
  have := Nat.le_of_dvd (by omega) hd
  omega

/-- Offsets in blocks: an offset grows by at most one, and a free position is
followed by a block start. -/
structure Offsets (off : ℕ → ℕ) (free : ℕ → Prop) : Prop where
  succ_le : ∀ p, off (p + 1) ≤ off p + 1
  free_zero : ∀ p, free p → off p = 0
  after_free : ∀ p, free p → off (p + 1) = 0

section Potential
variable {off : ℕ → ℕ} {free : ℕ → Prop} [DecidablePred free]

/-- Offset plus the number of free positions below. -/
def potential (off : ℕ → ℕ) (free : ℕ → Prop) [DecidablePred free] (p : ℕ) : ℕ :=
  off p + Nat.count free p

theorem potential_succ_le (h : Offsets off free) (p : ℕ) :
    potential off free (p + 1) ≤ potential off free p + 1 := by
  unfold potential
  by_cases hp : free p
  · rw [Nat.count_succ, if_pos hp, h.after_free p hp]
    omega
  · rw [Nat.count_succ, if_neg hp]
    have := h.succ_le p
    omega

theorem potential_add_le (h : Offsets off free) (p d : ℕ) :
    potential off free (p + d) ≤ potential off free p + d := by
  induction d with
  | zero => exact le_rfl
  | succ d ih =>
      have hs := potential_succ_le h (p + d)
      rw [← Nat.add_assoc]
      omega

variable (free) in
theorem count_add_of_free (p d : ℕ) (h : ∀ q, p ≤ q → q < p + d → free q) :
    Nat.count free (p + d) = Nat.count free p + d := by
  induction d with
  | zero => rfl
  | succ d ih =>
      rw [← Nat.add_assoc, Nat.count_succ, if_pos (h (p + d) (by omega) (by omega)),
        ih fun q hq hl => h q hq (by omega)]
      omega

variable (free) in
theorem count_add_of_not_free (p d : ℕ) (h : ∀ q, p ≤ q → q < p + d → ¬ free q) :
    Nat.count free (p + d) = Nat.count free p := by
  induction d with
  | zero => rfl
  | succ d ih =>
      rw [← Nat.add_assoc, Nat.count_succ, if_neg (h (p + d) (by omega) (by omega)),
        ih fun q hq hl => h q hq (by omega)]
      omega

variable (free) in
theorem count_add_le (p d : ℕ) : Nat.count free (p + d) ≤ Nat.count free p + d := by
  rw [Nat.count_add]
  have := Nat.count_le (p := fun k => free (p + k)) (n := d)
  omega

/-- `p` is `Cushioned` below `b` when at least as many free positions lie in
`[p, b)` as `p` is deep inside its block. -/
def Cushioned (off : ℕ → ℕ) (free : ℕ → Prop) [DecidablePred free] (p b : ℕ) : Prop :=
  potential off free p ≤ Nat.count free b

theorem Cushioned.mono {p a b : ℕ} (h : Cushioned off free p a) (hab : a ≤ b) :
    Cushioned off free p b :=
  le_trans h (Nat.count_monotone free hab)

theorem cushioned_of_start {p b : ℕ} (h : off p = 0) (hb : p ≤ b) :
    Cushioned off free p b := by
  unfold Cushioned potential
  rw [h, Nat.zero_add]
  exact Nat.count_monotone free hb

/-- Moving the start of a window of `cap` positions forward to `b - cap`, when
everything from the old window's end on is free, keeps the cushion. -/
theorem Cushioned.advance (h : Offsets off free) {p b cap : ℕ}
    (hp : Cushioned off free p (p + cap)) (hb : p + cap ≤ b)
    (hfree : ∀ q, p + cap ≤ q → q < b → free q) : Cushioned off free (b - cap) b := by
  have hstep := potential_add_le h p (b - cap - p)
  have hcount := count_add_of_free free (p + cap) (b - (p + cap))
    fun q hq hl => hfree q hq (by omega)
  rw [show p + (b - cap - p) = b - cap by omega] at hstep
  rw [show p + cap + (b - (p + cap)) = b by omega] at hcount
  unfold Cushioned at hp ⊢
  omega

/-- A step of one block length taken `off p` positions into a block of that
length keeps the cushion. -/
theorem Cushioned.stride (h : Offsets off free) {p b len : ℕ} (hp : Cushioned off free p b)
    (hoff : off p ≤ len) (hend : off (p + (len - off p)) = 0)
    (hblock : ∀ q, p ≤ q → q < p + (len - off p) → ¬ free q) :
    Cushioned off free (p + len) b := by
  have hstep := potential_add_le h (p + (len - off p)) (off p)
  have hcount := count_add_of_not_free free p (len - off p) hblock
  rw [show p + (len - off p) + off p = p + len by omega] at hstep
  unfold Cushioned potential at *
  omega

/-- A cushioned position has its whole block length below the bound. -/
theorem Cushioned.room {p b len : ℕ} (hp : Cushioned off free p b) (hoff : off p ≤ len)
    (hb : p + (len - off p) ≤ b) (hblock : ∀ q, p ≤ q → q < p + (len - off p) → ¬ free q) :
    p + len ≤ b := by
  have hcount := count_add_of_not_free free p (len - off p) hblock
  have hle := count_add_le free (p + (len - off p)) (b - (p + (len - off p)))
  rw [show p + (len - off p) + (b - (p + (len - off p))) = b by omega] at hle
  unfold Cushioned potential at hp
  omega

end Potential

end Rtmap.Window
