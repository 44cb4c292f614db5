import Rtmap.Lib.LeBytes
import Mathlib.Tactic.Common

/-!
# Structs in byte memories

Where the members of a struct start: each at the next place that its alignment allows.
Members do not overlap, so a store of one leaves what the others hold.
-/
namespace Rtmap.Layout
open LeBytes

/-- A member: its size and its alignment. -/
structure Member where
  size : ℕ
  align : ℕ
deriving DecidableEq

structure Struct where
  align : ℕ
  members : List Member
deriving DecidableEq

/-- The next multiple of `a`. -/
def roundUp (a n : ℕ) : ℕ := (n + a - 1) / a * a

/-- Where the members start that come behind `n` bytes. -/
def offsets : ℕ → List Member → List ℕ
  | _, [] => []
  | n, m :: ms => roundUp m.align n :: offsets (roundUp m.align n + m.size) ms

/-- Where the last member ends. -/
def finish : ℕ → List Member → ℕ
  | n, [] => n
  | n, m :: ms => finish (roundUp m.align n + m.size) ms

namespace Struct

def offset (s : Struct) (i : ℕ) : ℕ := (offsets 0 s.members).getD i 0

def size (s : Struct) : ℕ := roundUp s.align (finish 0 s.members)

def sizeOf (s : Struct) (i : ℕ) : ℕ := (s.members.map Member.size).getD i 0

end Struct

section Members
variable {n i j : ℕ} {ms : List Member}

theorem le_roundUp {a : ℕ} (ha : 0 < a) (n : ℕ) : n ≤ roundUp a n := by
  have hdiv := Nat.div_add_mod (n + a - 1) a
  have hmod := Nat.mod_lt (n + a - 1) ha
  rw [roundUp, Nat.mul_comm]
  omega

theorem length_offsets (n : ℕ) (ms : List Member) : (offsets n ms).length = ms.length := by
  induction ms generalizing n with
  | nil => rfl
  | cons m ms ih => rw [offsets, List.length_cons, ih, List.length_cons]

theorem le_of_mem_offsets (halign : ∀ m ∈ ms, 0 < m.align) {o : ℕ} (h : o ∈ offsets n ms) :
    n ≤ o := by
  induction ms generalizing n with
  | nil => cases h
  | cons m ms ih =>
      have hround := le_roundUp (halign m List.mem_cons_self) n
      rcases List.mem_cons.mp h with rfl | h
      · exact hround
      · have hrest := ih (fun x hx => halign x (List.mem_cons_of_mem _ hx)) h
        omega

theorem le_finish (halign : ∀ m ∈ ms, 0 < m.align) (n : ℕ) : n ≤ finish n ms := by
  induction ms generalizing n with
  | nil => exact Nat.le_refl n
  | cons m ms ih =>
      have hround := le_roundUp (halign m List.mem_cons_self) n
      have hrest := ih (fun x hx => halign x (List.mem_cons_of_mem _ hx)) (roundUp m.align n + m.size)
      rw [finish]
      omega

/-- A member ends where a later one starts, or before. -/
theorem offset_add_size_le (halign : ∀ m ∈ ms, 0 < m.align) {m : Member} {o o' : ℕ}
    (hij : i < j) (hm : ms[i]? = some m) (ho : (offsets n ms)[i]? = some o)
    (ho' : (offsets n ms)[j]? = some o') : o + m.size ≤ o' := by
  induction ms generalizing n i j with
  | nil => cases hm
  | cons x ms ih =>
      have hrest : ∀ y ∈ ms, 0 < y.align := fun y hy => halign y (List.mem_cons_of_mem _ hy)
      obtain ⟨j, rfl⟩ : ∃ k, j = k + 1 := ⟨j - 1, by omega⟩
      rw [offsets, List.getElem?_cons_succ] at ho'
      cases i with
      | zero =>
          obtain rfl : x = m := Option.some.inj hm
          obtain rfl : roundUp x.align n = o := Option.some.inj ho
          exact le_of_mem_offsets hrest (List.mem_of_getElem? ho')
      | succ i =>
          rw [List.getElem?_cons_succ] at hm
          rw [offsets, List.getElem?_cons_succ] at ho
          exact ih hrest (Nat.lt_of_succ_lt_succ hij) hm ho ho'

theorem offset_add_size_le_finish (halign : ∀ m ∈ ms, 0 < m.align) {m : Member} {o : ℕ}
    (hm : ms[i]? = some m) (ho : (offsets n ms)[i]? = some o) : o + m.size ≤ finish n ms := by
  induction ms generalizing n i with
  | nil => cases hm
  | cons x ms ih =>
      have hrest : ∀ y ∈ ms, 0 < y.align := fun y hy => halign y (List.mem_cons_of_mem _ hy)
      rw [finish]
      cases i with
      | zero =>
          obtain rfl : x = m := Option.some.inj hm
          obtain rfl : roundUp x.align n = o := Option.some.inj ho
          exact le_finish hrest _
      | succ i =>
          rw [List.getElem?_cons_succ] at hm
          rw [offsets, List.getElem?_cons_succ] at ho
          exact ih hrest hm ho

end Members

namespace Struct
variable {s : Struct} {i j : ℕ}

/-- The alignments can be rounded up to. -/
def Aligned (s : Struct) : Prop := 0 < s.align ∧ ∀ m ∈ s.members, 0 < m.align

theorem getElem?_offsets (hi : i < s.members.length) :
    (offsets 0 s.members)[i]? = some (s.offset i) := by
  rw [offset, List.getD_eq_getElem?_getD, List.getElem?_eq_getElem (by rwa [length_offsets])]
  rfl

theorem sizeOf_eq (hi : i < s.members.length) : s.sizeOf i = s.members[i].size := by
  rw [sizeOf, List.getD_eq_getElem?_getD, List.getElem?_map, List.getElem?_eq_getElem hi]
  rfl

/-- Members do not overlap. -/
theorem offset_disjoint (hs : s.Aligned) (hi : i < s.members.length) (hj : j < s.members.length)
    (hij : i ≠ j) :
    s.offset i + s.sizeOf i ≤ s.offset j ∨ s.offset j + s.sizeOf j ≤ s.offset i := by
  rw [sizeOf_eq hi, sizeOf_eq hj]
  rcases Nat.lt_or_gt_of_ne hij with h | h
  · exact .inl (offset_add_size_le hs.2 h (List.getElem?_eq_getElem hi) (getElem?_offsets hi)
      (getElem?_offsets hj))
  · exact .inr (offset_add_size_le hs.2 h (List.getElem?_eq_getElem hj) (getElem?_offsets hj)
      (getElem?_offsets hi))

theorem offset_add_sizeOf_le (hs : s.Aligned) (hi : i < s.members.length) :
    s.offset i + s.sizeOf i ≤ s.size := by
  rw [sizeOf_eq hi]
  exact Nat.le_trans
    (offset_add_size_le_finish hs.2 (List.getElem?_eq_getElem hi) (getElem?_offsets hi))
    (le_roundUp hs.1 _)

/-- What a member of the struct at `base` holds. -/
def read (s : Struct) (mem : ℕ → UInt8) (base i : ℕ) : ℕ :=
  contents mem (base + s.offset i) (s.sizeOf i)

def write (s : Struct) (mem : ℕ → UInt8) (base i v : ℕ) : ℕ → UInt8 :=
  store mem (base + s.offset i) (s.sizeOf i) v

end Struct

section Stores
variable {mem : ℕ → UInt8} {a n b m v : ℕ}

/-- Bytes that are stored hold the number, if it fits. -/
theorem contents_store_self (hv : v < 256 ^ n) : contents (store mem a n v) a n = v := by
  refine ((eq_contents_iff (store mem a n v) hv).mpr fun k hk => ?_).symm
  rw [store_of_mem mem v (by omega), Nat.add_sub_cancel_left]

theorem contents_congr {mem' : ℕ → UInt8} (h : ∀ x, a ≤ x → x < a + n → mem' x = mem x) :
    contents mem' a n = contents mem a n := by
  induction n generalizing a with
  | zero => rfl
  | succ n ih =>
      rw [contents, contents, h a (Nat.le_refl a) (by omega),
        ih fun x hx hlt => h x (by omega) (by omega)]

/-- A store leaves what lies elsewhere. -/
theorem contents_store_of_disjoint (h : a + n ≤ b ∨ b + m ≤ a) :
    contents (store mem b m v) a n = contents mem a n :=
  contents_congr fun x hx hlt => store_of_not_mem mem v (by omega)

end Stores

namespace Struct
variable {s : Struct} {mem : ℕ → UInt8} {base base' i j v : ℕ}

theorem read_write_self (hv : v < 256 ^ s.sizeOf i) :
    s.read (s.write mem base i v) base i = v :=
  contents_store_self hv

theorem read_write_of_ne (hs : s.Aligned) (hi : i < s.members.length) (hj : j < s.members.length)
    (hij : i ≠ j) : s.read (s.write mem base j v) base i = s.read mem base i := by
  refine contents_store_of_disjoint ?_
  have hdisjoint := offset_disjoint hs hi hj hij
  omega

/-- A store to one struct leaves another that lies elsewhere. -/
theorem read_write_of_disjoint {s' : Struct} (hs : s.Aligned) (hs' : s'.Aligned)
    (hi : i < s.members.length) (hj : j < s'.members.length)
    (h : base + s.size ≤ base' ∨ base' + s'.size ≤ base) :
    s.read (s'.write mem base' j v) base i = s.read mem base i := by
  refine contents_store_of_disjoint ?_
  have hend := offset_add_sizeOf_le hs hi
  have hend' := offset_add_sizeOf_le hs' hj
  omega

end Struct

end Rtmap.Layout
