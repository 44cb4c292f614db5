import Mathlib.Data.List.DropRight
import Mathlib.Tactic.Common

/-!
# Logs in a ring

A vector that grows to its capacity and is then overwritten in turn. Read from
its oldest entry on, it is the end of the list of all entries ever pushed.
-/
namespace Rtmap

variable {α : Type*}

structure RingLog (α : Type*) where
  buf : List α
  cap : ℕ
  head : ℕ

namespace RingLog

def push (r : RingLog α) (x : α) : RingLog α :=
  { r with
    buf := if r.buf.length < r.cap then r.buf ++ [x] else r.buf.set r.head x
    head := (r.head + 1) % r.cap }

/-- From the oldest entry to the newest. -/
def iter (r : RingLog α) : List α :=
  if r.buf.length < r.cap then r.buf else r.buf.drop r.head ++ r.buf.take r.head

/-- The entry at a place, counted from the oldest. -/
def slot (r : RingLog α) (i : ℕ) : Option α :=
  if i < r.buf.length then
    r.buf[((if r.buf.length < r.cap then 0 else r.head) + i) % r.cap]?
  else none

/-- The entries lie where the next push expects them. -/
structure Good (r : RingLog α) : Prop where
  fits : r.buf.length ≤ r.cap
  head_lt : r.head < r.cap
  filling : r.buf.length < r.cap → r.head = r.buf.length

variable {r : RingLog α} {xs : List α}

theorem good_empty {cap : ℕ} (h : 0 < cap) : (⟨[], cap, 0⟩ : RingLog α).Good :=
  ⟨Nat.zero_le _, h, fun _ => rfl⟩

theorem Good.push (h : r.Good) (x : α) : (r.push x).Good := by
  obtain ⟨hfits, hlt, hfill⟩ := h
  have hmod : (r.head + 1) % r.cap < r.cap := Nat.mod_lt _ (by omega)
  unfold RingLog.push
  split
  · rename_i hroom
    refine ⟨?_, hmod, fun hroom' => ?_⟩
    · simp only [List.length_append, List.length_singleton]
      omega
    · simp only [List.length_append, List.length_singleton] at hroom' ⊢
      rw [hfill hroom, Nat.mod_eq_of_lt hroom']
  · rename_i hfull
    refine ⟨?_, hmod, fun hroom' => ?_⟩
    · rw [List.length_set]
      exact hfits
    · rw [List.length_set] at hroom'
      exact absurd hroom' hfull

theorem length_iter (r : RingLog α) : r.iter.length = r.buf.length := by
  unfold iter
  split
  · rfl
  · rw [List.length_append, List.length_drop, List.length_take]
    omega

/-- The places from the oldest on show what is read from there on. -/
theorem slot_eq (h : r.Good) (i : ℕ) : r.slot i = r.iter[i]? := by
  obtain ⟨hfits, hlt, -⟩ := h
  have hlen := r.length_iter
  rw [slot]
  split
  · rename_i hi
    by_cases hroom : r.buf.length < r.cap
    · rw [if_pos hroom, iter, if_pos hroom, Nat.zero_add, Nat.mod_eq_of_lt (by omega)]
    · have hhead : (r.buf.drop r.head).length = r.buf.length - r.head := List.length_drop
      rw [if_neg hroom, iter, if_neg hroom, List.getElem?_append, hhead]
      split
      · rw [List.getElem?_drop, Nat.mod_eq_of_lt (by omega)]
      · -- beyond the end the places start again
        rw [Nat.mod_eq_sub_mod (by omega), Nat.mod_eq_of_lt (by omega),
          List.getElem?_take_of_lt (by omega)]
        congr 1
        omega
  · rename_i hi
    rw [List.getElem?_eq_none (by omega)]

/-- Overwriting the oldest entry of a full ring. -/
theorem rotate_set {l : List α} {i : ℕ} (h : i < l.length) (x : α) :
    (l.set i x).drop (i + 1) ++ (l.set i x).take (i + 1) = (l.drop i ++ l.take i).tail ++ [x] := by
  rw [List.drop_set_of_lt (Nat.lt_succ_self i), List.take_add_one, List.getElem?_set_self h,
    List.take_set_of_le (Nat.le_refl i), List.drop_eq_getElem_cons h, List.cons_append,
    List.tail_cons, List.append_assoc, Option.toList_some]

/-- A push forgets the oldest entry of a full ring. -/
theorem iter_push (h : r.Good) (x : α) : (r.push x).iter = (r.iter ++ [x]).rtake r.cap := by
  obtain ⟨hfits, hlt, hfill⟩ := h
  have hlen := r.length_iter
  by_cases hroom : r.buf.length < r.cap
  · have hiter : r.iter = r.buf := if_pos hroom
    have hpush : r.push x = ⟨r.buf ++ [x], r.cap, (r.buf.length + 1) % r.cap⟩ := by
      rw [push, if_pos hroom, hfill hroom]
    have hrtake : (r.buf ++ [x]).rtake r.cap = r.buf ++ [x] := by
      rw [List.rtake, List.length_append, List.length_singleton, Nat.sub_eq_zero_of_le hroom,
        List.drop_zero]
    rw [hiter, hrtake, hpush]
    unfold iter
    split
    · rfl
    · rename_i hfull
      simp only [List.length_append, List.length_singleton] at hfull
      have hcap : r.buf.length + 1 = r.cap := by omega
      simp only [hcap, Nat.mod_self, List.drop_zero, List.take_zero, List.append_nil]
  · have hcap : r.buf.length = r.cap := by omega
    have hiter : r.iter = r.buf.drop r.head ++ r.buf.take r.head := if_neg hroom
    have hpush : r.push x = ⟨r.buf.set r.head x, r.cap, (r.head + 1) % r.cap⟩ := by
      rw [push, if_neg hroom]
    have hfull : ¬ (r.buf.set r.head x).length < r.cap := by
      rw [List.length_set]
      exact hroom
    have hrotate : (r.push x).iter = (r.iter).tail ++ [x] := by
      rw [hpush, iter, if_neg hfull, hiter, ← rotate_set (by omega) x]
      dsimp only
      by_cases hlast : r.head + 1 = r.cap
      · rw [hlast, Nat.mod_self, List.drop_zero, List.take_zero, List.append_nil,
          List.drop_of_length_le (by rw [List.length_set]; omega),
          List.take_of_length_le (by rw [List.length_set]; omega), List.nil_append]
      · rw [Nat.mod_eq_of_lt (by omega)]
    have hrtake : (r.iter ++ [x]).rtake r.cap = (r.iter ++ [x]).drop 1 := by
      rw [List.rtake, List.length_append, List.length_singleton, hlen, hcap,
        Nat.add_sub_cancel_left]
    rw [hrotate, hrtake, List.drop_one, List.tail_append_of_ne_nil]
    rw [← List.length_pos_iff, hlen]
    omega

theorem rtake_of_length_le {xs : List α} {n : ℕ} (h : xs.length ≤ n) : xs.rtake n = xs := by
  rw [List.rtake, Nat.sub_eq_zero_of_le h, List.drop_zero]

/-- The last entries of a list, extended at its end. -/
theorem rtake_rtake_append (xs : List α) (x : α) (n : ℕ) :
    (xs.rtake n ++ [x]).rtake n = (xs ++ [x]).rtake n := by
  have hlen : (xs.rtake n).length = min n xs.length := by
    rw [List.rtake, List.length_drop]
    omega
  cases n with
  | zero => simp [List.rtake]
  | succ n =>
      simp only [List.rtake, List.length_append, List.length_singleton, List.length_drop]
      rw [List.drop_append_of_le_length (by rw [List.length_drop]; omega),
        List.drop_append_of_le_length (by omega), List.drop_drop]
      congr 2
      omega

/-- The ring holds the last of the entries pushed. -/
structure Holds (r : RingLog α) (xs : List α) : Prop where
  good : r.Good
  iter : r.iter = xs.rtake r.cap

theorem Holds.empty {cap : ℕ} (h : 0 < cap) : (⟨[], cap, 0⟩ : RingLog α).Holds [] where
  good := good_empty h
  iter := by
    rw [List.rtake_nil]
    exact if_pos h

theorem Holds.push (h : r.Holds xs) (x : α) : (r.push x).Holds (xs ++ [x]) where
  good := h.good.push x
  iter := by
    rw [iter_push h.good, h.iter, rtake_rtake_append]
    rfl

/-- What the ring still holds was pushed in this order. -/
theorem Holds.sublist (h : r.Holds xs) : r.iter.Sublist xs := by
  rw [h.iter, List.rtake]
  exact List.drop_sublist _ _

end RingLog

end Rtmap
