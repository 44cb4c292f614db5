import Mathlib.Data.List.Perm.Basic
import Mathlib.Tactic.Common

/-!
# Removal by swapping with the last element

`swapRemove` moves the last element into the place of the one removed. `sweep`
walks a list and swap-removes what a predicate picks, looking at a place again
after a removal; it keeps the others, some of them in new places.
-/
namespace Rtmap.SwapRemove

variable {α β : Type*}

def swapRemove (l : List α) (i : ℕ) : List α :=
  match l.getLast? with
  | some x => (l.set i x).dropLast
  | none => l

/-- The walk from place `i` on: what is left, and what was removed in order. -/
def sweepFrom (p : α → Bool) : ℕ → ℕ → List α → List α × List α
  | 0, _, l => (l, [])
  | fuel + 1, i, l =>
      match l[i]? with
      | none => (l, [])
      | some x =>
          if p x then
            let r := sweepFrom p fuel i (swapRemove l i)
            (r.1, x :: r.2)
          else sweepFrom p fuel (i + 1) l

/-- Every turn removes an element or moves on, so the length is fuel enough. -/
def sweep (p : α → Bool) (l : List α) : List α × List α := sweepFrom p l.length 0 l

theorem map_swapRemove (f : α → β) (l : List α) (i : ℕ) :
    (swapRemove l i).map f = swapRemove (l.map f) i := by
  rw [swapRemove, swapRemove, List.getLast?_map]
  cases l.getLast? with
  | none => rfl
  | some x => simp only [Option.map_some, List.map_dropLast, List.map_set]

theorem swapRemove_last (a : List α) (x : α) : swapRemove (a ++ [x]) a.length = a := by
  simp [swapRemove]

theorem swapRemove_middle (a b : List α) (x y : α) :
    swapRemove (a ++ x :: (b ++ [y])) a.length = a ++ y :: b := by
  have hlast : (a ++ x :: (b ++ [y])).getLast? = some y := by
    rw [show a ++ x :: (b ++ [y]) = (a ++ x :: b) ++ [y] by simp, List.getLast?_concat]
  have hset : (a ++ x :: (b ++ [y])).set a.length y = (a ++ y :: b) ++ [y] := by simp
  simp only [swapRemove, hlast, hset, List.dropLast_concat]

/-- The element removed and the rest are the list. -/
theorem swapRemove_perm {l : List α} {i : ℕ} {x : α} (h : l[i]? = some x) :
    (x :: swapRemove l i).Perm l := by
  obtain ⟨hi, hx⟩ := List.getElem?_eq_some_iff.mp h
  obtain ⟨a, b, rfl, rfl⟩ : ∃ a b, l = a ++ x :: b ∧ a.length = i :=
    ⟨l.take i, l.drop (i + 1), by simp [← hx], by simp; omega⟩
  rcases List.eq_nil_or_concat b with rfl | ⟨b, y, rfl⟩
  · rw [swapRemove_last]
    exact List.perm_append_singleton x a |>.symm
  · rw [List.concat_eq_append, swapRemove_middle]
    have hmoved : (a ++ y :: b).Perm (a ++ (b ++ [y])) :=
      (List.perm_append_singleton y b).symm.append_left a
    exact (hmoved.cons x).trans List.perm_middle.symm

/-- What a sweep keeps and what it removes are the list. -/
theorem sweepFrom_perm (p : α → Bool) (fuel i : ℕ) (l : List α) :
    ((sweepFrom p fuel i l).2 ++ (sweepFrom p fuel i l).1).Perm l := by
  induction fuel generalizing i l with
  | zero => exact .refl l
  | succ fuel ih =>
      rw [sweepFrom]
      split
      · exact .refl l
      · rename_i x hx
        split
        · exact ((ih i (swapRemove l i)).cons x).trans (swapRemove_perm hx)
        · exact ih (i + 1) l

theorem sweep_perm (p : α → Bool) (l : List α) : ((sweep p l).2 ++ (sweep p l).1).Perm l :=
  sweepFrom_perm p l.length 0 l

/-- A sweep commutes with a map that its predicate looks through. -/
theorem map_sweepFrom (f : α → β) (p : β → Bool) (fuel i : ℕ) (l : List α) :
    (sweepFrom (fun x => p (f x)) fuel i l).1.map f = (sweepFrom p fuel i (l.map f)).1 := by
  induction fuel generalizing i l with
  | zero => rfl
  | succ fuel ih =>
      rw [sweepFrom, sweepFrom, List.getElem?_map]
      cases l[i]? with
      | none => rfl
      | some x =>
          simp only [Option.map_some]
          split
          · rw [← map_swapRemove]
            exact ih i (swapRemove l i)
          · exact ih (i + 1) l

theorem map_sweep (f : α → β) (p : β → Bool) (l : List α) :
    (sweep (fun x => p (f x)) l).1.map f = (sweep p (l.map f)).1 := by
  rw [sweep, sweep, map_sweepFrom, List.length_map]

end Rtmap.SwapRemove
