import Mathlib.Data.List.Nodup
import Mathlib.Data.List.Perm.Subperm
import Mathlib.Data.List.Range
import Mathlib.Data.Nat.ModEq

/-!
# Turns around a list

A walk gives each place of a list one turn, which replaces the item there and puts what the
turn yields into a buffer, under the number of the place. Where no place has two turns the
order of the walk is of no matter for the items, and the buffer holds the yield of each
place in one piece.
-/
namespace Rtmap.RoundRobin

variable {α β : Type*}

/-- One turn at each place listed. -/
def visit (f : α → α × List β) : List ℕ → List α → List α × List (ℕ × β)
  | [], xs => (xs, [])
  | i :: is, xs =>
      match xs[i]? with
      | none => visit f is xs
      | some x =>
          let rest := visit f is (xs.set i (f x).1)
          (rest.1, (f x).2.map (i, ·) ++ rest.2)

/-- The places of `n` items, all around from `start` on. -/
def rotation (start n : ℕ) : List ℕ := (List.range n).map fun offset => (start + offset) % n

/-- What a buffer holds of one place. -/
def ofPlace (i : ℕ) (buf : List (ℕ × β)) : List β := (buf.filter fun x => x.1 == i).map Prod.snd

/-- What the turn at a place yields. -/
def yields (f : α → α × List β) (xs : List α) (i : ℕ) : List β :=
  match xs[i]? with
  | none => []
  | some x => (f x).2

section Rotation
variable {start n : ℕ}

theorem nodup_rotation (start n : ℕ) : (rotation start n).Nodup := by
  refine List.Nodup.map_on ?_ List.nodup_range
  intro a ha b hb hab
  have hmod : a ≡ b [MOD n] := Nat.ModEq.add_left_cancel' start hab
  exact hmod.eq_of_lt_of_lt (List.mem_range.mp ha) (List.mem_range.mp hb)

theorem rotation_perm (start n : ℕ) : (rotation start n).Perm (List.range n) := by
  have hsub : rotation start n ⊆ List.range n := by
    intro i hi
    obtain ⟨offset, hoffset, rfl⟩ := List.mem_map.mp hi
    have hn : 0 < n := Nat.zero_lt_of_lt (List.mem_range.mp hoffset)
    exact List.mem_range.mpr (Nat.mod_lt _ hn)
  have hlength : (List.range n).length ≤ (rotation start n).length := by
    rw [rotation, List.length_map]
  have hsubperm : (rotation start n).Subperm (List.range n) :=
    List.subperm_of_subset (nodup_rotation start n) hsub
  exact hsubperm.perm_of_length_le hlength

theorem mem_rotation {i : ℕ} : i ∈ rotation start n ↔ i < n := by
  rw [(rotation_perm start n).mem_iff, List.mem_range]

end Rotation

section OfPlace
variable {i j : ℕ}

theorem ofPlace_append (i : ℕ) (front back : List (ℕ × β)) :
    ofPlace i (front ++ back) = ofPlace i front ++ ofPlace i back := by
  rw [ofPlace, List.filter_append, List.map_append]
  rfl

theorem ofPlace_self (i : ℕ) (ys : List β) : ofPlace i (ys.map (i, ·)) = ys := by
  have hall : (ys.map (i, ·)).filter (fun x => x.1 == i) = ys.map (i, ·) := by
    rw [List.filter_eq_self]
    intro x hx
    obtain ⟨y, -, rfl⟩ := List.mem_map.mp hx
    exact beq_self_eq_true i
  rw [ofPlace, hall, List.map_map]
  exact List.map_id ys

theorem ofPlace_of_ne (h : j ≠ i) (ys : List β) : ofPlace i (ys.map (j, ·)) = [] := by
  have hnone : (ys.map (j, ·)).filter (fun x => x.1 == i) = [] := by
    rw [List.filter_eq_nil_iff]
    intro x hx
    obtain ⟨y, -, rfl⟩ := List.mem_map.mp hx
    simpa using h
  rw [ofPlace, hnone]
  rfl

end OfPlace

section Visit
variable {f : α → α × List β} {is : List ℕ} {xs : List α} {i j : ℕ}

/-- An item has had its turn or is as before. -/
theorem getElem?_visit (hnodup : is.Nodup) :
    (visit f is xs).1[j]? = if j ∈ is then (xs[j]?).map fun x => (f x).1 else xs[j]? := by
  induction is generalizing xs with
  | nil => rw [if_neg List.not_mem_nil]; rfl
  | cons i is ih =>
      obtain ⟨hi, his⟩ := List.nodup_cons.mp hnodup
      rw [visit]
      split
      · rename_i hnone
        rw [ih his]
        by_cases hj : j = i
        · rw [hj, if_neg hi, if_pos List.mem_cons_self, hnone]
          rfl
        · simp [hj]
      · rename_i x hx
        rw [ih his]
        by_cases hj : j = i
        · have hlt := (List.getElem?_eq_some_iff.mp hx).1
          rw [hj, if_neg hi, if_pos List.mem_cons_self, List.getElem?_set_self hlt, hx]
          rfl
        · rw [List.getElem?_set_ne (Ne.symm hj)]
          simp [hj]

/-- The buffer holds the yields in the order of the walk. -/
theorem snd_visit (hnodup : is.Nodup) :
    (visit f is xs).2 = is.flatMap fun i => (yields f xs i).map (i, ·) := by
  induction is generalizing xs with
  | nil => rfl
  | cons i is ih =>
      obtain ⟨hi, his⟩ := List.nodup_cons.mp hnodup
      rw [visit, List.flatMap_cons]
      split
      · rename_i hnone
        rw [ih his, yields, hnone]
        rfl
      · rename_i x hx
        have hrest : is.flatMap (fun k => (yields f (xs.set i (f x).1) k).map (k, ·)) =
            is.flatMap fun k => (yields f xs k).map (k, ·) := by
          refine List.flatMap_congr fun k hk => ?_
          have hne : i ≠ k := fun heq => hi (heq ▸ hk)
          rw [yields, yields, List.getElem?_set_ne hne]
        dsimp only
        rw [ih his, hrest, yields, hx]

theorem ofPlace_visit (hnodup : is.Nodup) (hj : j ∈ is) :
    ofPlace j (visit f is xs).2 = yields f xs j := by
  rw [snd_visit hnodup]
  induction is with
  | nil => cases hj
  | cons i is ih =>
      obtain ⟨hi, his⟩ := List.nodup_cons.mp hnodup
      rw [List.flatMap_cons, ofPlace_append]
      rcases List.mem_cons.mp hj with heq | hmem
      · have hnone : ofPlace j (is.flatMap fun k => (yields f xs k).map (k, ·)) = [] := by
          rw [ofPlace, List.map_eq_nil_iff, List.filter_eq_nil_iff]
          intro x hx
          obtain ⟨k, hk, hxk⟩ := List.mem_flatMap.mp hx
          obtain ⟨y, -, rfl⟩ := List.mem_map.mp hxk
          have hne : k ≠ j := fun h => hi (heq ▸ h ▸ hk)
          simpa using hne
        rw [hnone, List.append_nil, heq, ofPlace_self]
      · have hne : i ≠ j := fun h => hi (h ▸ hmem)
        rw [ofPlace_of_ne hne, List.nil_append]
        exact ih his hmem

/-- Whatever holds of nothing, of each yield and of two pieces joined holds of the buffer. -/
theorem snd_visit_induction {P : List β → Prop} (hnil : P [])
    (happend : ∀ ys zs, P ys → P zs → P (ys ++ zs)) (hnodup : is.Nodup)
    (hyields : ∀ x ∈ xs, P (f x).2) : P ((visit f is xs).2.map Prod.snd) := by
  have hplace (i : ℕ) : P (yields f xs i) := by
    rw [yields]
    split
    · exact hnil
    · rename_i x hx
      exact hyields x (List.mem_of_getElem? hx)
  rw [snd_visit hnodup]
  induction is with
  | nil => exact hnil
  | cons i is ih =>
      have hhead : ((yields f xs i).map (i, ·)).map Prod.snd = yields f xs i := by
        rw [List.map_map]
        exact List.map_id _
      rw [List.flatMap_cons, List.map_append, hhead]
      exact happend _ _ (hplace i) (ih (List.nodup_cons.mp hnodup).2)

end Visit

section Around
variable {f : α → α × List β} {xs : List α} {start : ℕ}

/-- All around, each item has its turn. -/
theorem fst_visit_rotation : (visit f (rotation start xs.length) xs).1 = xs.map fun x => (f x).1 := by
  apply List.ext_getElem?
  intro j
  rw [getElem?_visit (nodup_rotation _ _), List.getElem?_map]
  split
  · rfl
  · rename_i hj
    rw [List.getElem?_eq_none (Nat.le_of_not_lt (mt mem_rotation.mpr hj))]
    rfl

theorem ofPlace_visit_rotation (j : ℕ) :
    ofPlace j (visit f (rotation start xs.length) xs).2 = yields f xs j := by
  by_cases hj : j < xs.length
  · exact ofPlace_visit (nodup_rotation _ _) (mem_rotation.mpr hj)
  · have hnone : yields f xs j = [] := by
      rw [yields, List.getElem?_eq_none (Nat.le_of_not_lt hj)]
    rw [hnone, snd_visit (nodup_rotation _ _), ofPlace, List.map_eq_nil_iff, List.filter_eq_nil_iff]
    intro x hx
    obtain ⟨k, hk, hxk⟩ := List.mem_flatMap.mp hx
    obtain ⟨y, -, rfl⟩ := List.mem_map.mp hxk
    have hne : k ≠ j := fun h => hj (h ▸ mem_rotation.mp hk)
    simpa using hne

/-- All around, the buffer holds what all items yield. -/
theorem length_snd_visit_rotation :
    (visit f (rotation start xs.length) xs).2.length = (xs.map fun x => (f x).2.length).sum := by
  have hplaces : (List.range xs.length).map (fun i => (yields f xs i).length) =
      xs.map fun x => (f x).2.length := by
    apply List.ext_getElem?
    intro i
    rw [List.getElem?_map, List.getElem?_map]
    by_cases hi : i < xs.length
    · rw [List.getElem?_range hi, List.getElem?_eq_getElem hi]
      simp [yields, hi]
    · rw [List.getElem?_eq_none (Nat.le_of_not_lt hi), List.getElem?_eq_none (by simpa using hi)]
      rfl
  rw [snd_visit (nodup_rotation _ _), List.length_flatMap, ← hplaces]
  simp only [List.length_map]
  exact ((rotation_perm start xs.length).map _).sum_nat

end Around

end Rtmap.RoundRobin
