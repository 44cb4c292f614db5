import Mathlib.Data.Finset.Card
import Mathlib.Data.Finset.Lattice.Fold
import Mathlib.Order.Bounds.Basic
import Mathlib.Order.Lattice.Nat
import Mathlib.Tactic.Common

/-!
# Paths along a partial function

A walk follows a partial function until the function ends or leads back to a node that
was visited. The nodes it visits are the longest path from its start that visits none
twice, and no round beyond the number of the function's values adds to them.
-/
namespace Rtmap.SimplePath

variable {α : Type*} {next : α → Option α} {x : α} {path : List α}

/-- The nodes from `x` on, each the one before it leads to. -/
inductive Path (next : α → Option α) : α → List α → Prop
  | last (x : α) : Path next x [x]
  | step {x y : α} {rest : List α} : next x = some y → Path next y rest → Path next x (x :: rest)

/-- The lengths of the paths from these nodes that visit none twice. -/
def lengths (next : α → Option α) (starts : Set α) : Set ℕ :=
  {n | ∃ x ∈ starts, ∃ path, Path next x path ∧ path.Nodup ∧ path.length = n}

theorem Path.tail_subset {targets : Finset α} (h : Path next x path)
    (htargets : ∀ x y, next x = some y → y ∈ targets) : ∀ y ∈ path.tail, y ∈ targets := by
  induction h with
  | last x => exact nofun
  | @step x y rest hy hrest ih =>
      intro z hz
      cases hrest with
      | last => exact List.mem_singleton.mp hz ▸ htargets x y hy
      | step hy' hrest' =>
          rcases List.mem_cons.mp hz with rfl | hz
          · exact htargets x z hy
          · exact ih z hz

/-- A path without repetition has at most one node that is no value of the function. -/
theorem Path.length_le {targets : Finset α} (h : Path next x path) (hnodup : path.Nodup)
    (htargets : ∀ x y, next x = some y → y ∈ targets) : path.length ≤ targets.card + 1 := by
  classical
  have hsub : path.tail.toFinset ⊆ targets := fun y hy =>
    h.tail_subset htargets y (List.mem_toFinset.mp hy)
  have hcard := Finset.card_le_card hsub
  rw [List.toFinset_card_of_nodup (hnodup.sublist (List.tail_sublist path))] at hcard
  rw [List.length_tail] at hcard
  omega

variable [DecidableEq α]

/-- The nodes visited from `x` on in that many rounds. -/
def walk (next : α → Option α) : ℕ → List α → α → List α
  | 0, _, _ => []
  | rounds + 1, visited, x =>
      if x ∈ visited then []
      else
        match next x with
        | some y => x :: walk next rounds (x :: visited) y
        | none => [x]

variable {rounds : ℕ} {visited : List α}

/-- A walk that begins is a path without repetition and off the nodes visited before. -/
theorem path_walk (hx : x ∉ visited) : Path next x (walk next (rounds + 1) visited x) ∧
    (walk next (rounds + 1) visited x).Nodup ∧
      ∀ y ∈ walk next (rounds + 1) visited x, y ∉ visited := by
  induction rounds generalizing visited x with
  | zero =>
      have hone : walk next (0 + 1) visited x = [x] := by
        rw [walk, if_neg hx]
        split <;> rfl
      rw [hone]
      exact ⟨.last x, List.nodup_singleton x, by simpa using hx⟩
  | succ rounds ih =>
      rw [walk, if_neg hx]
      cases hy : next x with
      | none => exact ⟨.last x, List.nodup_singleton x, by simpa using hx⟩
      | some y =>
          dsimp only
          by_cases hseen : y ∈ x :: visited
          · rw [walk, if_pos hseen]
            exact ⟨.last x, List.nodup_singleton x, by simpa using hx⟩
          · obtain ⟨hpath, hnodup, hoff⟩ := ih hseen
            refine ⟨.step hy hpath, List.nodup_cons.mpr ⟨fun hmem => ?_, hnodup⟩, fun z hz => ?_⟩
            · exact hoff x hmem List.mem_cons_self
            · rcases List.mem_cons.mp hz with rfl | hz
              · exact hx
              · exact fun hv => hoff z hz (List.mem_cons_of_mem x hv)

/-- The walk goes as far as any such path. -/
theorem Path.prefix_walk (h : Path next x path) (hnodup : path.Nodup)
    (hoff : ∀ y ∈ path, y ∉ visited) (hlength : path.length ≤ rounds) :
    path <+: walk next rounds visited x := by
  induction h generalizing rounds visited with
  | last x =>
      obtain ⟨rounds, rfl⟩ := Nat.exists_eq_add_of_le' hlength
      rw [List.length_singleton, walk, if_neg (hoff x List.mem_cons_self)]
      split
      · exact List.cons_prefix_cons.mpr ⟨rfl, List.nil_prefix⟩
      · exact List.prefix_rfl
  | @step x y rest hy hrest ih =>
      obtain ⟨rounds, rfl⟩ := Nat.exists_eq_add_of_le' (Nat.le_of_add_left_le hlength)
      rw [walk, if_neg (hoff x List.mem_cons_self), hy]
      obtain ⟨hx, hnodup⟩ := List.nodup_cons.mp hnodup
      refine List.cons_prefix_cons.mpr ⟨rfl, ih hnodup (fun z hz => ?_) ?_⟩
      · intro hmem
        rcases List.mem_cons.mp hmem with rfl | hmem
        · exact hx hz
        · exact hoff z (List.mem_cons_of_mem x hz) hmem
      · rw [List.length_cons] at hlength
        omega

section Longest
variable {targets : Finset α} (htargets : ∀ x y, next x = some y → y ∈ targets)
include htargets

/-- Once it can have visited every value of the function, a walk does not go on. -/
theorem walk_of_le (hrounds : targets.card + 1 ≤ rounds) (x : α) :
    walk next rounds [] x = walk next (targets.card + 1) [] x := by
  obtain ⟨more, rfl⟩ := Nat.exists_eq_add_of_le' (Nat.le_of_add_left_le hrounds)
  obtain ⟨hpath, hnodup, hoff⟩ := @path_walk α next x _ more [] List.not_mem_nil
  obtain ⟨hpath', hnodup', hoff'⟩ := @path_walk α next x _ targets.card [] List.not_mem_nil
  have hprefix := hpath.prefix_walk hnodup hoff (hpath.length_le hnodup htargets)
  have hlength' := hpath'.length_le hnodup' htargets
  exact hprefix.eq_of_length_le
    (hpath'.prefix_walk hnodup' hoff' (hlength'.trans hrounds)).length_le

/-- The longest path from any of the nodes is the longest of their walks. -/
theorem isGreatest_walk (hrounds : targets.card + 1 ≤ rounds) (starts : Finset α) :
    IsGreatest (insert 0 (lengths next starts))
      (starts.sup fun x => (walk next rounds [] x).length) := by
  constructor
  · rcases starts.eq_empty_or_nonempty with rfl | hne
    · exact Set.mem_insert 0 _
    · obtain ⟨x, hx, heq⟩ := starts.exists_mem_eq_sup hne fun x => (walk next rounds [] x).length
      obtain ⟨more, rfl⟩ := Nat.exists_eq_add_of_le' (Nat.le_of_add_left_le hrounds)
      obtain ⟨hpath, hnodup, -⟩ := @path_walk α next x _ more [] List.not_mem_nil
      exact .inr ⟨x, hx, _, hpath, hnodup, heq.symm⟩
  · rintro n (rfl | ⟨x, hx, path, hpath, hnodup, rfl⟩)
    · exact Nat.zero_le _
    · have hlength := hpath.length_le hnodup htargets
      have hprefix := hpath.prefix_walk hnodup (fun _ _ => List.not_mem_nil)
        (hlength.trans hrounds)
      have hsup := starts.le_sup (f := fun x => (walk next rounds [] x).length) hx
      exact hprefix.length_le.trans hsup

end Longest

end Rtmap.SimplePath
