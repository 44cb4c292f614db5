import Mathlib.Data.List.Basic
import Mathlib.Data.List.Induction
import Mathlib.Data.List.Nodup
import Mathlib.Data.List.Perm.Basic
import Mathlib.Tactic.Common

/-!
# Grouping by a key

A hash map from keys to lists, filled by pushing the members of a list one after the other.
Its groups are the members of each key in their order, whatever order the map keeps its keys in.
-/
namespace Rtmap.Grouping
variable {K α : Type*} [DecidableEq K]

/-- `entry(k).or_default().push(a)`. -/
def pushAt (k : K) (a : α) : List (K × List α) → List (K × List α)
  | [] => [(k, [a])]
  | g :: gs => if g.1 = k then (k, g.2 ++ [a]) :: gs else g :: pushAt k a gs

/-- The groups of a list, those of earlier members first. -/
def group (key : α → K) (l : List α) : List (K × List α) :=
  l.foldl (fun gs a => pushAt (key a) a gs) []

theorem map_fst_pushAt (k : K) (a : α) (gs : List (K × List α)) :
    (pushAt k a gs).map Prod.fst =
      if k ∈ gs.map Prod.fst then gs.map Prod.fst else gs.map Prod.fst ++ [k] := by
  induction gs with
  | nil => rfl
  | cons g gs ih =>
      rw [pushAt]
      by_cases hk : g.1 = k
      · simp [hk]
      · have hmem : k ∈ (g :: gs).map Prod.fst ↔ k ∈ gs.map Prod.fst := by
          rw [List.map_cons, List.mem_cons, or_iff_right (Ne.symm hk)]
        rw [if_neg hk, List.map_cons, ih]
        by_cases hin : k ∈ gs.map Prod.fst
        · rw [if_pos hin, if_pos (hmem.mpr hin), List.map_cons]
        · rw [if_neg hin, if_neg fun h => hin (hmem.mp h), List.map_cons, List.cons_append]

theorem mem_pushAt {k : K} {a : α} {gs : List (K × List α)} (hnodup : (gs.map Prod.fst).Nodup)
    {g : K × List α} :
    g ∈ pushAt k a gs ↔ (g.1 ≠ k ∧ g ∈ gs) ∨
      (g.1 = k ∧ ((∃ as, (k, as) ∈ gs ∧ g.2 = as ++ [a]) ∨
        (k ∉ gs.map Prod.fst ∧ g.2 = [a]))) := by
  obtain ⟨j, bs⟩ := g
  induction gs with
  | nil =>
      rw [pushAt, List.mem_singleton, Prod.mk.injEq]
      simp
  | cons h gs ih =>
      obtain ⟨hhead, htail⟩ := List.nodup_cons.mp hnodup
      rw [pushAt]
      by_cases hk : h.1 = k
      · subst hk
        have hnot (as : List α) : (h.1, as) ∉ gs := fun hin =>
          hhead (List.mem_map.mpr ⟨_, hin, rfl⟩)
        rw [if_pos rfl, List.mem_cons, Prod.mk.injEq]
        constructor
        · rintro (⟨hj, hbs⟩ | hin)
          · exact .inr ⟨hj, .inl ⟨h.2, List.mem_cons_self, hbs⟩⟩
          · refine .inl ⟨fun hj => ?_, List.mem_cons_of_mem _ hin⟩
            exact hnot bs (hj ▸ hin)
        · rintro (⟨hj, hin⟩ | ⟨hj, ⟨as, hin, hbs⟩ | ⟨hno, -⟩⟩)
          · rcases List.mem_cons.mp hin with rfl | hin
            · exact absurd rfl hj
            · exact .inr hin
          · rcases List.mem_cons.mp hin with heq | hin
            · exact .inl ⟨hj, hbs.trans (congrArg (fun h => h.2 ++ [a]) heq)⟩
            · exact absurd hin (hnot as)
          · exact absurd List.mem_cons_self hno
      · rw [if_neg hk, List.mem_cons, ih htail]
        constructor
        · rintro (rfl | ⟨hj, hin⟩ | ⟨hj, ⟨as, hin, hbs⟩ | ⟨hno, hbs⟩⟩)
          · exact .inl ⟨hk, List.mem_cons_self⟩
          · exact .inl ⟨hj, List.mem_cons_of_mem _ hin⟩
          · exact .inr ⟨hj, .inl ⟨as, List.mem_cons_of_mem _ hin, hbs⟩⟩
          · refine .inr ⟨hj, .inr ⟨fun hin => ?_, hbs⟩⟩
            rcases List.mem_cons.mp hin with heq | hin
            · exact hk heq.symm
            · exact hno hin
        · rintro (⟨hj, hin⟩ | ⟨hj, ⟨as, hin, hbs⟩ | ⟨hno, hbs⟩⟩)
          · rcases List.mem_cons.mp hin with heq | hin
            · exact .inl heq
            · exact .inr (.inl ⟨hj, hin⟩)
          · rcases List.mem_cons.mp hin with heq | hin
            · exact absurd (congrArg Prod.fst heq).symm hk
            · exact .inr (.inr ⟨hj, .inl ⟨as, hin, hbs⟩⟩)
          · exact .inr (.inr ⟨hj, .inr ⟨fun hin => hno (List.mem_cons_of_mem _ hin), hbs⟩⟩)

/-- Each key has one group. -/
theorem nodup_group (key : α → K) (l : List α) : ((group key l).map Prod.fst).Nodup := by
  induction l using List.reverseRecOn with
  | nil => exact List.nodup_nil
  | append_singleton l a ih =>
      have hstep : group key (l ++ [a]) = pushAt (key a) a (group key l) := by
        rw [group, List.foldl_append]
        rfl
      rw [hstep, map_fst_pushAt]
      split
      · exact ih
      · rename_i hno
        exact List.Nodup.append ih (List.nodup_singleton _) (by simpa using hno)

/-- The group of a key has the members with that key, in their order. -/
theorem mem_group {key : α → K} {l : List α} {k : K} {as : List α} :
    (k, as) ∈ group key l ↔ as = l.filter (fun a => key a = k) ∧ as ≠ [] := by
  induction l using List.reverseRecOn generalizing k as with
  | nil =>
      constructor
      · intro h
        cases h
      · rintro ⟨has, hne⟩
        exact absurd has hne
  | append_singleton l a ih =>
      have hstep : group key (l ++ [a]) = pushAt (key a) a (group key l) := by
        rw [group, List.foldl_append]
        rfl
      have hkeys : key a ∈ (group key l).map Prod.fst ↔
          l.filter (fun b => key b = key a) ≠ [] := by
        constructor
        · intro h
          obtain ⟨⟨j, bs⟩, hin, rfl⟩ := List.mem_map.mp h
          obtain ⟨hbs, hne⟩ := ih.mp hin
          exact hbs ▸ hne
        · exact fun h => List.mem_map.mpr ⟨(key a, _), ih.mpr ⟨rfl, h⟩, rfl⟩
      rw [hstep, mem_pushAt (nodup_group key l), List.filter_append, ih]
      by_cases hk : k = key a
      · subst hk
        have hlast : ([a].filter fun b => decide (key b = key a)) = [a] :=
          List.filter_cons_of_pos (decide_eq_true rfl)
        rw [hlast, hkeys, not_not]
        constructor
        · rintro (⟨hne, -⟩ | ⟨-, ⟨bs, hin, has⟩ | ⟨hempty, has⟩⟩)
          · exact absurd rfl hne
          · obtain ⟨rfl, -⟩ := ih.mp hin
            have has : as = l.filter (fun b => key b = key a) ++ [a] := has
            exact ⟨has, by simp [has]⟩
          · have has : as = [a] := has
            rw [hempty, List.nil_append]
            exact ⟨has, by simp [has]⟩
        · rintro ⟨has, -⟩
          by_cases hempty : l.filter (fun b => key b = key a) = []
          · rw [hempty, List.nil_append] at has
            exact .inr ⟨rfl, .inr ⟨hempty, has⟩⟩
          · exact .inr ⟨rfl, .inl ⟨_, ih.mpr ⟨rfl, hempty⟩, has⟩⟩
      · have hlast : ([a].filter fun b => decide (key b = k)) = [] :=
          List.filter_cons_of_neg (by simpa using Ne.symm hk)
        rw [hlast, List.append_nil]
        constructor
        · rintro (⟨-, h⟩ | ⟨hsame, -⟩)
          · exact h
          · exact absurd hsame hk
        · exact fun h => .inl ⟨hk, h⟩

end Rtmap.Grouping
