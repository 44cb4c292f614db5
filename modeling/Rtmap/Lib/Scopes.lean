import Mathlib.Data.Nat.Basic
import Mathlib.Order.MinMax
import Mathlib.Tactic.Common

/-!
# Scopes in a depth-first order

A tree as the list of its entries in depth-first order, each with its depth. Some entries
open a scope. `owner` is the nearest scope around a point, `lastOpen` the one that was
opened last before it, and a walk that remembers one scope only, and forgets it on the
way out, is in the owner's exactly where the two are the same.

The entries before a point are listed with the closest first; a place is the number of the
entries before it.
-/
namespace Rtmap.Scopes
variable {α : Type*} (depth : α → ℕ) (opens : α → Bool)

/-- The nearest entry that opens a scope around a point at depth `d`. -/
def owner : ℕ → List α → Option (ℕ × α)
  | _, [] => none
  | d, e :: before =>
      if depth e < d then
        if opens e then some (before.length, e) else owner (depth e) before
      else owner d before

/-- The entry that opened a scope last. -/
def lastOpen : List α → Option (ℕ × α)
  | [] => none
  | e :: before => if opens e then some (before.length, e) else lastOpen before

/-- What a walk remembers that keeps the scope it opened last until it is back at its depth. -/
def walked : ℕ → List α → Option (ℕ × α)
  | _, [] => none
  | d, e :: before =>
      if opens e then
        if depth e < d then some (before.length, e) else none
      else walked (min d (depth e)) before

variable {depth opens}

theorem owner_lt {d : ℕ} {before : List α} {o : ℕ × α} (h : owner depth opens d before = some o) :
    o.1 < before.length := by
  induction before generalizing d with
  | nil => cases h
  | cons e before ih =>
      have hrest (d : ℕ) (h : owner depth opens d before = some o) :
          o.1 < (e :: before).length :=
        (ih h).trans (Nat.lt_succ_self _)
      rw [owner] at h
      split at h
      · split at h
        · have ho := Option.some.inj h
          rw [← ho]
          exact Nat.lt_succ_self _
        · exact hrest _ h
      · exact hrest _ h

/-- The entries around a point: `o` at a place, and only deeper ones from there on. -/
def Encloses (depth : α → ℕ) (d : ℕ) (before : List α) (o : ℕ × α) : Prop :=
  ∃ inner outer, before = inner ++ o.2 :: outer ∧ o.1 = outer.length ∧ depth o.2 < d ∧
    ∀ e ∈ inner, depth o.2 < depth e

theorem encloses_cons {d : ℕ} {e : α} {before : List α} {o : ℕ × α} :
    Encloses depth d (e :: before) o ↔
      (o = (before.length, e) ∧ depth e < d) ∨ Encloses depth (min d (depth e)) before o := by
  constructor
  · rintro ⟨inner, outer, hsplit, hplace, hd, hinner⟩
    cases inner with
    | nil =>
        obtain ⟨rfl, rfl⟩ := List.cons.inj hsplit
        exact .inl ⟨Prod.ext hplace rfl, hd⟩
    | cons f inner =>
        obtain ⟨rfl, htail⟩ := List.cons.inj hsplit
        refine .inr ⟨inner, outer, htail, hplace, lt_min hd (hinner e List.mem_cons_self), ?_⟩
        exact fun f hf => hinner f (List.mem_cons_of_mem _ hf)
  · intro h
    rcases h with ⟨rfl, hd⟩ | ⟨inner, outer, hsplit, hplace, hd, hinner⟩
    · exact ⟨[], before, rfl, rfl, hd, fun f hf => absurd hf List.not_mem_nil⟩
    · obtain ⟨hd, he⟩ := lt_min_iff.mp hd
      refine ⟨e :: inner, outer, by rw [hsplit, List.cons_append], hplace, hd, fun f hf => ?_⟩
      rcases List.mem_cons.mp hf with rfl | hf
      · exact he
      · exact hinner f hf

theorem Encloses.lt {d : ℕ} {before : List α} {o : ℕ × α} (h : Encloses depth d before o) :
    o.1 < before.length := by
  obtain ⟨inner, outer, hsplit, hplace, -, -⟩ := h
  rw [hsplit, List.length_append, List.length_cons]
  omega

/-- The owner encloses the point and opens a scope, and none nearer does both. -/
theorem owner_eq_some {d : ℕ} {before : List α} {o : ℕ × α} :
    owner depth opens d before = some o ↔
      Encloses depth d before o ∧ opens o.2 = true ∧
        ∀ p, Encloses depth d before p → opens p.2 = true → p.1 ≤ o.1 := by
  induction before generalizing d with
  | nil =>
      constructor
      · intro h
        cases h
      · rintro ⟨h, -⟩
        exact absurd h.lt (Nat.not_lt_zero _)
  | cons e before ih =>
      rw [owner]
      by_cases hd : depth e < d
      · by_cases ho : opens e = true
        · rw [if_pos hd, if_pos ho]
          constructor
          · intro h
            obtain rfl := Option.some.inj h
            refine ⟨encloses_cons.mpr (.inl ⟨rfl, hd⟩), ho, fun p hp _ => ?_⟩
            exact Nat.lt_succ_iff.mp hp.lt
          · rintro ⟨henc, -, hmax⟩
            rcases encloses_cons.mp henc with ⟨rfl, -⟩ | hrest
            · rfl
            · have hle := hmax (before.length, e) (encloses_cons.mpr (.inl ⟨rfl, hd⟩)) ho
              exact absurd hrest.lt (Nat.not_lt.mpr hle)
        · rw [if_pos hd, if_neg ho, ih]
          have hmin : min d (depth e) = depth e := min_eq_right hd.le
          constructor
          · rintro ⟨henc, hopen, hmax⟩
            refine ⟨encloses_cons.mpr (.inr (hmin.symm ▸ henc)), hopen, fun p hp hpo => ?_⟩
            rcases encloses_cons.mp hp with ⟨rfl, -⟩ | hp
            · exact absurd hpo ho
            · exact hmax p (hmin ▸ hp) hpo
          · rintro ⟨henc, hopen, hmax⟩
            rcases encloses_cons.mp henc with ⟨rfl, -⟩ | henc
            · exact absurd hopen ho
            · refine ⟨hmin ▸ henc, hopen, fun p hp hpo => ?_⟩
              exact hmax p (encloses_cons.mpr (.inr (hmin.symm ▸ hp))) hpo
      · rw [if_neg hd, ih]
        have hmin : min d (depth e) = d := min_eq_left (not_lt.mp hd)
        constructor
        · rintro ⟨henc, hopen, hmax⟩
          refine ⟨encloses_cons.mpr (.inr (hmin.symm ▸ henc)), hopen, fun p hp hpo => ?_⟩
          rcases encloses_cons.mp hp with ⟨-, hlt⟩ | hp
          · exact absurd hlt hd
          · exact hmax p (hmin ▸ hp) hpo
        · rintro ⟨henc, hopen, hmax⟩
          rcases encloses_cons.mp henc with ⟨-, hlt⟩ | henc
          · exact absurd hlt hd
          · refine ⟨hmin ▸ henc, hopen, fun p hp hpo => ?_⟩
            exact hmax p (encloses_cons.mpr (.inr (hmin.symm ▸ hp))) hpo

/-- The owner stands at its place. -/
theorem getElem?_owner {d : ℕ} {before : List α} {o : ℕ × α}
    (h : owner depth opens d before = some o) : before.reverse[o.1]? = some o.2 := by
  obtain ⟨⟨inner, outer, hsplit, hplace, -, -⟩, -, -⟩ := owner_eq_some.mp h
  rw [hsplit, hplace, List.reverse_append, List.reverse_cons, List.append_assoc,
    List.getElem?_append_right (by rw [List.length_reverse])]
  simp

/-- The walk is in the scope of the owner, or in none: in the owner's where the owner opened
last. -/
theorem walked_eq_some {d : ℕ} {before : List α} {o : ℕ × α} :
    walked depth opens d before = some o ↔
      owner depth opens d before = some o ∧ lastOpen opens before = some o := by
  induction before generalizing d with
  | nil => simp [walked, owner]
  | cons e before ih =>
      rw [walked, owner, lastOpen]
      by_cases ho : opens e = true
      · rw [if_pos ho, if_pos ho, if_pos ho]
        split
        · exact (and_self_iff).symm
        · constructor
          · intro h
            cases h
          · rintro ⟨howner, hlast⟩
            have hplace := Option.some.inj hlast
            have hlt := owner_lt howner
            rw [← hplace] at hlt
            exact absurd hlt (lt_irrefl _)
      · rw [if_neg ho, if_neg ho, if_neg ho, ih]
        split
        · rename_i hd
          rw [min_eq_right hd.le]
        · rename_i hd
          rw [min_eq_left (not_lt.mp hd)]

end Rtmap.Scopes
