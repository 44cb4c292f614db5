import Mathlib.Algebra.Group.Basic
import Mathlib.Tactic.Abel
import Mathlib.Tactic.Common

/-!
# Numbered streams and their batches

A sender numbers its items in steps of `one`, in a group, so that the numbers may
wrap around. A receiver sees some of the items and compares each number with the
one after the last it saw: `breaks` are the differences it notices, `spacings`
the items it missed. A stream of units may reach it in batches that cut a unit.
-/
namespace Rtmap.Streams

section Numbering
variable {R : Type*} [AddCommGroup R] [DecidableEq R] (one : R)

/-- The differences a receiver notices: the number it expected, if it saw one
before, and the number it got. -/
def breaks : Option R → List R → List (R × R)
  | _, [] => []
  | none, a :: l => breaks (some (a + one)) l
  | some x, a :: l =>
      if a = x then breaks (some (a + one)) l else (x, a) :: breaks (some (a + one)) l

/-- The numbers that are seen of items numbered from `b` on. -/
def seen (b : R) : List Bool → List R
  | [] => []
  | true :: l => b :: seen (b + one) l
  | false :: l => seen (b + one) l

/-- How many items are missed between neighbouring ones that are seen, where so
many have been missed since the last one seen. -/
def spacings : Option ℕ → List Bool → List ℕ
  | _, [] => []
  | none, true :: l => spacings (some 0) l
  | none, false :: l => spacings none l
  | some n, true :: l => n :: spacings (some 0) l
  | some n, false :: l => spacings (some (n + 1)) l

/-- The sizes of the breaks are the spacings that the numbers show. -/
theorem sizes_breaks (fates : List Bool) (b : R) (missed : Option ℕ) :
    (breaks one (missed.map fun n => b - n • one) (seen one b fates)).map (fun p => p.2 - p.1) =
      ((spacings missed fates).map (· • one)).filter (· ≠ 0) := by
  induction fates generalizing b missed with
  | nil => cases missed <;> rfl
  | cons s fates ih =>
      have hseen := ih (b + one) (some 0)
      simp only [Option.map_some, zero_nsmul, sub_zero] at hseen
      cases missed with
      | none =>
          cases s with
          | true => exact hseen
          | false => exact ih (b + one) none
      | some n =>
          cases s with
          | true =>
              simp only [seen, Option.map_some, breaks, spacings, List.map_cons]
              by_cases hn : n • one = 0
              · simp only [hn, sub_zero, if_true, ne_eq, not_true_eq_false, decide_false,
                  Bool.false_eq_true, not_false_eq_true, List.filter_cons_of_neg]
                exact hseen
              · have hne : b ≠ b - n • one := fun h => hn (sub_eq_self.mp h.symm)
                rw [if_neg hne, List.map_cons, List.filter_cons_of_pos (by simp [hn]), hseen]
                simp
          | false =>
              have hmissed := ih (b + one) (some (n + 1))
              have hexpected : b + one - (n + 1) • one = b - n • one := by
                rw [add_nsmul, one_nsmul]
                abel
              simp only [Option.map_some, hexpected] at hmissed
              simp only [Option.map_some, seen, spacings]
              exact hmissed

theorem spacings_replicate_false (n k : ℕ) (l : List Bool) :
    spacings (some n) (List.replicate k false ++ l) = spacings (some (n + k)) l := by
  induction k generalizing n with
  | zero => rfl
  | succ k ih =>
      rw [List.replicate_succ, List.cons_append, spacings, ih]
      congr 2
      omega

theorem spacings_replicate_true (n k : ℕ) (l : List Bool) :
    spacings (some n) (List.replicate (k + 1) true ++ l) =
      n :: (List.replicate k 0 ++ spacings (some 0) l) := by
  induction k generalizing n with
  | zero => rfl
  | succ k ih =>
      rw [List.replicate_succ, List.cons_append, spacings, ih, List.replicate_succ]
      rfl

/-- No item is missed when all are seen. -/
theorem eq_zero_of_mem_spacings {n k : ℕ} (h : k ∈ spacings none (List.replicate n true)) :
    k = 0 := by
  rcases n with _ | _ | n
  · simp [spacings] at h
  · simp [spacings] at h
  · have hall := spacings_replicate_true 0 n []
    rw [List.append_nil] at hall
    rw [List.replicate_succ, spacings, hall] at h
    have hzero : k = 0 ∨ ¬n = 0 ∧ k = 0 := by simpa [spacings] using h
    omega

/-- A block that is missed between items that are seen is the only one. -/
theorem spacings_block (i k m : ℕ) :
    spacings none (List.replicate (i + 1) true ++
      (List.replicate k false ++ List.replicate (m + 1) true)) =
      List.replicate i 0 ++ k :: List.replicate m 0 := by
  have hback := spacings_replicate_true (0 + k) m []
  rw [List.append_nil, spacings, List.append_nil] at hback
  rw [List.replicate_succ, List.cons_append, spacings]
  rcases i with _ | i
  · rw [List.replicate_zero, List.nil_append, spacings_replicate_false, hback]
    simp
  · rw [spacings_replicate_true, spacings_replicate_false, hback, List.replicate_succ]
    simp

end Numbering

section Batches
variable {α : Type*}

/-- The front of a stream of units ends between two units or inside one. -/
theorem split_units {units : List (List α)} {b r : List α} (h : b ++ r = units.flatten) :
    (∃ us vs, units = us ++ vs ∧ b = us.flatten ∧ r = vs.flatten) ∨
      ∃ us p q vs, units = us ++ (p ++ q) :: vs ∧ p ≠ [] ∧ q ≠ [] ∧
        b = us.flatten ++ p ∧ r = q ++ vs.flatten := by
  induction units generalizing b with
  | nil =>
      obtain ⟨rfl, rfl⟩ := List.append_eq_nil_iff.mp h
      exact .inl ⟨[], [], rfl, rfl, rfl⟩
  | cons u units ih =>
      rw [List.flatten_cons] at h
      rcases List.append_eq_append_iff.mp h with ⟨q, hu, hr⟩ | ⟨b', hb, hrest⟩
      · by_cases hb : b = []
        · subst hb
          exact .inl ⟨[], u :: units, rfl, rfl, by rw [hr, hu]; rfl⟩
        · by_cases hq : q = []
          · subst hq
            rw [List.append_nil] at hu
            exact .inl ⟨[u], units, rfl, by simp [hu], by simpa using hr⟩
          · exact .inr ⟨[], b, q, units, by simp [hu], hb, hq, by simp, hr⟩
      · rcases ih hrest.symm with ⟨us, vs, rfl, hus, hvs⟩ | ⟨us, p, q, vs, rfl, hp, hq, hb', hr⟩
        · exact .inl ⟨u :: us, vs, rfl, by rw [hb, hus]; rfl, hvs⟩
        · exact .inr ⟨u :: us, p, q, vs, rfl, hp, hq, by rw [hb, hb']; simp, hr⟩

/-- Every batch is a run of whole units. -/
def Whole (units : List (List α)) (batches : List (List α)) : Prop :=
  ∃ us : List (List (List α)), us.flatten = units ∧ batches = us.map List.flatten

/-- Batches of a stream are whole, or a first one cuts a unit. -/
theorem whole_or_cut {units : List (List α)} {batches : List (List α)} (hne : [] ∉ units)
    (h : batches.flatten = units.flatten) :
    Whole units batches ∨
      ∃ (us : List (List (List α))) (vs : List (List α)) (p q : List α) (ws later : List (List α)),
        units = us.flatten ++ vs ++ (p ++ q) :: ws ∧ p ≠ [] ∧ q ≠ [] ∧
        batches = us.map List.flatten ++ (vs.flatten ++ p) :: later ∧
        later.flatten = q ++ ws.flatten := by
  induction batches generalizing units with
  | nil =>
      have hunits : units = [] := by
        refine List.eq_nil_iff_forall_not_mem.mpr fun u hu => hne ?_
        rw [← List.flatten_eq_nil_iff.mp h.symm u hu]
        exact hu
      exact .inl ⟨[], hunits.symm, rfl⟩
  | cons b batches ih =>
      rw [List.flatten_cons] at h
      rcases split_units h with ⟨us, vs, rfl, rfl, hr⟩ | ⟨us, p, q, vs, rfl, hp, hq, rfl, hr⟩
      · rcases ih (fun hmem => hne (by simp [hmem])) hr with
          ⟨xs, hxs, rfl⟩ | ⟨xs, ys, p, q, ws, later, rfl, hp, hq, rfl, hl⟩
        · exact .inl ⟨us :: xs, by simp [hxs], rfl⟩
        · exact .inr ⟨us :: xs, ys, p, q, ws, later, by simp, hp, hq, by simp, hl⟩
      · exact .inr ⟨[], us, p, q, vs, batches, by simp, hp, hq, by simp, hr⟩

/-- A stream cut into batches of `max`, the last one what is left. -/
def cut (max : ℕ) (l : List α) : List (List α) :=
  if _h : l = [] ∨ max = 0 then [] else l.take max :: cut max (l.drop max)
termination_by l.length
decreasing_by
  have hne : 0 < l.length := List.length_pos_iff.mpr fun hnil => _h (.inl hnil)
  have hmax : 0 < max := Nat.pos_of_ne_zero fun hzero => _h (.inr hzero)
  rw [List.length_drop]
  omega

section Cut
variable {max : ℕ} {l : List α}

@[simp] theorem cut_nil (max : ℕ) : cut max ([] : List α) = [] := by
  rw [cut, dif_pos (.inl rfl)]

theorem cut_of_ne (hmax : 0 < max) (hl : l ≠ []) : cut max l = l.take max :: cut max (l.drop max) := by
  rw [cut, dif_neg]
  rintro (hnil | hzero)
  · exact hl hnil
  · omega

theorem cut_append {b : List α} (hmax : 0 < max) (hb : b.length = max) :
    cut max (b ++ l) = b :: cut max l := by
  have hne : b ++ l ≠ [] := by
    rw [← List.length_pos_iff, List.length_append]
    omega
  rw [cut_of_ne hmax hne, List.take_left' hb, List.drop_left' hb]

theorem cut_of_length_le (hl : l ≠ []) (hle : l.length ≤ max) : cut max l = [l] := by
  have hpos := List.length_pos_iff.mpr hl
  rw [cut_of_ne (by omega) hl, List.take_of_length_le hle, List.drop_of_length_le hle, cut_nil]

theorem flatten_cut (hmax : 0 < max) (l : List α) : (cut max l).flatten = l := by
  induction hn : l.length using Nat.strong_induction_on generalizing l with
  | _ n ih =>
      by_cases hl : l = []
      · rw [hl, cut_nil]
        rfl
      · have hpos := List.length_pos_iff.mpr hl
        rw [cut_of_ne hmax hl, List.flatten_cons,
          ih (l.drop max).length (by rw [List.length_drop]; omega) _ rfl, List.take_append_drop]

theorem map_cut {β : Type*} (f : α → β) (max : ℕ) (l : List α) :
    cut max (l.map f) = (cut max l).map (List.map f) := by
  induction hn : l.length using Nat.strong_induction_on generalizing l with
  | _ n ih =>
      by_cases hmax : max = 0
      · rw [cut, dif_pos (.inr hmax), cut, dif_pos (.inr hmax)]
        rfl
      · by_cases hl : l = []
        · rw [hl, List.map_nil, cut_nil, cut_nil]
          rfl
        · have hpos := List.length_pos_iff.mpr hl
          rw [cut_of_ne (Nat.pos_of_ne_zero hmax) (by simpa using hl),
            cut_of_ne (Nat.pos_of_ne_zero hmax) hl, ← List.map_take, ← List.map_drop,
            ih (l.drop max).length (by rw [List.length_drop]; omega) _ rfl]
          rfl

/-- A first batch that is not full is the only one. -/
theorem cut_cons {b : List α} {bs : List (List α)} (hmax : 0 < max) (h : cut max l = b :: bs) :
    b ≠ [] ∧ cut max bs.flatten = bs ∧ (b.length = max ∨ b.length < max ∧ bs = []) := by
  have hl : l ≠ [] := by
    rintro rfl
    rw [cut_nil] at h
    cases h
  rw [cut_of_ne hmax hl] at h
  obtain ⟨rfl, rfl⟩ := List.cons.inj h
  have hpos := List.length_pos_iff.mpr hl
  refine ⟨?_, by rw [flatten_cut hmax], ?_⟩
  · rw [ne_eq, List.take_eq_nil_iff]
    rintro (hzero | hnil)
    · omega
    · exact hl hnil
  · rw [List.length_take]
    by_cases hfull : max ≤ l.length
    · exact .inl (Nat.min_eq_left hfull)
    · rw [List.drop_of_length_le (by omega), cut_nil]
      exact .inr ⟨by omega, rfl⟩

end Cut

end Batches

end Rtmap.Streams
