import Mathlib.Data.List.Induction
import Mathlib.Logic.Basic
import Mathlib.Tactic.Common

/-!
# Runs of labelled transition systems

A system is a partial step function on labels and states. `Reach` collects the
states of all runs whose every step meets a side condition on the label and the
state it is taken in. Invariants are proved once by `Reach.invariant`; concrete
runs are evaluated by `exec` and lifted by `Reach.of_exec`.
-/
namespace Rtmap.Transition

variable {S L : Type*}

/-- States of the runs from `s` in which each step meets `ok` where it is taken. -/
inductive Reach (step : L → S → Option S) (ok : L → S → Prop) (s : S) : S → Prop
  | start : Reach step ok s s
  | next {t u : S} {l : L} :
      Reach step ok s t → ok l t → step l t = some u → Reach step ok s u

/-- An initial fact that every admitted step preserves holds along every run. -/
theorem Reach.invariant {step : L → S → Option S} {ok : L → S → Prop} {s t : S}
    {I : S → Prop} (h : Reach step ok s t) (h0 : I s)
    (hstep : ∀ l u v, I u → ok l u → step l u = some v → I v) : I t := by
  induction h with
  | start => exact h0
  | next _ hok hs ih => exact hstep _ _ _ ih hok hs

theorem Reach.trans {step : L → S → Option S} {ok : L → S → Prop} {s t u : S}
    (h : Reach step ok s t) (k : Reach step ok t u) : Reach step ok s u := by
  induction k with
  | start => exact h
  | next _ hok hs ih => exact .next ih hok hs

/-- A weaker side condition admits more runs. -/
theorem Reach.mono {step : L → S → Option S} {ok ok' : L → S → Prop} {s t : S}
    (h : Reach step ok s t) (hok : ∀ l u, ok l u → ok' l u) : Reach step ok' s t := by
  induction h with
  | start => exact .start
  | next _ ho hs ih => exact .next ih (hok _ _ ho) hs

/-- A measure that some admitted step lowers until `done` brings every state there. -/
theorem Reach.exists_done {step : L → S → Option S} {ok : L → S → Prop} {I done : S → Prop}
    (measure : S → ℕ)
    (hstep : ∀ s, I s → ¬ done s →
      ∃ l t, ok l s ∧ step l s = some t ∧ I t ∧ measure t < measure s)
    (s : S) (hs : I s) : ∃ t, Reach step ok s t ∧ I t ∧ done t := by
  induction h : measure s using Nat.strongRecOn generalizing s with
  | _ n ih =>
      by_cases hd : done s
      · exact ⟨s, .start, hs, hd⟩
      · obtain ⟨l, t, hok, hst, ht, hlt⟩ := hstep s hs hd
        obtain ⟨u, hrun, hu, hdone⟩ := ih (measure t) (by omega) t ht rfl
        exact ⟨u, (Reach.next .start hok hst).trans hrun, hu, hdone⟩

/-- Take the listed labels in order; `none` when one of them is not enabled. -/
def exec (step : L → S → Option S) : List L → S → Option S
  | [], s => some s
  | l :: ls, s => (step l s).bind (exec step ls)

theorem exec_append (step : L → S → Option S) (ls ks : List L) (s : S) :
    exec step (ls ++ ks) s = (exec step ls s).bind (exec step ks) := by
  induction ls generalizing s with
  | nil => rfl
  | cons l ls ih =>
      simp only [List.cons_append, exec]
      cases step l s with
      | none => rfl
      | some t => exact ih t

/-- A trace and its last step. -/
theorem exec_snoc_iff {step : L → S → Option S} {ls : List L} {l : L} {s u : S} :
    exec step (ls ++ [l]) s = some u ↔ ∃ t, exec step ls s = some t ∧ step l t = some u := by
  have hlast (t : S) : exec step [l] t = step l t := Option.bind_fun_some (step l t)
  rw [exec_append, Option.bind_eq_some_iff]
  simp only [hlast]

/-- A label that does not occur at the end of a trace occurs before it. -/
theorem exists_split_of_notMem {ls ks front rest : List L} {l : L}
    (h : ls ++ ks = front ++ l :: rest) (hl : l ∉ ks) : ∃ mid, ls = front ++ l :: mid := by
  rcases List.append_eq_append_iff.mp h with ⟨mid, -, hmid⟩ | ⟨mid, rfl, hmid⟩
  · exact absurd (by simp [hmid]) hl
  · cases mid with
    | nil =>
        rw [List.nil_append] at hmid
        exact absurd (hmid ▸ List.mem_cons_self) hl
    | cons x mid =>
        obtain ⟨rfl, -⟩ := List.cons.inj hmid
        exact ⟨mid, rfl⟩

/-- A trace is a run when an invariant of its steps admits every label of it. -/
theorem Reach.of_exec_invariant {step : L → S → Option S} {ok : L → S → Prop} {I : S → Prop}
    {ls : List L} {s t : S} (h : exec step ls s = some t) (h0 : I s)
    (hok : ∀ l ∈ ls, ∀ u, I u → ok l u)
    (hstep : ∀ l ∈ ls, ∀ u v, I u → step l u = some v → I v) : Reach step ok s t := by
  induction ls generalizing s with
  | nil =>
      simp only [exec, Option.some.injEq] at h
      subst h
      exact .start
  | cons l ls ih =>
      simp only [exec, Option.bind_eq_some_iff] at h
      obtain ⟨u, hu, ht⟩ := h
      have hfirst : Reach step ok s u := .next .start (hok l (by simp) s h0) hu
      exact hfirst.trans (ih ht (hstep l (by simp) s u h0 hu)
        (fun k hk => hok k (by simp [hk])) fun k hk => hstep k (by simp [hk]))

/-- A trace every label of which is admitted everywhere is a run. -/
theorem Reach.of_exec {step : L → S → Option S} {ok : L → S → Prop} {ls : List L}
    {s t : S} (h : exec step ls s = some t) (hok : ∀ l ∈ ls, ∀ u, ok l u) :
    Reach step ok s t :=
  Reach.of_exec_invariant (I := fun _ => True) h trivial (fun l hl u _ => hok l hl u)
    fun _ _ _ _ _ _ => trivial

/-- What every step preserves holds behind a trace. -/
theorem exec_invariant {step : L → S → Option S} {ls : List L} {s t : S} {I : S → Prop}
    (h : exec step ls s = some t) (h0 : I s)
    (hstep : ∀ l u v, I u → step l u = some v → I v) : I t := by
  have hrun : Reach step (fun _ _ => True) s t := .of_exec h fun _ _ _ => trivial
  exact hrun.invariant h0 fun l u v hu _ hs => hstep l u v hu hs

section Components
-- the parts of a state are in a list, and a step changes one of them
variable {α : Type*} {as : List α} {i j : ℕ} {a a' b : α}

theorem getElem?_set_self_of_some (hi : as[i]? = some a) : (as.set i a')[i]? = some a' := by
  rw [List.getElem?_set_self (List.getElem?_eq_some_iff.mp hi).choose]

theorem getElem?_set_cases (h : (as.set i a')[j]? = some b) :
    j = i ∧ b = a' ∨ j ≠ i ∧ as[j]? = some b := by
  by_cases hij : i = j
  · subst hij
    rw [List.getElem?_set] at h
    simp only [if_true] at h
    split at h
    · exact .inl ⟨rfl, (Option.some.inj h).symm⟩
    · cases h
  · rw [List.getElem?_set_ne hij] at h
    exact .inr ⟨fun h => hij h.symm, h⟩

theorem mem_set_cases (h : b ∈ as.set i a') : b = a' ∨ ∃ j, j ≠ i ∧ as[j]? = some b := by
  obtain ⟨j, hj⟩ := List.mem_iff_getElem?.mp h
  rcases getElem?_set_cases hj with ⟨-, hb⟩ | ⟨hne, hb⟩
  · exact .inl hb
  · exact .inr ⟨j, hne, hb⟩

theorem mem_set_self (hi : as[i]? = some a) : a' ∈ as.set i a' :=
  List.mem_iff_getElem?.mpr ⟨i, getElem?_set_self_of_some hi⟩

theorem mem_set_of_ne (hne : j ≠ i) (hj : as[j]? = some b) : b ∈ as.set i a' :=
  List.mem_iff_getElem?.mpr ⟨j, by rw [List.getElem?_set_ne hne.symm, hj]⟩

end Components

/-- The steps that meet the condition. -/
def guarded (step : L → S → Option S) (ok : L → S → Prop) [∀ l s, Decidable (ok l s)] (l : L)
    (s : S) : Option S :=
  if ok l s then step l s else none

/-- A trace whose condition is checked as it is taken is a run. -/
theorem Reach.of_guarded {step : L → S → Option S} {ok : L → S → Prop}
    [∀ l s, Decidable (ok l s)] {ls : List L} {s t : S}
    (h : exec (guarded step ok) ls s = some t) : Reach step ok s t := by
  induction ls generalizing s with
  | nil =>
      obtain rfl := Option.some.inj h
      exact .start
  | cons l ls ih =>
      obtain ⟨u, hu, hrest⟩ := Option.bind_eq_some_iff.mp h
      unfold guarded at hu
      split at hu
      · rename_i hok
        exact (Reach.next .start hok hu).trans (ih hrest)
      · cases hu

/-- What holds at every place of a list holds at the end of each of its prefixes. -/
theorem forall_snoc_prefix (ok : List L → L → Prop) {ls : List L}
    (h : ∀ (k : ℕ) (hk : k < ls.length), ok (ls.take k) ls[k]) :
    ∀ front l, front ++ [l] <+: ls → ok front l := by
  rintro front l ⟨rest, rfl⟩
  have hplace := h front.length (by simp)
  simpa using hplace

/-- What holds of the empty run and, while it has held so far, is kept by a step
exactly under a condition on the step, holds all along a run exactly when every
step meets its condition. -/
theorem forall_prefix_iff {P : List L → Prop} {ok : List L → L → Prop} (h0 : P [])
    (hstep : ∀ front l, P front → (P (front ++ [l]) ↔ ok front l)) (ls : List L) :
    (∀ front, front <+: ls → P front) ↔ ∀ front l, front ++ [l] <+: ls → ok front l := by
  induction ls using List.reverseRecOn with
  | nil =>
      constructor
      · intro _ front l h
        simp at h
      · intro _ front h
        rw [List.prefix_nil.mp h]
        exact h0
  | append_singleton ls k ih =>
      constructor
      · intro h front l hl
        rcases List.prefix_concat_iff.mp hl with heq | hl
        · obtain ⟨rfl, hlk⟩ := List.append_inj' heq rfl
          obtain rfl := List.singleton_inj.mp hlk
          exact (hstep front l (h front (List.prefix_append _ _))).mp (h _ (List.prefix_refl _))
        · exact ih.mp (fun front hfront => h front (hfront.trans (List.prefix_append _ _))) front l hl
      · intro h front hfront
        have hbefore := ih.mpr fun front l hl => h front l (hl.trans (List.prefix_append _ _))
        rcases List.prefix_concat_iff.mp hfront with rfl | hfront
        · exact (hstep ls k (hbefore ls (List.prefix_refl _))).mpr (h ls k (List.prefix_refl _))
        · exact hbefore front hfront

/-- The same of what is seen of a run, where an invariant stands behind it: it gives what is
seen, a step that meets the condition keeps it, and another step shows. -/
theorem forall_prefix_iff_of_invariant {P I : List L → Prop} {ok : List L → L → Prop} (h0 : I [])
    (hseen : ∀ front, I front → P front)
    (hkeep : ∀ front l, I front → ok front l → I (front ++ [l]))
    (hshow : ∀ front l, I front → P (front ++ [l]) → ok front l) (ls : List L) :
    (∀ front, front <+: ls → P front) ↔ ∀ front l, front ++ [l] <+: ls → ok front l := by
  have hiff : (∀ front, front <+: ls → I front) ↔ ∀ front l, front ++ [l] <+: ls → ok front l :=
    forall_prefix_iff h0 (fun front l h =>
      ⟨fun hnext => hshow front l h (hseen _ hnext), hkeep front l h⟩) ls
  refine ⟨fun hP => hiff.mp fun front => ?_, fun hok front hfront => hseen _ (hiff.mpr hok _ hfront)⟩
  induction front using List.reverseRecOn with
  | nil => exact fun _ => h0
  | append_singleton front l ih =>
      intro hfront
      have hbefore := ih ((List.prefix_append _ _).trans hfront)
      exact hkeep front l hbefore (hshow front l hbefore (hP _ hfront))

end Rtmap.Transition
