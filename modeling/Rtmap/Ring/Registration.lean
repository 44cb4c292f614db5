import Rtmap.Ring.Discovery

/-!
# Safety of registration

Registrations claim dead slots by compare-and-swap and new ones by a fetch-and-add
on the count, which those that find the table full take back. `registration_safe`
holds in every run, whichever of these accesses come between one another.
-/
namespace Rtmap.Ring.Discovery
open Transition

/-- The slot that the fetch-and-add of a registration gives out. -/
def freshSlot : Label → State → Option ℕ
  | .advance k, s =>
      match s.threads[k]? with
      | none => none
      | some r =>
          match r.stage with
          | .scan i =>
              if MAX_THREADS ≤ i ∧ s.threadCount < MAX_THREADS then some s.threadCount else none
          | _ => none
  | _, _ => none

/-- The slots allocated fresh in a run, in order. -/
def freshSlots : List Label → State → List ℕ
  | [], _ => []
  | l :: ls, s =>
      match step l s with
      | none => []
      | some t => (freshSlot l s).toList ++ freshSlots ls t

/-- Registrations that are over, whether or not their thread has exited. -/
def State.Quiet (s : State) : Prop := ∀ r ∈ s.threads, r.stage.Returned

/-- What one step does to the slots: a registration that is given none leaves them
as they are, and never turns back. -/
theorem slots_of_advance {s t : State} {k : ℕ} (hs : s.advance k = some t) :
    ∃ r r' : Registration, s.threads[k]? = some r ∧ t.threads = s.threads.set k r' ∧
      (r.stage.slot.isSome → r'.stage.slot = r.stage.slot) ∧
      (r'.stage.slot = none → t.slots = s.slots) := by
  unfold State.advance at hs
  split at hs
  · cases hs
  · rename_i r hk
    refine ⟨r, ?_⟩
    obtain ⟨tid, name, stage⟩ := r
    cases stage with
    | scan i =>
        dsimp only at hs
        split at hs
        · split at hs
          · obtain rfl := Option.some.inj hs
            exact ⟨_, hk, rfl, by simp [Stage.slot], by simp [Stage.slot]⟩
          · obtain rfl := Option.some.inj hs
            exact ⟨_, hk, rfl, by simp [Stage.slot], fun _ => rfl⟩
        · split at hs <;> obtain rfl := Option.some.inj hs <;>
            exact ⟨_, hk, rfl, by simp [Stage.slot], fun _ => rfl⟩
    | undo =>
        obtain rfl := Option.some.inj hs
        exact ⟨_, hk, rfl, by simp [Stage.slot], fun _ => rfl⟩
    | writeTid i | writeName i | publish i =>
        obtain rfl := Option.some.inj hs
        exact ⟨_, hk, rfl, by simp [Stage.slot], by simp [Stage.slot]⟩
    | done i | exited i | failed => cases hs

/-- Registration `k` has been given slot `i`. -/
def State.Given (s : State) (k i : ℕ) : Prop :=
  ∃ r, s.threads[k]? = some r ∧ r.stage.slot = some i

/-- A slot that a registration has been given stays its own. -/
theorem State.Given.keep {l : Label} {s t : State} {k i : ℕ} (h : s.Given k i)
    (hs : step l s = some t) : t.Given k i := by
  obtain ⟨x, hx, hi⟩ := h
  have hother {k' : ℕ} {r' : Registration} (hne : k' ≠ k) :
      ∃ y, (s.threads.set k' r')[k]? = some y ∧ y.stage.slot = some i :=
    ⟨x, by rw [List.getElem?_set_ne hne, hx], hi⟩
  cases l with
  | start tid name =>
      obtain rfl := Option.some.inj hs
      exact ⟨x, by
        rw [List.getElem?_append_left (List.getElem?_eq_some_iff.mp hx).choose, hx], hi⟩
  | advance k' =>
      obtain ⟨r, r', hk, hthreads, hslot, -⟩ := slots_of_advance hs
      rw [State.Given, hthreads]
      by_cases hne : k' = k
      · subst hne
        rw [hx] at hk
        obtain rfl := Option.some.inj hk
        exact ⟨r', getElem?_set_self_of_some hx, (hslot (by rw [hi]; rfl)).trans hi⟩
      · exact hother hne
  | die k' =>
      simp only [step, State.die] at hs
      split at hs
      · cases hs
      · rename_i r hk
        split at hs
        · rename_i j hstage
          obtain rfl := Option.some.inj hs
          by_cases hne : k' = k
          · subst hne
            rw [hx] at hk
            obtain rfl := Option.some.inj hk
            refine ⟨_, getElem?_set_self_of_some hx, ?_⟩
            rw [hstage] at hi
            exact hi
          · exact hother hne
        · cases hs
  | poll =>
      simp only [step] at hs
      split at hs
      · obtain rfl := Option.some.inj hs
        exact ⟨x, hx, hi⟩
      · cases hs
  | engine =>
      obtain ⟨hthreads, -⟩ := engine_frame hs
      rw [State.Given, hthreads]
      exact ⟨x, hx, hi⟩
  | retire j =>
      simp only [step] at hs
      split at hs
      · obtain rfl := Option.some.inj hs
        exact ⟨x, hx, hi⟩
      · cases hs

theorem State.Given.run {ls : List Label} {s t : State} {k i : ℕ} (h : s.Given k i)
    (hs : exec step ls s = some t) : t.Given k i := by
  induction ls generalizing s with
  | nil =>
      obtain rfl := Option.some.inj hs
      exact h
  | cons l ls ih =>
      obtain ⟨u, hu, hrest⟩ := Option.bind_eq_some_iff.mp hs
      exact ih (h.keep hu) hrest

/-- A registration that ends up without a slot has written to none on the way. -/
theorem slots_of_failed {rest : List Label} {s t u : State} {k : ℕ} {r : Registration}
    (hs : step (.advance k) s = some t) (hrest : exec step rest t = some u)
    (hk : u.threads[k]? = some r) (hr : r.stage = .failed) : t.slots = s.slots := by
  obtain ⟨x, x', hx, hthreads, -, hslots⟩ := slots_of_advance hs
  refine hslots ?_
  cases hslot : x'.stage.slot with
  | none => rfl
  | some i =>
      have hgiven : t.Given k i :=
        ⟨x', by rw [hthreads, getElem?_set_self_of_some hx], hslot⟩
      obtain ⟨y, hy, hi⟩ := hgiven.run hrest
      rw [hk] at hy
      obtain rfl := Option.some.inj hy
      rw [hr] at hi
      cases hi

/-- The fetch-and-add gives out the next slot, and nothing else moves the mark. -/
theorem freshSlot_step {l : Label} {s t : State} (h : Registered s) (hs : step l s = some t) :
    List.range (min s.threadCount MAX_THREADS) ++ (freshSlot l s).toList =
      List.range (min t.threadCount MAX_THREADS) := by
  have hsame (hfresh : freshSlot l s = none)
      (hcount : min t.threadCount MAX_THREADS = min s.threadCount MAX_THREADS) :
      List.range (min s.threadCount MAX_THREADS) ++ (freshSlot l s).toList =
        List.range (min t.threadCount MAX_THREADS) := by
    rw [hfresh, hcount, Option.toList_none, List.append_nil]
  cases l with
  | start tid name =>
      obtain rfl := Option.some.inj hs
      exact hsame rfl rfl
  | advance k =>
      simp only [step, State.advance] at hs
      split at hs
      · cases hs
      · rename_i r hk
        have hundo := h.counted.undo hk
        obtain ⟨tid, name, stage⟩ := r
        cases stage with
        | scan i =>
            dsimp only at hs
            split at hs
            · have hfresh : freshSlot (.advance k) s = none := by
                simp only [freshSlot, hk]
                rw [if_neg (by omega)]
              split at hs <;> obtain rfl := Option.some.inj hs <;> exact hsame hfresh rfl
            · split at hs
              · obtain rfl := Option.some.inj hs
                refine hsame ?_ ?_
                · simp only [freshSlot, hk]
                  rw [if_neg (by omega)]
                · simp only [State.setStage]
                  omega
              · obtain rfl := Option.some.inj hs
                have hfresh : freshSlot (.advance k) s = some s.threadCount := by
                  simp only [freshSlot, hk]
                  rw [if_pos (by omega)]
                rw [hfresh, Option.toList_some, Nat.min_eq_left (by omega), ← List.range_succ]
                exact congrArg List.range (Nat.min_eq_left (by omega)).symm
        | undo =>
            have hfull := hundo rfl
            obtain rfl := Option.some.inj hs
            refine hsame ?_ ?_
            · simp only [freshSlot, hk]
            · simp only [State.setStage]
              omega
        | writeTid i | writeName i | publish i =>
            obtain rfl := Option.some.inj hs
            refine hsame ?_ rfl
            simp only [freshSlot, hk]
        | done i | exited i | failed => cases hs
  | die k =>
      simp only [step, State.die] at hs
      split at hs
      · cases hs
      · split at hs
        · obtain rfl := Option.some.inj hs
          exact hsame rfl rfl
        · cases hs
  | poll =>
      simp only [step] at hs
      split at hs
      · obtain rfl := Option.some.inj hs
        exact hsame rfl rfl
      · cases hs
  | engine =>
      obtain ⟨-, -, hcount⟩ := engine_frame hs
      exact hsame rfl (by rw [hcount])
  | retire j =>
      simp only [step] at hs
      split at hs
      · obtain rfl := Option.some.inj hs
        exact hsame rfl rfl
      · cases hs

theorem freshSlots_exec {ls : List Label} {s t : State} (h : Registered s)
    (hs : exec step ls s = some t) :
    Registered t ∧ List.range (min s.threadCount MAX_THREADS) ++ freshSlots ls s =
      List.range (min t.threadCount MAX_THREADS) := by
  induction ls generalizing s with
  | nil =>
      obtain rfl := Option.some.inj hs
      exact ⟨h, List.append_nil _⟩
  | cons l ls ih =>
      obtain ⟨u, hu, hrest⟩ := Option.bind_eq_some_iff.mp hs
      obtain ⟨ht, hslots⟩ := ih (h.step hu) hrest
      refine ⟨ht, ?_⟩
      simp only [freshSlots, hu]
      rw [← List.append_assoc, freshSlot_step h hu, hslots]

theorem Counted.of_quiet {s : State} (h : Counted s) (hquiet : s.Quiet) :
    s.threadCount ≤ MAX_THREADS := by
  have hzero : s.threads.countP (·.stage == .undo) = 0 := by
    rw [List.countP_eq_zero]
    intro r hr hundo
    have hreturned := hquiet r hr
    rw [beq_iff_eq.mp hundo] at hreturned
    cases hreturned
  rcases h with ⟨-, hlt⟩ | heq <;> omega

/-- In every run, no two threads own one slot between the access that gives it to
them and the exit of the thread; no access of a registration that fails changes a
slot; and when no registration is under way the count is that of the slots given
out fresh, of which there are at most `MAX_THREADS`. -/
theorem registration_safe {ls : List Label} {s : State} (h : exec step ls .init = some s) :
    (∀ (k k' : ℕ) (r r' : Registration) (i : ℕ), s.threads[k]? = some r →
      s.threads[k']? = some r' → r.stage.holds = some i → r'.stage.holds = some i → k = k') ∧
    (∀ (front rest : List Label) (k : ℕ) (u v : State) (r : Registration),
      ls = front ++ .advance k :: rest → exec step front .init = some u →
      step (.advance k) u = some v → s.threads[k]? = some r → r.stage = .failed →
        v.slots = u.slots) ∧
    (s.Quiet → s.threadCount = (freshSlots ls .init).length ∧
      (freshSlots ls .init).Nodup ∧ s.threadCount ≤ MAX_THREADS) := by
  obtain ⟨hreg, hfresh⟩ := freshSlots_exec Registered.init h
  refine ⟨hreg.table.unique, ?_, fun hquiet => ?_⟩
  · rintro front rest k u v r rfl hu hv hk hr
    rw [exec_append, hu] at h
    obtain ⟨w, hw, hrest⟩ := Option.bind_eq_some_iff.mp (Option.bind_some _ _ ▸ h)
    rw [hv] at hw
    obtain rfl := Option.some.inj hw
    exact slots_of_failed hv hrest hk hr
  · have hmax := hreg.counted.of_quiet hquiet
    have hrange : freshSlots ls .init = List.range s.threadCount := by
      simpa [State.init, Nat.min_eq_left hmax] using hfresh
    rw [hrange, List.length_range]
    exact ⟨rfl, List.nodup_range, hmax⟩

theorem first_registration_is_counted :
    ∃ s, exec step registerFirst .init = some s ∧ s.threads.map Registration.stage = [.done 0] ∧
      s.threadCount = (freshSlots registerFirst .init).length ∧
      (freshSlots registerFirst .init).Nodup ∧ s.threadCount ≤ MAX_THREADS := by
  have hrun : (exec step registerFirst .init).any (fun s =>
      s.threads.map Registration.stage = [.done 0]) = true := by
    decide +kernel
  obtain ⟨s, hs, hfacts⟩ := (Option.any_eq_true _ _).mp hrun
  have hstages := of_decide_eq_true hfacts
  refine ⟨s, hs, hstages, (registration_safe hs).2.2 fun r hr => ?_⟩
  have hmem := List.mem_map_of_mem (f := Registration.stage) hr
  rw [hstages, List.mem_singleton] at hmem
  rw [hmem]
  trivial

end Rtmap.Ring.Discovery
