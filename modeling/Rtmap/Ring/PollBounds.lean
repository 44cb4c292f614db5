import Rtmap.Ring.Registration

/-!
# Bounds of a poll

A registration that finds the table full takes its count back, but for a moment
the count is above the size of the table. A poll that loads it then looks for a
slot that is not there. `Overfull` says what such a poll has before it.
-/
namespace Rtmap.Ring.Discovery
open Transition

/-- A poll under way with a count above the table's size, or its end. -/
def Poll.Overfull : Poll → Prop
  | .idle => False
  | .fresh count | .discover count _ _ => MAX_THREADS < count
  | .rescan count i => MAX_THREADS < count ∧ i ≤ MAX_THREADS
  | .recheck count i _ => MAX_THREADS < count ∧ i < MAX_THREADS
  | .crashed => True

/-- The first loop has passed slots of the table only. -/
def State.KnownInTable (s : State) : Prop := s.knownCount ≤ MAX_THREADS

/-- Some registration has found the table full and not yet taken its count back. -/
def State.Overflowing (s : State) : Prop := ∃ r ∈ s.threads, r.stage = .undo

theorem Counted.overflowing_iff {s : State} (h : Counted s) :
    s.Overflowing ↔ MAX_THREADS < s.threadCount := by
  constructor
  · rintro ⟨r, hr, hundo⟩
    obtain ⟨k, hk⟩ := List.mem_iff_getElem?.mp hr
    exact h.undo hk hundo
  · intro hlt
    have hpos : 0 < s.threads.countP (·.stage == .undo) := by
      rcases h with ⟨-, hle⟩ | heq <;> omega
    obtain ⟨r, hr, hundo⟩ := List.countP_pos_iff.mp hpos
    exact ⟨r, hr, beq_iff_eq.mp hundo⟩

section Step
variable {s t : State} {l : Label}

/-- Only a poll's own steps and its start touch what the engine keeps of the table. -/
theorem engine_of_other (hs : step l s = some t) (hpoll : l ≠ .poll) (hengine : l ≠ .engine) :
    t.poll = s.poll ∧ t.knownCount = s.knownCount := by
  cases l with
  | start tid name =>
      obtain rfl := Option.some.inj hs
      exact ⟨rfl, rfl⟩
  | advance k =>
      simp only [step, State.advance] at hs
      grind [State.setStage, State.setSlot]
  | die k =>
      simp only [step, State.die] at hs
      grind [State.setStage, State.setSlot]
  | poll => exact absurd rfl hpoll
  | engine => exact absurd rfl hengine
  | retire j =>
      simp only [step] at hs
      split at hs
      · obtain rfl := Option.some.inj hs
        exact ⟨rfl, rfl⟩
      · cases hs

theorem poll_eq (hs : step .poll s = some t) :
    s.poll = .idle ∧ t = { s with poll := .fresh s.threadCount } := by
  simp only [step] at hs
  split at hs
  · rename_i hidle
    exact ⟨hidle, (Option.some.inj hs).symm⟩
  · cases hs

theorem State.KnownInTable.step (h : s.KnownInTable) (hs : Discovery.step l s = some t) : t.KnownInTable := by
  unfold State.KnownInTable at h ⊢
  by_cases hpoll : l = .poll
  · subst hpoll
    obtain ⟨-, rfl⟩ := poll_eq hs
    exact h
  · by_cases hengine : l = .engine
    · subst hengine
      simp only [Discovery.step, State.engine] at hs
      grind
    · rw [(engine_of_other hs hpoll hengine).2]
      exact h

/-- A poll in bounds stays there. -/
theorem inRange_engine (h : s.Polling) (hs : s.engine = some t) : t.Polling := by
  by_cases hidle : s.poll = .idle
  · simp [State.engine, hidle] at hs
  · obtain ⟨l, u, rfl, hu, hpolling, -⟩ := h.engine hidle
    rw [show s.engine = step .engine s from rfl, hu] at hs
    exact Option.some.inj hs ▸ hpolling

/-- A poll that loaded too high a count goes on, or has crashed. -/
theorem Poll.Overfull.engine (h : s.poll.Overfull) (hknown : s.KnownInTable) (hs : s.engine = some t) :
    t.poll.Overfull := by
  unfold State.KnownInTable at hknown
  unfold State.engine at hs
  cases hpoll : s.poll with
  | idle => simp [hpoll] at hs
  | crashed => simp [hpoll] at hs
  | fresh count =>
      simp only [hpoll, Poll.Overfull] at h hs
      rw [if_pos (by omega)] at hs
      split at hs
      · obtain rfl := Option.some.inj hs
        trivial
      · split at hs <;> obtain rfl := Option.some.inj hs
        · exact ⟨h, by simp⟩
        · simpa [hpoll, Poll.Overfull] using h
        · exact h
  | discover count i state =>
      simp only [hpoll, Poll.Overfull] at h hs
      obtain rfl := Option.some.inj hs
      exact h
  | rescan count i =>
      simp only [hpoll, Poll.Overfull] at h hs
      rw [if_pos (by omega)] at hs
      split at hs
      · obtain rfl := Option.some.inj hs
        trivial
      · obtain rfl := Option.some.inj hs
        exact ⟨h.1, by omega⟩
  | recheck count i state =>
      simp only [hpoll, Poll.Overfull] at h hs
      obtain rfl := Option.some.inj hs
      exact ⟨h.1, h.2⟩

theorem Poll.Overfull.step (h : s.poll.Overfull) (hknown : s.KnownInTable)
    (hs : Discovery.step l s = some t) :
    t.poll.Overfull := by
  by_cases hpoll : l = .poll
  · subst hpoll
    obtain ⟨hidle, -⟩ := poll_eq hs
    rw [hidle] at h
    exact h.elim
  · by_cases hengine : l = .engine
    · subst hengine
      exact h.engine hknown hs
    · rw [(engine_of_other hs hpoll hengine).1]
      exact h

end Step

/-- The accesses that a poll can still make before the end of the table. -/
def State.ahead (s : State) : ℕ :=
  match s.poll with
  | .idle | .crashed => 0
  | .fresh _ => 2 * (MAX_THREADS - s.knownCount) + 2 * MAX_THREADS + 3
  | .discover _ _ _ => 2 * (MAX_THREADS - s.knownCount) + 2 * MAX_THREADS + 4
  | .rescan _ i => 2 * (MAX_THREADS - i) + 2
  | .recheck _ i _ => 2 * (MAX_THREADS - i) + 1

/-- Such a poll always has a next access, nearer to the end of the table. -/
theorem Poll.Overfull.next {s : State} (h : s.poll.Overfull) (hbusy : s.poll ≠ .crashed) :
    ∃ t, s.engine = some t ∧ t.ahead < s.ahead := by
  cases hpoll : s.poll with
  | idle =>
      rw [hpoll] at h
      exact h.elim
  | crashed => exact absurd hpoll hbusy
  | fresh count =>
      simp only [State.engine, hpoll]
      split
      · split
        · exact ⟨_, rfl, by simp only [State.ahead, hpoll]; omega⟩
        · split <;> exact ⟨_, rfl, by simp only [State.ahead, hpoll]; omega⟩
      · exact ⟨_, rfl, by simp only [State.ahead, hpoll]; omega⟩
  | discover count i state =>
      simp only [State.engine, hpoll]
      exact ⟨_, rfl, by simp only [State.ahead, hpoll]; omega⟩
  | rescan count i =>
      simp only [hpoll, Poll.Overfull] at h
      simp only [State.engine, hpoll]
      rw [if_pos (by omega)]
      split
      · exact ⟨_, rfl, by simp only [State.ahead, hpoll]; omega⟩
      · exact ⟨_, rfl, by simp only [State.ahead, hpoll]; omega⟩
  | recheck count i state =>
      simp only [hpoll, Poll.Overfull] at h
      simp only [State.engine, hpoll]
      exact ⟨_, rfl, by simp only [State.ahead, hpoll]; omega⟩

theorem Poll.Overfull.crashes {s : State} (h : s.poll.Overfull) (hknown : s.KnownInTable) :
    ∃ n t, exec Discovery.step (List.replicate n .engine) s = some t ∧ t.poll = .crashed := by
  induction hn : s.ahead using Nat.strongRecOn generalizing s with
  | _ n ih =>
      by_cases hcrash : s.poll = .crashed
      · exact ⟨0, s, rfl, hcrash⟩
      · obtain ⟨t, ht, hless⟩ := h.next hcrash
        have ht' : Discovery.step .engine s = some t := ht
        obtain ⟨k, u, hu, hend⟩ :=
          ih t.ahead (hn ▸ hless) (h.engine hknown ht) (hknown.step ht') rfl
        refine ⟨k + 1, u, ?_, hend⟩
        rw [List.replicate_succ, exec, ht']
        exact hu

/-- Ring names that differ by thread. -/
def numbered (k : ℕ) : ShmName :=
  ⟨[UInt8.ofNat (k / 255 + 1), UInt8.ofNat (k % 255 + 1)], by simp, by simp [RING_NAME_LEN]⟩

/-- Thread `k` starts to register, and its scan of the table finds no dead slot. -/
def scanning (k : ℕ) : List Label :=
  .start (UInt16.ofNat k) (numbered k) :: List.replicate MAX_THREADS (.advance k)

/-- The registration of thread `k` in a new slot. -/
def registering (k : ℕ) : List Label := scanning k ++ List.replicate 4 (.advance k)

/-- The first `n` threads register, one after the other. -/
def registeringAll : ℕ → List Label
  | 0 => []
  | n + 1 => registeringAll n ++ registering n

/-- Threads for every slot; one more, which has raised the count; and a poll. -/
def overfullPoll : List Label :=
  registeringAll MAX_THREADS ++ (scanning MAX_THREADS ++ [.advance MAX_THREADS, .poll])

section Registering
variable {s : State} {k : ℕ}

theorem exec_scan {r : Registration} {n i : ℕ} (hk : s.threads[k]? = some r)
    (hstage : r.stage = .scan i) (halive : ∀ j, (s.slots j).state ≠ .dead)
    (hn : i + n ≤ MAX_THREADS) :
    exec step (List.replicate n (.advance k)) s =
      some { s with threads := s.threads.set k { r with stage := .scan (i + n) } } := by
  induction n generalizing s r i with
  | zero =>
      have hsame : s.threads.set k { r with stage := .scan i } = s.threads := by
        rw [← hstage]
        obtain ⟨hlt, rfl⟩ := List.getElem?_eq_some_iff.mp hk
        exact List.set_getElem_self hlt
      simp [exec, hsame]
  | succ n ih =>
      have hstep : step (.advance k) s = some (s.setStage k r (.scan (i + 1))) := by
        simp only [step, State.advance, hk, hstage]
        rw [if_pos (by omega), if_neg (halive i)]
      have hnext := ih (s := s.setStage k r (.scan (i + 1))) (i := i + 1)
        (getElem?_set_self_of_some hk) rfl halive (by omega)
      rw [List.replicate_succ, exec, hstep, Option.bind_some, hnext]
      simp [State.setStage, Nat.add_assoc, Nat.add_comm 1]

/-- A registration that scans a table without dead slots comes to the fetch-and-add. -/
theorem exec_scanning (halive : ∀ j, (s.slots j).state ≠ .dead) (hk : k = s.threads.length) :
    exec step (scanning k) s = some { s with
      threads := s.threads ++ [⟨UInt16.ofNat k, numbered k, .scan MAX_THREADS⟩] } := by
  subst hk
  have hscan := exec_scan
    (s := { s with threads := s.threads ++ [⟨UInt16.ofNat s.threads.length,
      numbered s.threads.length, .scan 0⟩] }) (k := s.threads.length) (i := 0) (n := MAX_THREADS)
    (r := ⟨UInt16.ofNat s.threads.length, numbered s.threads.length, .scan 0⟩)
    (by simp) rfl halive (by omega)
  rw [scanning, exec, step, Option.bind_some, hscan]
  simp

theorem exec_registering (halive : ∀ j, (s.slots j).state ≠ .dead) (hk : k = s.threads.length)
    (hroom : s.threadCount < MAX_THREADS) :
    ∃ t, exec step (registering k) s = some t ∧ t.threads.length = s.threads.length + 1 ∧
      t.threadCount = s.threadCount + 1 ∧ t.poll = s.poll ∧
      ∀ j, (t.slots j).state ≠ .dead := by
  rw [registering, exec_append, exec_scanning halive hk, Option.bind_some]
  subst hk
  have hnot : ¬MAX_THREADS ≤ s.threadCount := by omega
  simp only [List.replicate, exec, step, State.advance, State.setStage, State.setSlot]
  simp [hnot]
  intro j
  by_cases hj : j = s.threadCount
  · simp [hj]
  · rw [Function.update_of_ne hj]
    exact halive j

theorem exec_registeringAll {n : ℕ} (hn : n ≤ MAX_THREADS) :
    ∃ t, exec step (registeringAll n) .init = some t ∧ t.threads.length = n ∧
      t.threadCount = n ∧ t.poll = .idle ∧ ∀ j, (t.slots j).state ≠ .dead := by
  induction n with
  | zero => exact ⟨.init, rfl, rfl, rfl, rfl, by simp [State.init]⟩
  | succ n ih =>
      obtain ⟨t, ht, hlen, hcount, hidle, halive⟩ := ih (Nat.le_of_succ_le hn)
      obtain ⟨u, hu, hlen', hcount', hidle', halive'⟩ :=
        exec_registering halive hlen.symm (hcount ▸ hn)
      refine ⟨u, ?_, hlen'.trans (congrArg (· + 1) hlen), hcount'.trans (congrArg (· + 1) hcount),
        hidle'.trans hidle, halive'⟩
      rw [registeringAll, exec_append, ht, Option.bind_some, hu]

end Registering

section Runs
variable {ls : List Label} {s t : State}

theorem registered_of_exec (h : exec step ls .init = some s) : Registered s ∧ s.KnownInTable :=
  exec_invariant (I := fun v => Registered v ∧ v.KnownInTable) h
    ⟨.init, Nat.zero_le _⟩ fun _ _ _ hu hs => ⟨hu.1.step hs, hu.2.step hs⟩

/-- Polls that all loaded a count in range are in bounds. -/
theorem polling_of_exec (h : exec step ls .init = some s)
    (hpolls : ∀ front rest u, ls = front ++ .poll :: rest → exec step front .init = some u →
      ¬u.Overflowing) : s.Polling := by
  induction ls using List.reverseRecOn generalizing s with
  | nil =>
      obtain rfl := Option.some.inj h
      exact ⟨trivial, by simp [State.init]⟩
  | append_singleton ls l ih =>
      obtain ⟨u, hu, hw⟩ := exec_snoc_iff.mp h
      have hbefore : u.Polling := ih hu fun front rest v hls hv =>
        hpolls front (rest ++ [l]) v (by rw [hls]; simp) hv
      by_cases hpoll : l = .poll
      · subst hpoll
        obtain ⟨-, rfl⟩ := poll_eq hw
        have hcount := (registered_of_exec hu).1.counted.overflowing_iff
        have hlow := hpolls ls [] u rfl hu
        rw [hcount] at hlow
        exact ⟨Nat.le_of_not_lt hlow, by simp⟩
      · by_cases hengine : l = .engine
        · subst hengine
          exact inRange_engine hbefore hw
        · unfold State.Polling
          rw [(engine_of_other hw hpoll hengine).1]
          exact hbefore

/-- In every run, with the poll under way taken to its end, the polls stay within the
table and pass no more than its slots exactly when none of them starts while a
registration that found the table full has not yet taken its count back. -/
theorem polls_in_bounds_iff (h : exec step ls .init = some s) :
    (∀ n t, exec step (List.replicate n .engine) s = some t →
      t.poll ≠ .crashed ∧ t.knownCount ≤ MAX_THREADS) ↔
    ∀ front rest u, ls = front ++ .poll :: rest → exec step front .init = some u →
      ¬u.Overflowing := by
  constructor
  · rintro hsafe front rest u rfl hu hover
    rw [exec_append, hu, Option.bind_some] at h
    obtain ⟨v, hv, hs⟩ := Option.bind_eq_some_iff.mp h
    obtain ⟨hreg, hknown⟩ := registered_of_exec hu
    obtain ⟨-, rfl⟩ := poll_eq hv
    have hfull : MAX_THREADS < u.threadCount := hreg.counted.overflowing_iff.mp hover
    obtain ⟨hend, hknown'⟩ := exec_invariant
      (I := fun w => w.poll.Overfull ∧ w.KnownInTable) hs ⟨hfull, hknown⟩
      fun _ _ _ hw hstep => ⟨hw.1.step hw.2 hstep, hw.2.step hstep⟩
    obtain ⟨n, t, ht, hcrash⟩ := hend.crashes hknown'
    exact (hsafe n t ht).1 hcrash
  · intro hpolls n t ht
    have hrun : exec step (ls ++ List.replicate n .engine) .init = some t := by
      rw [exec_append, h, Option.bind_some]
      exact ht
    refine ⟨fun hcrash => ?_, (registered_of_exec hrun).2⟩
    have hnone : Label.poll ∉ List.replicate n Label.engine := by
      intro hmem
      cases List.eq_of_mem_replicate hmem
    have hpolling : t.Polling := by
      refine polling_of_exec hrun fun front rest u hsplit hu => ?_
      obtain ⟨mid, hls⟩ := exists_split_of_notMem hsplit hnone
      exact hpolls front mid u hls hu
    simp [State.Polling, hcrash, Poll.InRange] at hpolling

end Runs

theorem first_poll_in_bounds : ∃ s, exec step (registerFirst ++ [.poll]) .init = some s ∧
    s.poll = .fresh 1 ∧ ∀ n t, exec step (List.replicate n .engine) s = some t →
      t.poll ≠ .crashed ∧ t.knownCount ≤ MAX_THREADS := by
  have hrun : (exec step registerFirst .init).any (fun s =>
      s.threads.map Registration.stage = [.done 0] && s.poll = .idle && s.threadCount = 1) =
        true := by
    decide +kernel
  obtain ⟨u, hu, hfacts⟩ := (Option.any_eq_true _ _).mp hrun
  simp only [Bool.and_eq_true, decide_eq_true_eq] at hfacts
  obtain ⟨⟨hstages, hidle⟩, hcount⟩ := hfacts
  have hpoll : exec step (registerFirst ++ [.poll]) .init =
      some { u with poll := .fresh u.threadCount } := by
    rw [exec_append, hu]
    simp only [Option.bind_some, exec, step, hidle]
  refine ⟨_, hpoll, by rw [hcount], (polls_in_bounds_iff hpoll).mpr ?_⟩
  intro front rest v hsplit hv
  have hnone : Label.poll ∉ registerFirst := by
    intro hmem
    rcases List.mem_cons.mp hmem with heq | hmem
    · cases heq
    · cases List.eq_of_mem_replicate hmem
  have hfront : front = registerFirst := by
    rcases List.append_eq_append_iff.mp hsplit with ⟨mid, hfront, hmid⟩ | ⟨mid, hfront, hmid⟩
    · cases mid with
      | nil => simpa using hfront
      | cons l mid => simp at hmid
    · cases mid with
      | nil => simpa using hfront.symm
      | cons l mid =>
          obtain ⟨rfl, -⟩ := List.cons.inj hmid
          exact absurd (by rw [hfront]; simp) hnone
  rw [hfront, hu] at hv
  obtain rfl := Option.some.inj hv
  rintro ⟨r, hr, hundo⟩
  have hmem := List.mem_map_of_mem (f := Registration.stage) hr
  rw [hstages, List.mem_singleton, hundo] at hmem
  cases hmem

theorem overfull_poll_crashes : ∃ n s,
    exec step (overfullPoll ++ List.replicate n .engine) .init = some s ∧ s.poll = .crashed := by
  obtain ⟨t, ht, hlen, hcount, hidle, halive⟩ := exec_registeringAll (Nat.le_refl MAX_THREADS)
  have hover : ∃ u, exec step overfullPoll .init = some u ∧ u.poll.Overfull := by
    rw [overfullPoll, exec_append, ht, Option.bind_some, exec_append,
      exec_scanning halive hlen.symm, Option.bind_some]
    simp only [exec, step, State.advance, State.setStage, ← hlen]
    simp [hlen, hcount, hidle, Poll.Overfull]
  obtain ⟨u, hu, hfull⟩ := hover
  obtain ⟨n, s, hs, hcrash⟩ := hfull.crashes (registered_of_exec hu).2
  exact ⟨n, s, by rw [exec_append, hu]; exact hs, hcrash⟩

end Rtmap.Ring.Discovery
