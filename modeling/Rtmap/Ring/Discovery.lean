import Rtmap.Ring.Registry

/-!
# Discovery of thread rings

`final_poll_tracks` says that the first poll after all registrations opens every
ring, when no thread exits, and no slot is reclaimed, before a poll has had the
chance to see it. `Caught` accounts for threads that exited early, `Sweeping` for
the progress of that poll.
-/
namespace Rtmap.Ring.Discovery
open Transition

/-- A ring whose thread has exited before it was opened is still named by its dead
slot, and the first loop of a poll is yet to read it. -/
def Caught (s : State) : Prop :=
  ∀ r ∈ s.threads, ∀ i, r.stage = .exited i → s.Tracked r.name.bytes ∨
    (s.slots i).state = .dead ∧ (s.slots i).name = r.name.bytes ∧
      (s.knownCount ≤ i ∨ ∃ count state, s.poll = .discover count i state)

/-- Tracked rings stay tracked when the list of rings grows or their flags change. -/
theorem State.Tracked.of_map {s s' : State} {name : List UInt8} (h : s.Tracked name)
    (hrings : ∀ x ∈ s.rings, ∃ y ∈ s'.rings, y.name = x.name) : s'.Tracked name := by
  obtain ⟨x, hx, rfl⟩ := h
  exact hrings x hx

theorem exists_mem_markFirst {p : ThreadRing → Bool} {rings : List ThreadRing} {x : ThreadRing}
    (hx : x ∈ rings) : ∃ y ∈ markFirst p rings, y.name = x.name := by
  induction rings with
  | nil => cases hx
  | cons r rs ih =>
      unfold markFirst
      split
      · rcases List.mem_cons.mp hx with rfl | hx
        · exact ⟨_, List.mem_cons_self .., rfl⟩
        · exact ⟨x, List.mem_cons_of_mem _ hx, rfl⟩
      · rcases List.mem_cons.mp hx with rfl | hx
        · exact ⟨x, List.mem_cons_self .., rfl⟩
        · obtain ⟨y, hy, hname⟩ := ih hx
          exact ⟨y, List.mem_cons_of_mem _ hy, hname⟩

theorem mem_opened {s : State} {i : ℕ} {x : ThreadRing} (hx : x ∈ s.rings) : x ∈ s.opened i := by
  unfold State.opened
  split
  · exact hx
  · split
    · exact List.mem_append_left _ hx
    · exact hx

/-- Opening a slot that names a registered ring tracks it. -/
theorem exists_opened {s : State} {i : ℕ} {r : Registration} (hr : r ∈ s.threads)
    (hname : (s.slots i).name = r.name.bytes) : ∃ x ∈ s.opened i, x.name = r.name.bytes := by
  have hne : ¬(s.slots i).name = [] := by
    rw [hname]
    exact r.name.ne_nil
  have hopen : s.opens (s.slots i).name = true :=
    List.any_eq_true.mpr ⟨r, hr, by simp [hname]⟩
  unfold State.opened
  rw [if_neg hne, if_pos hopen]
  exact ⟨_, List.mem_append_right _ (List.mem_singleton_self _), hname⟩

section Rings
variable {s s' : State} {name : List UInt8}

/-- The engine never lets go of a ring. -/
theorem Tracked.engine (h : s.Tracked name) (hs : s.engine = some s') : s'.Tracked name := by
  unfold State.engine at hs
  split at hs
  · cases hs
  · cases hs
  · split at hs
    · split at hs
      · obtain rfl := Option.some.inj hs
        exact h
      · split at hs <;> obtain rfl := Option.some.inj hs <;> exact h
    · obtain rfl := Option.some.inj hs
      exact h
  · obtain rfl := Option.some.inj hs
    refine h.of_map fun x hx => ?_
    dsimp only
    split
    · exact exists_mem_markFirst (mem_opened hx)
    · exact ⟨x, mem_opened hx, rfl⟩
  · split at hs
    · split at hs <;> obtain rfl := Option.some.inj hs <;> exact h
    · obtain rfl := Option.some.inj hs
      exact h
  · obtain rfl := Option.some.inj hs
    refine h.of_map fun x hx => ?_
    dsimp only
    split
    · exact exists_mem_markFirst hx
    · split
      · exact ⟨x, hx, rfl⟩
      · exact ⟨x, mem_opened hx, rfl⟩
    · exact ⟨x, hx, rfl⟩
    · exact ⟨x, hx, rfl⟩

theorem Tracked.retire (h : s.Tracked name) {j : ℕ} (hrings : s'.rings =
    s.rings.modify j fun r => { r with alive := false }) : s'.Tracked name := by
  refine h.of_map fun x hx => ?_
  obtain ⟨k, hk⟩ := List.mem_iff_getElem?.mp hx
  rw [hrings]
  by_cases hjk : j = k
  · exact ⟨{ x with alive := false }, List.mem_iff_getElem?.mpr ⟨k, by simp [hjk, hk]⟩, rfl⟩
  · exact ⟨x, List.mem_iff_getElem?.mpr ⟨k, by simp [hjk, hk]⟩, rfl⟩

end Rings

namespace Caught
variable {s s' : State} {k : ℕ} {r r' : Registration}

/-- A registration moves on; a dead slot is written to once its ring is tracked. -/
theorem move (h : Caught s) (hthreads : s'.threads = s.threads.set k r')
    (hslots : ∀ j, s'.slots j = s.slots j ∨
      ((s.slots j).state = .dead → s.Tracked (s.slots j).name))
    (hengine : s'.rings = s.rings ∧ s'.knownCount = s.knownCount ∧ s'.poll = s.poll)
    (hr' : ∀ i, r'.stage = .exited i → s'.Tracked r'.name.bytes ∨
      (s'.slots i).state = .dead ∧ (s'.slots i).name = r'.name.bytes ∧ s'.knownCount ≤ i) :
    Caught s' := by
  obtain ⟨hrings, hknown, hpoll⟩ := hengine
  have htracked {name : List UInt8} (ht : s.Tracked name) : s'.Tracked name := by
    rw [State.Tracked, hrings]
    exact ht
  intro x hx i hi
  rw [hthreads] at hx
  rcases mem_set_cases hx with rfl | ⟨k', -, hk'⟩
  · rcases hr' i hi with ht | ⟨hdead, hname, hle⟩
    · exact .inl ht
    · exact .inr ⟨hdead, hname, .inl hle⟩
  · rcases h x (List.mem_of_getElem? hk') i hi with ht | ⟨hdead, hname, hlater⟩
    · exact .inl (htracked ht)
    · rcases hslots i with hsame | hsafe
      · rw [hsame, hknown, hpoll]
        exact .inr ⟨hdead, hname, hlater⟩
      · rw [← hname]
        exact .inl (htracked (hsafe hdead))

theorem advance (h : Caught s) (ht : Table s) (hok : Watched (.advance k) s)
    (hs : s.advance k = some s') : Caught s' := by
  unfold State.advance at hs
  split at hs
  · cases hs
  · rename_i r hk
    have hfits := ht.fits r (List.mem_of_getElem? hk)
    obtain ⟨tid, name, stage⟩ := r
    -- writing to an owned slot, which is not dead
    have howned {i : ℕ} {e : Entry} (hi : stage.holds = some i) (j : ℕ) :
        Function.update s.slots i e j = s.slots j ∨
          ((s.slots j).state = .dead → s.Tracked (s.slots j).name) := by
      by_cases hj : j = i
      · subst hj
        exact .inr fun hdead => absurd hdead (hfits.not_dead hi)
      · exact .inl (Function.update_of_ne hj ..)
    cases stage with
    | scan i =>
        dsimp only at hs
        split at hs
        · split at hs
          · rename_i hdead
            obtain rfl := Option.some.inj hs
            refine h.move rfl (fun j => ?_) ⟨rfl, rfl, rfl⟩ (by simp)
            by_cases hj : j = i
            · subst hj
              exact .inr fun _ => hok _ j hk rfl hdead
            · exact .inl (Function.update_of_ne hj ..)
          · obtain rfl := Option.some.inj hs
            exact h.move rfl (fun _ => .inl rfl) ⟨rfl, rfl, rfl⟩ (by simp)
        · split at hs <;> obtain rfl := Option.some.inj hs <;>
            exact h.move rfl (fun _ => .inl rfl) ⟨rfl, rfl, rfl⟩ (by simp)
    | undo =>
        obtain rfl := Option.some.inj hs
        exact h.move rfl (fun _ => .inl rfl) ⟨rfl, rfl, rfl⟩ (by simp)
    | writeTid i | writeName i | publish i =>
        obtain rfl := Option.some.inj hs
        exact h.move rfl (howned rfl) ⟨rfl, rfl, rfl⟩ (by simp)
    | done i | exited i | failed => cases hs

theorem die (h : Caught s) (ht : Table s) (hok : Watched (.die k) s)
    (hs : s.die k = some s') : Caught s' := by
  unfold State.die at hs
  split at hs
  · cases hs
  · rename_i r hk
    have hfits := ht.fits r (List.mem_of_getElem? hk)
    split at hs
    · rename_i i hstage
      obtain rfl := Option.some.inj hs
      simp only [Registration.Fits, hstage] at hfits
      refine h.move rfl (fun j => ?_) ⟨rfl, rfl, rfl⟩ fun j hj => ?_
      · by_cases hj : j = i
        · subst hj
          refine .inr fun hdead => ?_
          rw [hfits.1] at hdead
          cases hdead
        · exact .inl (Function.update_of_ne hj ..)
      · obtain rfl : i = j := by simpa using hj
        rcases hok r i hk hstage with htracked | hle
        · exact .inl htracked
        · exact .inr ⟨by simp [State.setStage, State.setSlot],
            by simpa [State.setStage, State.setSlot] using hfits.2, hle⟩
    · cases hs

/-- A step of a poll reads a dead slot's ring, or leaves it for later. -/
theorem engine (h : Caught s) (hs : s.engine = some s') : Caught s' := by
  intro x hx i hi
  have hframe : s'.threads = s.threads ∧ s'.slots = s.slots := by
    unfold State.engine at hs
    grind
  rw [hframe.1] at hx
  rw [hframe.2]
  rcases h x hx i hi with ht | ⟨hdead, hname, hlater⟩
  · exact .inl (Tracked.engine ht hs)
  · unfold State.engine at hs
    split at hs
    · cases hs
    · cases hs
    · rename_i count hpoll
      have hle : s.knownCount ≤ i := by simpa [hpoll] using hlater
      split at hs
      · split at hs
        · obtain rfl := Option.some.inj hs
          exact .inr ⟨hdead, hname, .inl hle⟩
        · split at hs
          · obtain rfl := Option.some.inj hs
            exact .inr ⟨hdead, hname, .inl hle⟩
          · rename_i hempty
            obtain rfl := Option.some.inj hs
            refine .inr ⟨hdead, hname, .inl (Nat.succ_le_of_lt (Nat.lt_of_le_of_ne hle ?_))⟩
            rintro rfl
            rw [hdead] at hempty
            cases hempty
          · obtain rfl := Option.some.inj hs
            refine .inr ⟨hdead, hname, ?_⟩
            rcases Nat.lt_or_eq_of_le hle with hlt | rfl
            · exact .inl hlt
            · exact .inr ⟨_, _, rfl⟩
      · obtain rfl := Option.some.inj hs
        exact .inr ⟨hdead, hname, .inl hle⟩
    · rename_i count j state hpoll
      obtain rfl := Option.some.inj hs
      rcases hlater with hle | ⟨count', state', hdiscover⟩
      · exact .inr ⟨hdead, hname, .inl hle⟩
      · obtain ⟨-, rfl, -⟩ : count = count' ∧ j = i ∧ state = state' := by
          simpa [hpoll] using hdiscover
        obtain ⟨y, hy, hyname⟩ := exists_opened hx hname
        refine .inl ?_
        simp only [State.Tracked]
        split
        · obtain ⟨z, hz, hzname⟩ := exists_mem_markFirst (p := fun r => r.tid == (s.slots j).tid) hy
          exact ⟨z, hz, hzname.trans hyname⟩
        · exact ⟨y, hy, hyname⟩
    · rename_i count j hpoll
      have hle : s.knownCount ≤ i := by simpa [hpoll] using hlater
      split at hs
      · split at hs <;> obtain rfl := Option.some.inj hs <;> exact .inr ⟨hdead, hname, .inl hle⟩
      · obtain rfl := Option.some.inj hs
        exact .inr ⟨hdead, hname, .inl hle⟩
    · rename_i count j state hpoll
      have hle : s.knownCount ≤ i := by simpa [hpoll] using hlater
      obtain rfl := Option.some.inj hs
      exact .inr ⟨hdead, hname, .inl hle⟩

end Caught

/-- The invariant of runs whose steps meet the condition. -/
structure Inv (s : State) : Prop extends Registered s where
  caught : Caught s

theorem inv_init : Inv .init where
  toRegistered := .init
  caught := by
    intro r hr
    cases hr

theorem inv_step {l : Label} {s s' : State} (h : Inv s) (hok : Watched l s)
    (hs : step l s = some s') : Inv s' := by
  obtain ⟨hreg, hx⟩ := h
  refine ⟨hreg.step hs, ?_⟩
  cases l with
  | start tid name =>
      obtain rfl := Option.some.inj hs
      intro r hr i hi
      rcases List.mem_append.mp hr with hr | hr
      · exact hx r hr i hi
      · obtain rfl := List.mem_singleton.mp hr
        cases hi
  | advance k => exact hx.advance hreg.table hok hs
  | die k => exact hx.die hreg.table hok hs
  | poll =>
      simp only [step] at hs
      split at hs
      · rename_i hidle
        obtain rfl := Option.some.inj hs
        intro r hr i hi
        rcases hx r hr i hi with htracked | ⟨hdead, hname, hlater⟩
        · exact .inl htracked
        · exact .inr ⟨hdead, hname, .inl (by simpa [hidle] using hlater)⟩
      · cases hs
  | engine => exact hx.engine hs
  | retire j =>
      simp only [step] at hs
      split at hs
      · obtain rfl := Option.some.inj hs
        intro r hr i hi
        rcases hx r hr i hi with htracked | hlater
        · exact .inl (Tracked.retire htracked rfl)
        · exact .inr hlater
      · cases hs

def Label.IsStart : Label → Prop
  | .start .. => True
  | _ => False

/-- What a poll has left to do for a registration that was given slot `i`. -/
def Poll.Covers (known : ℕ) (stage : Stage) (i : ℕ) : Poll → Prop
  | .idle | .crashed => False
  | .fresh count | .discover count _ _ => i < count
  | .rescan count j => count ≤ known ∧ stage = .done i ∧ j ≤ i ∧ i < count
  | .recheck count j state =>
      count ≤ known ∧ stage = .done i ∧ j ≤ i ∧ i < count ∧ (i = j → state = .active)

def Poll.InRange : Poll → Prop
  | .idle => True
  | .fresh count | .discover count _ _ | .rescan count _ | .recheck count _ _ =>
      count ≤ MAX_THREADS
  | .crashed => False

/-- A poll that began when every registration had returned: it has opened each ring
or is still to come to its slot. -/
structure Sweeping (s : State) : Prop where
  returned : ∀ r ∈ s.threads, r.stage.Returned
  inRange : s.poll.InRange
  covered : ∀ r ∈ s.threads, ∀ i, r.stage.slot = some i →
    s.Tracked r.name.bytes ∨ s.poll.Covers s.knownCount r.stage i

namespace Sweeping
variable {s s' : State} {k : ℕ}

theorem advance (h : Sweeping s) : s.advance k = none := by
  unfold State.advance
  split
  · rfl
  · rename_i r hk
    have hret := h.returned r (List.mem_of_getElem? hk)
    split <;> rename_i hstage <;> first | rfl | (rw [hstage] at hret; cases hret)

theorem die (h : Sweeping s) (hok : Watched (.die k) s) (hs : s.die k = some s') :
    Sweeping s' := by
  unfold State.die at hs
  split at hs
  · cases hs
  · rename_i r hk
    split at hs
    · rename_i i hstage
      obtain rfl := Option.some.inj hs
      refine ⟨fun x hx => ?_, h.inRange, fun x hx j hj => ?_⟩
      · rcases mem_set_cases hx with rfl | ⟨k', -, hk'⟩
        · trivial
        · exact h.returned x (List.mem_of_getElem? hk')
      · rcases mem_set_cases hx with rfl | ⟨k', -, hk'⟩
        · obtain rfl : i = j := by simpa [Stage.slot] using hj
          rcases h.covered r (List.mem_of_getElem? hk) i (by rw [hstage]; rfl) with ht | hc
          · exact .inl ht
          · rcases hok r i hk hstage with ht | hle
            · exact .inl ht
            · right
              simp only [State.setStage, State.setSlot]
              cases hpoll : s.poll with
              | idle | crashed => simp [hpoll, Poll.Covers] at hc
              | fresh count => simpa [hpoll, Poll.Covers] using hc
              | discover count _ _ => simpa [hpoll, Poll.Covers] using hc
              | rescan count j =>
                  simp only [hpoll, Poll.Covers] at hc
                  omega
              | recheck count j state =>
                  simp only [hpoll, Poll.Covers] at hc
                  omega
        · exact h.covered x (List.mem_of_getElem? hk') j hj
    · cases hs

/-- In a table of returned registrations no slot is being initialized. -/
theorem not_initializing (h : Sweeping s) (ht : Table s) (i : ℕ) :
    (s.slots i).state ≠ .initializing := by
  intro hi
  obtain ⟨r, hr, hheld⟩ := ht.owner i hi
  have hret := h.returned r hr
  have hfits := ht.fits r hr
  obtain ⟨tid, name, stage⟩ := r
  cases stage with
  | done j =>
      obtain rfl : j = i := Option.some.inj hheld
      rw [hfits.1] at hi
      cases hi
  | writeTid _ | writeName _ | publish _ => cases hret
  | scan _ | undo | exited _ | failed => cases hheld

/-- The first loop leaves no exited thread's ring unopened. -/
theorem done_of_passed (h : Sweeping s) (hcaught : Caught s) {count : ℕ}
    (hpoll : s.poll = .fresh count) (hcount : count ≤ s.knownCount) {r : Registration}
    (hr : r ∈ s.threads) {i : ℕ} (hi : r.stage.slot = some i) (hlt : i < count) :
    s.Tracked r.name.bytes ∨ r.stage = .done i := by
  have hret := h.returned r hr
  cases hstage : r.stage with
  | done j =>
      rw [hstage] at hi
      obtain rfl : j = i := Option.some.inj hi
      exact .inr rfl
  | exited j =>
      rw [hstage] at hi
      obtain rfl : j = i := Option.some.inj hi
      rcases hcaught r hr j hstage with ht | ⟨-, -, hle | ⟨_, _, hdiscover⟩⟩
      · exact .inl ht
      · omega
      · rw [hpoll] at hdiscover
        cases hdiscover
  | writeTid _ | writeName _ | publish _ =>
      rw [hstage] at hret
      cases hret
  | scan _ | undo | failed =>
      rw [hstage] at hi
      cases hi

/-- The second loop opens the ring of an active slot, or has it already. -/
theorem tracked_of_recheck (hok : Watched .engine s) {count i : ℕ}
    (hpoll : s.poll = .recheck count i .active) {r : Registration} (hr : r ∈ s.threads)
    (hname : (s.slots i).name = r.name.bytes) (hs : s.engine = some s') :
    s'.Tracked r.name.bytes := by
  simp only [State.engine, hpoll] at hs
  obtain rfl := Option.some.inj hs
  simp only [State.Tracked]
  split
  · rename_i hknown
    obtain ⟨x, hx, hlive⟩ := List.any_eq_true.mp hknown
    simp only [Bool.and_eq_true, beq_iff_eq] at hlive
    have htracked := hok count i hpoll x hx hlive.2 hlive.1
    rwa [hname] at htracked
  · exact exists_opened hr hname

theorem engine (h : Sweeping s) (hinv : Inv s) (hok : Watched .engine s)
    (hs : s.engine = some s') : Sweeping s' := by
  have hframe : s'.threads = s.threads := by
    simp only [State.engine] at hs
    grind
  have htracked {name : List UInt8} (ht : s.Tracked name) : s'.Tracked name := Tracked.engine ht hs
  have hret : ∀ r ∈ s'.threads, r.stage.Returned := by
    rw [hframe]
    exact h.returned
  have hrange := h.inRange
  have hcovered := h.covered
  unfold State.engine at hs
  cases hpoll : s.poll with
  | idle | crashed => simp [hpoll] at hs
  | fresh count =>
      simp only [hpoll, Poll.InRange] at hs hrange
      simp only [hpoll, Poll.Covers] at hcovered
      split at hs
      · rw [if_neg (by omega)] at hs
        split at hs
        · rename_i hinit
          exact absurd hinit (h.not_initializing hinv.table _)
        · obtain rfl := Option.some.inj hs
          refine ⟨hret, by simpa [hpoll, Poll.InRange] using hrange, fun r hr i hi => ?_⟩
          simp only [Poll.Covers]
          exact hcovered r hr i hi
        · obtain rfl := Option.some.inj hs
          exact ⟨hret, hrange, hcovered⟩
      · rename_i hpassed
        obtain rfl := Option.some.inj hs
        refine ⟨hret, hrange, fun r hr i hi => ?_⟩
        rcases hcovered r hr i hi with ht | hlt
        · exact .inl ht
        · rcases h.done_of_passed hinv.caught hpoll (by omega) hr hi hlt with ht | hdone
          · exact .inl ht
          · exact .inr ⟨by simpa using hpassed, hdone, Nat.zero_le _, hlt⟩
  | discover count j state =>
      simp only [hpoll] at hs
      simp only [hpoll, Poll.InRange] at hrange
      simp only [hpoll, Poll.Covers] at hcovered
      obtain rfl := Option.some.inj hs
      refine ⟨hret, hrange, fun r hr i hi => ?_⟩
      rcases hcovered r hr i hi with ht | hlt
      · exact .inl (htracked ht)
      · exact .inr hlt
  | rescan count j =>
      simp only [hpoll] at hs
      simp only [hpoll, Poll.InRange] at hrange
      simp only [hpoll, Poll.Covers] at hcovered
      split at hs
      · rename_i hj
        rw [if_neg (by omega)] at hs
        obtain rfl := Option.some.inj hs
        refine ⟨hret, hrange, fun r hr i hi => ?_⟩
        rcases hcovered r hr i hi with ht | ⟨hpassed, hdone, hle, hlt⟩
        · exact .inl ht
        · refine .inr ⟨hpassed, hdone, hle, hlt, ?_⟩
          rintro rfl
          have hfits := hinv.table.fits r hr
          rw [Registration.Fits, hdone] at hfits
          exact hfits.1
      · obtain rfl := Option.some.inj hs
        refine ⟨hret, trivial, fun r hr i hi => ?_⟩
        rcases hcovered r hr i hi with ht | ⟨-, -, hle, hlt⟩
        · exact .inl ht
        · omega
  | recheck count j state =>
      simp only [hpoll] at hs
      simp only [hpoll, Poll.InRange] at hrange
      simp only [hpoll, Poll.Covers] at hcovered
      have hs' := hs
      obtain rfl := Option.some.inj hs
      refine ⟨hret, hrange, fun r hr i hi => ?_⟩
      rcases hcovered r hr i hi with ht | ⟨hpassed, hdone, hle, hlt, hactive⟩
      · exact .inl (htracked ht)
      · rcases Nat.lt_or_eq_of_le hle with hlt' | rfl
        · exact .inr ⟨hpassed, hdone, hlt', hlt⟩
        · obtain rfl := hactive rfl
          have hfits := hinv.table.fits r hr
          rw [Registration.Fits, hdone] at hfits
          refine .inl (tracked_of_recheck hok hpoll hr hfits.2 ?_)
          simp only [State.engine, hpoll]

theorem step {l : Label} (h : Sweeping s) (hinv : Inv s) (hok : Watched l s)
    (hstart : ¬l.IsStart) (hs : Discovery.step l s = some s') : Sweeping s' := by
  cases l with
  | start tid name => exact absurd trivial hstart
  | advance k =>
      simp only [Discovery.step, h.advance, reduceCtorEq] at hs
  | die k => exact h.die hok hs
  | poll =>
      simp only [Discovery.step] at hs
      split at hs
      · rename_i hidle
        obtain rfl := Option.some.inj hs
        refine ⟨h.returned, hok, fun r hr i hi => ?_⟩
        rcases h.covered r hr i hi with ht | hc
        · exact .inl ht
        · simp [hidle, Poll.Covers] at hc
      · cases hs
  | engine => exact h.engine hinv hok hs
  | retire j =>
      simp only [Discovery.step] at hs
      split at hs
      · rename_i hidle
        obtain rfl := Option.some.inj hs
        refine ⟨h.returned, h.inRange, fun r hr i hi => ?_⟩
        rcases h.covered r hr i hi with ht | hc
        · exact .inl (Tracked.retire ht rfl)
        · exact .inr hc
      · cases hs

end Sweeping

/-- The accesses that a poll still makes. -/
def State.work (s : State) : ℕ :=
  match s.poll with
  | .idle | .crashed => 0
  | .fresh count => 2 * (count - s.knownCount) + 2 * count + 3
  | .discover count _ _ => 2 * (count - s.knownCount) + 2 * count + 4
  | .rescan count i => 2 * (count - i) + 2
  | .recheck count i _ => 2 * (count - i) + 1

/-- A poll in bounds. -/
def State.Polling (s : State) : Prop :=
  s.poll.InRange ∧ ∀ count i state, s.poll = .recheck count i state → i < count

theorem State.Polling.engine {s : State} (h : s.Polling) (hbusy : ¬s.poll = .idle) :
    ∃ l t, l = Label.engine ∧ step l s = some t ∧ t.Polling ∧ t.work < s.work := by
  obtain ⟨hrange, hlt⟩ := h
  suffices hstep : ∃ t, s.engine = some t ∧ t.Polling ∧ t.work < s.work by
    obtain ⟨t, hs, ht⟩ := hstep
    exact ⟨.engine, t, rfl, hs, ht⟩
  cases hpoll : s.poll with
  | idle => exact absurd hpoll hbusy
  | crashed => simp [hpoll, Poll.InRange] at hrange
  | fresh count =>
      simp only [hpoll, Poll.InRange] at hrange
      simp only [State.engine, hpoll]
      split
      · rw [if_neg (by omega)]
        split
        · exact ⟨_, rfl, ⟨hrange, by simp⟩, by simp only [State.work, hpoll]; omega⟩
        · exact ⟨_, rfl, ⟨by simpa [hpoll, Poll.InRange] using hrange, by simp⟩,
            by simp only [State.work, hpoll]; omega⟩
        · exact ⟨_, rfl, ⟨hrange, by simp⟩, by simp only [State.work, hpoll]; omega⟩
      · exact ⟨_, rfl, ⟨hrange, by simp⟩, by simp only [State.work, hpoll]; omega⟩
  | discover count i state =>
      simp only [hpoll, Poll.InRange] at hrange
      simp only [State.engine, hpoll]
      exact ⟨_, rfl, ⟨hrange, by simp⟩, by simp only [State.work, hpoll]; omega⟩
  | rescan count i =>
      simp only [hpoll, Poll.InRange] at hrange
      simp only [State.engine, hpoll]
      split
      · rename_i hi
        rw [if_neg (by omega)]
        exact ⟨_, rfl, ⟨hrange, by simpa using hi⟩,
          by simp only [State.work, hpoll]; omega⟩
      · exact ⟨_, rfl, ⟨trivial, by simp⟩, by simp only [State.work, hpoll]; omega⟩
  | recheck count i state =>
      have hi := hlt count i state hpoll
      simp only [hpoll, Poll.InRange] at hrange
      simp only [State.engine, hpoll]
      exact ⟨_, rfl, ⟨hrange, by simp⟩, by simp only [State.work, hpoll]; omega⟩

/-- In a run whose steps meet the condition, the first poll after all registrations
have returned does return, and then every ring whose registration returned an index
is tracked, and stays so, whichever threads exit in the meantime. -/
theorem final_poll_tracks {s u : State} (h : Reach step Watched .init s)
    (hret : ∀ r ∈ s.threads, r.stage.Returned) (hpoll : step .poll s = some u) :
    (∃ t, Reach step (fun l _ => l = .engine) u t ∧ t.poll = .idle) ∧
      ∀ t, Reach step (fun l v => Watched l v ∧ ¬l.IsStart) u t → t.poll ≠ .crashed ∧
        (t.poll = .idle → ∀ r ∈ t.threads, ∀ i, r.stage.slot = some i →
          t.Tracked r.name.bytes) := by
  have hinv : Inv s := h.invariant inv_init fun _ _ _ hi hok hs => inv_step hi hok hs
  have hcount : s.threadCount ≤ MAX_THREADS := by
    have hzero : s.threads.countP (·.stage == .undo) = 0 := by
      rw [List.countP_eq_zero]
      intro r hr hundo
      have hreturned := hret r hr
      rw [beq_iff_eq.mp hundo] at hreturned
      cases hreturned
    rcases hinv.counted with ⟨-, hlt⟩ | heq <;> omega
  have hinvu : Inv u := inv_step (l := .poll) hinv hcount hpoll
  simp only [step] at hpoll
  split at hpoll
  · obtain rfl := Option.some.inj hpoll
    have hsweep : Sweeping { s with poll := .fresh s.threadCount } := by
      refine ⟨hret, hcount, fun r hr i hi => .inr ?_⟩
      exact (hinv.table.bound r hr i hi).1
    constructor
    · obtain ⟨t, hrun, -, hidle⟩ := Reach.exists_done State.work
        (fun v (hv : v.Polling) hbusy => hv.engine hbusy) { s with poll := .fresh s.threadCount }
        ⟨hcount, by simp⟩
      exact ⟨t, hrun, hidle⟩
    · intro t hrun
      obtain ⟨-, hdone⟩ := hrun.invariant (I := fun v => Inv v ∧ Sweeping v) ⟨hinvu, hsweep⟩
        fun l v w hv hok hs => ⟨inv_step hv.1 hok.1 hs, hv.2.step hv.1 hok.1 hok.2 hs⟩
      refine ⟨fun hcrash => ?_, fun hidle r hr i hi => ?_⟩
      · have hrange := hdone.inRange
        simp [hcrash, Poll.InRange] at hrange
      · rcases hdone.covered r hr i hi with ht | hc
        · exact ht
        · simp [hidle, Poll.Covers] at hc
  · cases hpoll

theorem advance_not_dead {s t : State} {k : ℕ} (h : ∀ i, (s.slots i).state ≠ .dead)
    (hs : s.advance k = some t) (i : ℕ) : (t.slots i).state ≠ .dead := by
  have hset (j : ℕ) (e : Entry) (he : e.state ≠ .dead) :
      (Function.update s.slots j e i).state ≠ .dead := by
    by_cases hij : i = j
    · rwa [hij, Function.update_self]
    · rw [Function.update_of_ne hij]
      exact h i
  unfold State.advance at hs
  split at hs
  · cases hs
  · split at hs
    · split at hs
      · split at hs <;> obtain rfl := Option.some.inj hs
        · exact hset _ _ (by simp)
        · exact h i
      · split at hs <;> obtain rfl := Option.some.inj hs <;> exact h i
    · obtain rfl := Option.some.inj hs
      exact h i
    · obtain rfl := Option.some.inj hs
      exact hset _ _ (h _)
    · obtain rfl := Option.some.inj hs
      exact hset _ _ (h _)
    · obtain rfl := Option.some.inj hs
      exact hset _ _ (by simp)
    all_goals cases hs

def nameOf (c : UInt8) : ShmName := ⟨[c], by simp, by simp [RING_NAME_LEN]⟩

/-- A first thread registers: it finds no dead slot among 256 and takes a new one. -/
def registerFirst : List Label := .start 1 (nameOf 1) :: List.replicate 260 (.advance 0)

theorem first_ring_is_tracked :
    ∃ s u, s.threads.map Registration.stage = [.done 0] ∧ step .poll s = some u ∧
      ∀ t, Reach step (fun l v => Watched l v ∧ ¬l.IsStart) u t → t.poll = .idle →
        ∀ r ∈ t.threads, ∀ i, r.stage.slot = some i → t.Tracked r.name.bytes := by
  have hrun : (exec step registerFirst .init).any (fun s =>
      s.threads.map Registration.stage = [.done 0] && s.poll = .idle) = true := by
    decide +kernel
  obtain ⟨s, hs, hfacts⟩ := (Option.any_eq_true _ _).mp hrun
  simp only [Bool.and_eq_true, decide_eq_true_eq] at hfacts
  obtain ⟨hstages, hidle⟩ := hfacts
  have hreach : Reach step Watched .init s := by
    refine Reach.of_exec_invariant (I := fun v => ∀ i, (v.slots i).state ≠ .dead) hs
      (by simp [State.init]) ?_ ?_
    · intro l hl v hv
      rcases List.mem_cons.mp hl with rfl | hl
      · trivial
      · obtain rfl := List.eq_of_mem_replicate hl
        exact fun r i _ _ hdead => absurd hdead (hv i)
    · intro l hl v w hv hstep
      rcases List.mem_cons.mp hl with rfl | hl
      · obtain rfl := Option.some.inj hstep
        exact hv
      · obtain rfl := List.eq_of_mem_replicate hl
        exact advance_not_dead hv hstep
  have hret : ∀ r ∈ s.threads, r.stage.Returned := by
    intro r hr
    have hmem := List.mem_map_of_mem (f := Registration.stage) hr
    rw [hstages, List.mem_singleton] at hmem
    rw [hmem]
    trivial
  have hpoll : step .poll s = some { s with poll := .fresh s.threadCount } := by
    simp only [step, hidle]
  refine ⟨s, _, hstages, hpoll, fun t ht => ?_⟩
  exact ((final_poll_tracks hreach hret hpoll).2 t ht).2

/-- A second thread is born and dies in the slot of the first, between two polls. -/
theorem reclaimed_ring_is_missed :
    ∃ s u t, Reach step (fun _ _ => True) .init s ∧
      s.threads.map Registration.stage = [.exited 0, .exited 0] ∧ step .poll s = some u ∧
      Reach step (fun l _ => ¬l.IsStart) u t ∧ t.poll = .idle ∧ t.Tracked [1] ∧
      ¬t.Tracked [2] ∧ t.threads.map (·.name.bytes) = [[1], [2]] := by
  have hrun : (exec step (registerFirst ++ (.poll :: List.replicate 6 .engine ++
      (.die 0 :: .start 2 (nameOf 2) :: List.replicate 4 (.advance 1) ++ [.die 1])))
      .init).any (fun s => s.threads.map Registration.stage = [.exited 0, .exited 0] &&
        (exec step [.poll] s).any fun u =>
          (exec step (List.replicate 4 .engine) u).any fun t =>
            t.poll = .idle && t.rings.map ThreadRing.name = [[1]] &&
              t.threads.map (·.name.bytes) = [[1], [2]]) = true := by
    decide +kernel
  obtain ⟨s, hs, hfacts⟩ := (Option.any_eq_true _ _).mp hrun
  simp only [Bool.and_eq_true, decide_eq_true_eq] at hfacts
  obtain ⟨hstages, hrest⟩ := hfacts
  obtain ⟨u, hu, hrest⟩ := (Option.any_eq_true _ _).mp hrest
  obtain ⟨t, ht, hlast⟩ := (Option.any_eq_true _ _).mp hrest
  simp only [Bool.and_eq_true, decide_eq_true_eq] at hlast
  obtain ⟨⟨hidle, hrings⟩, hnames⟩ := hlast
  have htracked (name : List UInt8) : t.Tracked name ↔ name ∈ [[1]] := by
    rw [← hrings, List.mem_map]
    rfl
  refine ⟨s, u, t, .of_exec hs fun _ _ _ => trivial, hstages, ?_, .of_exec ht ?_, hidle, ?_, ?_,
    hnames⟩
  · simpa [exec] using hu
  · intro l hl _
    rw [List.eq_of_mem_replicate hl]
    exact id
  · rw [htracked]
    decide
  · rw [htracked]
    decide

end Rtmap.Ring.Discovery
