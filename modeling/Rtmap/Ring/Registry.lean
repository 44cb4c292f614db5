import Mathlib.Tactic.Common
import Mathlib.Logic.Function.Basic
import Rtmap.Lib.Transition

/-!
# The control header's thread table

Threads register their rings in the slots of the control header and mark them
dead when they exit; dead slots are reclaimed. The engine polls the slots. It
keeps a high-water mark, `knownCount`, and the rings it has opened. Every access
to a slot's state is a step of its own, and so is every iteration of a poll.
`Table` is what registrations and slots have to do with each other in any run.
-/
namespace Rtmap.Ring.Discovery
open Transition

def MAX_THREADS : ℕ := 256
def RING_NAME_LEN : ℕ := 48

/-- A formatted ring name. Callers format it into a buffer of the entry's size. -/
structure ShmName where
  bytes : List UInt8
  ne_nil : bytes ≠ []
  fits : bytes.length < RING_NAME_LEN

inductive SlotState where
  | empty
  | active
  | dead
  | initializing
deriving DecidableEq, Repr

/-- `rtmap_thread_entry_t`, with the bytes of the name before its terminator. -/
structure Entry where
  state : SlotState
  tid : UInt16
  name : List UInt8

/-- Where a call of `rtmap_ctl_register_thread` stands, and what became of its
thread once it has returned. -/
inductive Stage where
  | scan (i : ℕ)
  | writeTid (i : ℕ)
  | writeName (i : ℕ)
  | publish (i : ℕ)
  | undo
  | done (i : ℕ)
  | exited (i : ℕ)
  | failed
deriving DecidableEq, Repr

structure Registration where
  tid : UInt16
  name : ShmName
  stage : Stage

structure ThreadRing where
  name : List UInt8
  tid : UInt16
  alive : Bool

/-- Where `poll_new_rings` stands: at the head of its first loop, after loading the
state of a new slot, and the same for the second loop. -/
inductive Poll where
  | idle
  | fresh (count : ℕ)
  | discover (count i : ℕ) (state : SlotState)
  | rescan (count i : ℕ)
  | recheck (count i : ℕ) (state : SlotState)
  | crashed
deriving DecidableEq, Repr

structure State where
  slots : ℕ → Entry
  threadCount : ℕ
  threads : List Registration
  knownCount : ℕ
  rings : List ThreadRing
  poll : Poll

def State.init : State where
  slots := fun _ => ⟨.empty, 0, []⟩
  threadCount := 0
  threads := []
  knownCount := 0
  rings := []
  poll := .idle

namespace State

def setSlot (s : State) (i : ℕ) (e : Entry) : State :=
  { s with slots := Function.update s.slots i e }

def setStage (s : State) (k : ℕ) (r : Registration) (stage : Stage) : State :=
  { s with threads := s.threads.set k { r with stage := stage } }

/-- The next access of registration `k`. -/
def advance (k : ℕ) (s : State) : Option State :=
  match s.threads[k]? with
  | none => none
  | some r =>
      match r.stage with
      | .scan i =>
          if i < MAX_THREADS then
            if (s.slots i).state = .dead then
              some ((s.setSlot i { s.slots i with state := .initializing }).setStage k r
                (.writeTid i))
            else some (s.setStage k r (.scan (i + 1)))
          else
            let claimed := { s with threadCount := s.threadCount + 1 }
            if MAX_THREADS ≤ s.threadCount then some (claimed.setStage k r .undo)
            else some (claimed.setStage k r (.writeTid s.threadCount))
      | .undo => some ({ s with threadCount := s.threadCount - 1 }.setStage k r .failed)
      | .writeTid i =>
          some ((s.setSlot i { s.slots i with tid := r.tid }).setStage k r (.writeName i))
      | .writeName i =>
          some ((s.setSlot i { s.slots i with name := r.name.bytes.take (RING_NAME_LEN - 1) }).setStage
            k r (.publish i))
      | .publish i =>
          some ((s.setSlot i { s.slots i with state := .active }).setStage k r (.done i))
      | .done _ | .exited _ | .failed => none

/-- `rtmap_ctl_mark_dead` at the exit of a registered thread. -/
def die (k : ℕ) (s : State) : Option State :=
  match s.threads[k]? with
  | none => none
  | some r =>
      match r.stage with
      | .done i => some ((s.setSlot i { s.slots i with state := .dead }).setStage k r (.exited i))
      | _ => none

/-- Shared memory is created before a thread registers and outlives the thread. -/
def opens (s : State) (name : List UInt8) : Bool :=
  s.threads.any fun r => r.name.bytes == name

/-- The rings after opening the one that slot `i` names. -/
def opened (s : State) (i : ℕ) : List ThreadRing :=
  if (s.slots i).name = [] then s.rings
  else if s.opens (s.slots i).name then s.rings ++ [⟨(s.slots i).name, (s.slots i).tid, true⟩]
  else s.rings

end State

/-- Clear `alive` of the first ring that meets `p`. -/
def markFirst (p : ThreadRing → Bool) : List ThreadRing → List ThreadRing
  | [] => []
  | r :: rs => if p r then { r with alive := false } :: rs else r :: markFirst p rs

namespace State

/-- The next step of `poll_new_rings`. -/
def engine (s : State) : Option State :=
  match s.poll with
  | .idle | .crashed => none
  | .fresh count =>
      if s.knownCount < count then
        if MAX_THREADS ≤ s.knownCount then some { s with poll := .crashed }
        else match (s.slots s.knownCount).state with
          | .initializing => some { s with poll := .rescan count 0 }
          | .empty => some { s with knownCount := s.knownCount + 1 }
          | state => some { s with
              knownCount := s.knownCount + 1
              poll := .discover count s.knownCount state }
      else some { s with poll := .rescan count 0 }
  | .discover count i state =>
      some { s with
        rings :=
          if state = .dead ∧ (s.slots i).name ≠ [] then
            markFirst (fun r => r.tid == (s.slots i).tid) (s.opened i)
          else s.opened i
        poll := .fresh count }
  | .rescan count i =>
      if i < count then
        if MAX_THREADS ≤ i then some { s with poll := .crashed }
        else some { s with poll := .recheck count i (s.slots i).state }
      else some { s with poll := .idle }
  | .recheck count i state =>
      some { s with
        rings :=
          match state with
          | .dead => markFirst (fun r => r.tid == (s.slots i).tid && r.alive) s.rings
          | .active =>
              if s.rings.any fun r => r.tid == (s.slots i).tid && r.alive then s.rings
              else s.opened i
          | .empty | .initializing => s.rings
        poll := .rescan count (i + 1) }

end State

/-- `retire` is the drain's: a ring that is terminal and empty is no longer alive. -/
inductive Label where
  | start (tid : UInt16) (name : ShmName)
  | advance (k : ℕ)
  | die (k : ℕ)
  | poll
  | engine
  | retire (j : ℕ)

def step : Label → State → Option State
  | .start tid name, s => some { s with threads := s.threads ++ [⟨tid, name, .scan 0⟩] }
  | .advance k, s => s.advance k
  | .die k, s => s.die k
  | .poll, s =>
      match s.poll with
      | .idle => some { s with poll := .fresh s.threadCount }
      | _ => none
  | .engine, s => s.engine
  | .retire j, s =>
      match s.poll with
      | .idle => some { s with rings := s.rings.modify j fun r => { r with alive := false } }
      | _ => none

/-- The engine has opened the ring of this name. -/
def State.Tracked (s : State) (name : List UInt8) : Prop := ∃ r ∈ s.rings, r.name = name

/-- The condition of a run: a thread whose slot the engine has passed exits once its
ring is tracked, and so does the last owner of a slot before it is reclaimed; no
poll starts while a failing registration has raised the count; a slot is not taken
for known because of a live ring of another thread with its thread id. -/
def Watched : Label → State → Prop
  | .die k, s =>
      ∀ r i, s.threads[k]? = some r → r.stage = .done i →
        s.Tracked r.name.bytes ∨ s.knownCount ≤ i
  | .advance k, s =>
      ∀ r i, s.threads[k]? = some r → r.stage = .scan i → (s.slots i).state = .dead →
        s.Tracked (s.slots i).name
  | .poll, s => s.threadCount ≤ MAX_THREADS
  | .engine, s =>
      ∀ count i, s.poll = .recheck count i .active →
        ∀ r ∈ s.rings, r.alive = true → r.tid = (s.slots i).tid → s.Tracked (s.slots i).name
  | .start .., _ | .retire _, _ => True

namespace Stage

/-- The slot that a registration has been given. -/
def slot : Stage → Option ℕ
  | .writeTid i | .writeName i | .publish i | .done i | .exited i => some i
  | .scan _ | .undo | .failed => none

/-- The slot it owns, up to the exit of its thread. -/
def holds : Stage → Option ℕ
  | .writeTid i | .writeName i | .publish i | .done i => some i
  | .exited _ | .scan _ | .undo | .failed => none

def Returned : Stage → Prop
  | .done _ | .exited _ | .failed => True
  | .scan _ | .writeTid _ | .writeName _ | .publish _ | .undo => False

theorem slot_of_holds {a : Stage} {i : ℕ} (h : a.holds = some i) : a.slot = some i := by
  cases a <;> first | exact h | cases h

end Stage

/-- What a slot holds for its owner. -/
def Registration.Fits (r : Registration) (slots : ℕ → Entry) : Prop :=
  match r.stage with
  | .scan _ | .undo | .failed | .exited _ => True
  | .writeTid i | .writeName i =>
      (slots i).state = .empty ∨ (slots i).state = .initializing
  | .publish i =>
      ((slots i).state = .empty ∨ (slots i).state = .initializing) ∧ (slots i).name = r.name.bytes
  | .done i => (slots i).state = .active ∧ (slots i).name = r.name.bytes

theorem Registration.Fits.not_dead {r : Registration} {slots : ℕ → Entry} {i : ℕ}
    (h : r.Fits slots) (hi : r.stage.holds = some i) : (slots i).state ≠ .dead := by
  obtain ⟨tid, name, stage⟩ := r
  cases stage <;> simp only [Stage.holds, Option.some.injEq, reduceCtorEq] at hi <;> subst hi <;>
    simp only [Registration.Fits] at h <;> grind

/-- Only the owner's slot matters. -/
theorem Registration.Fits.update {r : Registration} {slots : ℕ → Entry} {i : ℕ} {e : Entry}
    (h : r.Fits slots) (hi : r.stage.holds ≠ some i) : r.Fits (Function.update slots i e) := by
  obtain ⟨tid, name, stage⟩ := r
  cases stage with
  | writeTid j | writeName j | publish j | done j =>
      have hj : j ≠ i := fun h => hi (congrArg some h)
      simpa only [Registration.Fits, Function.update_of_ne hj] using h
  | scan _ | undo | exited _ | failed => exact h

/-- Every registration's slot is its own, and the slots are in the states that the
registrations leave them in. -/
structure Table (s : State) : Prop where
  fits : ∀ r ∈ s.threads, r.Fits s.slots
  bound : ∀ r ∈ s.threads, ∀ i, r.stage.slot = some i → i < s.threadCount ∧ i < MAX_THREADS
  unique : ∀ (k k' : ℕ) (r r' : Registration) (i : ℕ), s.threads[k]? = some r →
    s.threads[k']? = some r' → r.stage.holds = some i → r'.stage.holds = some i → k = k'
  owner : ∀ i, (s.slots i).state = .initializing → ∃ r ∈ s.threads, r.stage.holds = some i
  empty : ∀ i, s.threadCount ≤ i ∨ MAX_THREADS ≤ i → (s.slots i).state = .empty

/-- The count is that of the slots given out, or else the failing registrations
have raised it above their number. -/
def Counted (s : State) : Prop :=
  (s.threads.countP (·.stage == .undo) = 0 ∧ s.threadCount < MAX_THREADS) ∨
    s.threadCount = MAX_THREADS + s.threads.countP (·.stage == .undo)

theorem Registration.Fits.of_slot {r : Registration} {slots : ℕ → Entry}
    (h : r.stage.slot = none) : r.Fits slots := by
  obtain ⟨tid, name, stage⟩ := r
  cases stage <;> first | exact trivial | cases h

namespace Table
variable {s s' : State} {k i : ℕ} {r r' : Registration}

/-- One registration moves on and writes to its slot. -/
theorem move (h : Table s) {e : Entry} (hk : s.threads[k]? = some r)
    (hthreads : s'.threads = s.threads.set k r')
    (hslots : s'.slots = Function.update s.slots i e) (hcount : s.threadCount ≤ s'.threadCount)
    (hi : i < s'.threadCount ∧ i < MAX_THREADS)
    (hfree : ∀ k' x, k' ≠ k → s.threads[k']? = some x → x.stage.holds ≠ some i)
    (hheld : ∀ j, r.stage.holds = some j → j = i)
    (hslot : ∀ j, r'.stage.slot = some j → j = i) (hfits : r'.Fits s'.slots)
    (howner : e.state = .initializing → r'.stage.holds = some i) : Table s' where
  fits := by
    intro x hx
    rw [hthreads] at hx
    rcases mem_set_cases hx with rfl | ⟨k', hne, hk'⟩
    · exact hfits
    · rw [hslots]
      exact (h.fits x (List.mem_of_getElem? hk')).update (hfree k' x hne hk')
  bound := by
    intro x hx j hj
    rw [hthreads] at hx
    rcases mem_set_cases hx with rfl | ⟨k', hne, hk'⟩
    · rw [hslot j hj]
      exact hi
    · obtain ⟨hlt, hmax⟩ := h.bound x (List.mem_of_getElem? hk') j hj
      exact ⟨by omega, hmax⟩
  unique := by
    intro a b x y j ha hb hx hy
    rw [hthreads] at ha hb
    rcases getElem?_set_cases ha with ⟨hak, hxr⟩ | ⟨hak, ha'⟩
    · rcases getElem?_set_cases hb with ⟨hbk, -⟩ | ⟨hbk, hb'⟩
      · rw [hak, hbk]
      · rw [hxr] at hx
        rw [hslot j (Stage.slot_of_holds hx)] at hy
        exact absurd hy (hfree b y hbk hb')
    · rcases getElem?_set_cases hb with ⟨-, hyr⟩ | ⟨hbk, hb'⟩
      · rw [hyr] at hy
        rw [hslot j (Stage.slot_of_holds hy)] at hx
        exact absurd hx (hfree a x hak ha')
      · exact h.unique a b x y j ha' hb' hx hy
  owner := by
    intro j hj
    rw [hthreads]
    rw [hslots] at hj
    by_cases hji : j = i
    · subst hji
      rw [Function.update_self] at hj
      exact ⟨r', mem_set_self hk, howner hj⟩
    · rw [Function.update_of_ne hji] at hj
      obtain ⟨x, hx, hxj⟩ := h.owner j hj
      obtain ⟨k', hk'⟩ := List.mem_iff_getElem?.mp hx
      refine ⟨x, mem_set_of_ne ?_ hk', hxj⟩
      rintro rfl
      rw [hk] at hk'
      obtain rfl := Option.some.inj hk'
      exact hji (hheld j hxj)
  empty := by
    intro j hj
    have hne : j ≠ i := by omega
    rw [hslots, Function.update_of_ne hne]
    exact h.empty j (by omega)

/-- A registration without a slot moves on without one. -/
theorem moveIdle (h : Table s) (hk : s.threads[k]? = some r)
    (hthreads : s'.threads = s.threads.set k r') (hslots : s'.slots = s.slots)
    (hheld : r.stage.holds = none) (hslot : r'.stage.slot = none)
    (hcount : s.threadCount ≤ s'.threadCount ∨ MAX_THREADS ≤ s'.threadCount) : Table s' where
  fits := by
    intro x hx
    rw [hthreads] at hx
    rw [hslots]
    rcases mem_set_cases hx with rfl | ⟨k', hne, hk'⟩
    · exact .of_slot hslot
    · exact h.fits x (List.mem_of_getElem? hk')
  bound := by
    intro x hx j hj
    rw [hthreads] at hx
    rcases mem_set_cases hx with rfl | ⟨k', hne, hk'⟩
    · rw [hslot] at hj
      cases hj
    · obtain ⟨hlt, hmax⟩ := h.bound x (List.mem_of_getElem? hk') j hj
      exact ⟨by omega, hmax⟩
  unique := by
    have hnone : r'.stage.holds = none := by
      cases hr : r'.stage.holds with
      | none => rfl
      | some j =>
          rw [Stage.slot_of_holds hr] at hslot
          cases hslot
    intro a b x y j ha hb hx hy
    rw [hthreads] at ha hb
    rcases getElem?_set_cases ha with ⟨rfl, rfl⟩ | ⟨hak, ha⟩
    · rw [hnone] at hx
      cases hx
    · rcases getElem?_set_cases hb with ⟨rfl, rfl⟩ | ⟨hbk, hb⟩
      · rw [hnone] at hy
        cases hy
      · exact h.unique a b x y j ha hb hx hy
  owner := by
    intro j hj
    rw [hslots] at hj
    rw [hthreads]
    obtain ⟨x, hx, hxj⟩ := h.owner j hj
    obtain ⟨k', hk'⟩ := List.mem_iff_getElem?.mp hx
    refine ⟨x, mem_set_of_ne ?_ hk', hxj⟩
    rintro rfl
    rw [hk] at hk'
    obtain rfl := Option.some.inj hk'
    rw [hheld] at hxj
    cases hxj
  empty := by
    intro j hj
    rw [hslots]
    exact h.empty j (by omega)

/-- The owner of a slot has it to itself. -/
theorem free_of_held (h : Table s) (hk : s.threads[k]? = some r) (hr : r.stage.holds = some i) :
    ∀ k' x, k' ≠ k → s.threads[k']? = some x → x.stage.holds ≠ some i := by
  intro k' x hne hk' hx
  exact hne (h.unique k' k x r i hk' hk hx hr)

theorem free_of_dead (h : Table s) (hi : (s.slots i).state = .dead) :
    ∀ k' x, k' ≠ k → s.threads[k']? = some x → x.stage.holds ≠ some i := by
  intro k' x _ hk' hx
  exact (h.fits x (List.mem_of_getElem? hk')).not_dead hx hi

theorem start (h : Table s) (tid : UInt16) (name : ShmName) :
    Table { s with threads := s.threads ++ [⟨tid, name, .scan 0⟩] } where
  fits := by
    intro x hx
    rcases List.mem_append.mp hx with hx | hx
    · exact h.fits x hx
    · obtain rfl := List.mem_singleton.mp hx
      exact trivial
  bound := by
    intro x hx j hj
    rcases List.mem_append.mp hx with hx | hx
    · exact h.bound x hx j hj
    · obtain rfl := List.mem_singleton.mp hx
      cases hj
  unique := by
    have hold {a : ℕ} {x : Registration} {j : ℕ} (hx : x.stage.holds = some j)
        (ha : (s.threads ++ [⟨tid, name, .scan 0⟩])[a]? = some x) : s.threads[a]? = some x := by
      rcases List.mem_append.mp (List.mem_of_getElem? ha) with _ | hnew
      · by_cases hlt : a < s.threads.length
        · rwa [List.getElem?_append_left hlt] at ha
        · rw [List.getElem?_append_right (by omega)] at ha
          obtain rfl := List.mem_singleton.mp (List.mem_of_getElem? ha)
          cases hx
      · obtain rfl := List.mem_singleton.mp hnew
        cases hx
    intro a b x y j ha hb hx hy
    exact h.unique a b x y j (hold hx ha) (hold hy hb) hx hy
  owner := by
    intro j hj
    obtain ⟨x, hx, hxj⟩ := h.owner j hj
    exact ⟨x, List.mem_append_left _ hx, hxj⟩
  empty := h.empty

end Table

theorem ShmName.take_bytes (name : ShmName) : name.bytes.take (RING_NAME_LEN - 1) = name.bytes :=
  List.take_of_length_le (Nat.le_pred_of_lt name.fits)

/-- While a registration fails, the count is above the number of slots. -/
theorem Counted.undo {s : State} (h : Counted s) {k : ℕ} {r : Registration}
    (hk : s.threads[k]? = some r) (hr : r.stage = .undo) : MAX_THREADS < s.threadCount := by
  have hpos : 0 < s.threads.countP (·.stage == .undo) :=
    List.countP_pos_iff.mpr ⟨r, List.mem_of_getElem? hk, by simp [hr]⟩
  rcases h with ⟨hzero, -⟩ | hcount <;> omega

theorem Table.advance {s s' : State} {k : ℕ} (h : Table s) (hc : Counted s)
    (hs : s.advance k = some s') : Table s' := by
  unfold State.advance at hs
  split at hs
  · cases hs
  · rename_i r hk
    have hfits := h.fits r (List.mem_of_getElem? hk)
    have hbound := h.bound r (List.mem_of_getElem? hk)
    obtain ⟨tid, name, stage⟩ := r
    cases stage with
    | scan i =>
        dsimp only at hs
        split at hs
        · rename_i hi
          split at hs
          · rename_i hdead
            obtain rfl := Option.some.inj hs
            have hlt : i < s.threadCount := by
              by_contra hge
              have hempty := h.empty i (.inl (by omega))
              rw [hdead] at hempty
              cases hempty
            exact h.move hk rfl rfl (Nat.le_refl _) ⟨hlt, hi⟩ (h.free_of_dead hdead) (by simp [Stage.holds])
              (by simp [Stage.slot]) (.inr (by simp [State.setSlot, State.setStage])) fun _ => rfl
          · obtain rfl := Option.some.inj hs
            exact h.moveIdle hk rfl rfl rfl rfl (.inl (Nat.le_refl _))
        · split at hs
          · obtain rfl := Option.some.inj hs
            exact h.moveIdle hk rfl rfl rfl rfl (.inl (Nat.le_succ _))
          · rename_i hroom
            obtain rfl := Option.some.inj hs
            have hempty := h.empty s.threadCount (.inl (Nat.le_refl _))
            have hfree (k' : ℕ) (x : Registration) (_ : k' ≠ k) (hk' : s.threads[k']? = some x) :
                x.stage.holds ≠ some s.threadCount := by
              intro hx
              have hlt := (h.bound x (List.mem_of_getElem? hk') _ (Stage.slot_of_holds hx)).1
              omega
            exact h.move hk rfl (Function.update_eq_self s.threadCount s.slots).symm (Nat.le_succ _)
              ⟨Nat.lt_succ_self _, by omega⟩ hfree (by simp [Stage.holds]) (by simp [Stage.slot])
              (.inl hempty) fun _ => rfl
    | undo =>
        obtain rfl := Option.some.inj hs
        have hcount := hc.undo hk rfl
        exact h.moveIdle hk rfl rfl rfl rfl (.inr (Nat.le_pred_of_lt hcount))
    | writeTid i =>
        obtain rfl := Option.some.inj hs
        refine h.move hk rfl rfl (Nat.le_refl _) (hbound i rfl) (h.free_of_held hk rfl)
          (by simp [Stage.holds]) (by simp [Stage.slot]) ?_ fun _ => rfl
        simpa [Registration.Fits, State.setSlot, State.setStage] using hfits
    | writeName i =>
        obtain rfl := Option.some.inj hs
        refine h.move hk rfl rfl (Nat.le_refl _) (hbound i rfl) (h.free_of_held hk rfl)
          (by simp [Stage.holds]) (by simp [Stage.slot]) ?_ fun _ => rfl
        simpa [Registration.Fits, State.setSlot, State.setStage, name.take_bytes] using hfits
    | publish i =>
        obtain rfl := Option.some.inj hs
        refine h.move hk rfl rfl (Nat.le_refl _) (hbound i rfl) (h.free_of_held hk rfl)
          (by simp [Stage.holds]) (by simp [Stage.slot]) ?_ fun hstate => by cases hstate
        simpa [Registration.Fits, State.setSlot, State.setStage] using hfits.2
    | done i => cases hs
    | exited i => cases hs
    | failed => cases hs

theorem Table.die {s s' : State} {k : ℕ} (h : Table s) (hs : s.die k = some s') : Table s' := by
  unfold State.die at hs
  split at hs
  · cases hs
  · rename_i r hk
    have hbound := h.bound r (List.mem_of_getElem? hk)
    split at hs
    · rename_i i hstage
      obtain rfl := Option.some.inj hs
      exact h.move hk rfl rfl (Nat.le_refl _) (hbound i (by rw [hstage]; rfl))
        (h.free_of_held hk (by rw [hstage]; rfl)) (by simp [hstage, Stage.holds])
        (by simp [Stage.slot]) trivial fun hstate => by cases hstate
    · cases hs

/-- How replacing one registration changes the number of failing ones. -/
theorem countP_set_eq {threads : List Registration} {k : ℕ} {r : Registration}
    (hk : threads[k]? = some r) (r' : Registration) (p : Registration → Bool) :
    (threads.set k r').countP p + (if p r then 1 else 0) =
      threads.countP p + (if p r' then 1 else 0) := by
  obtain ⟨hlt, hget⟩ := List.getElem?_eq_some_iff.mp hk
  have hpos : (if p r then 1 else 0) ≤ threads.countP p := by
    split
    · rename_i hp
      exact List.countP_pos_iff.mpr ⟨r, List.mem_of_getElem? hk, hp⟩
    · exact Nat.zero_le _
  rw [List.countP_set hlt, hget]
  omega

/-- Registrations that neither fail nor count keep the count right. -/
theorem Counted.move {s s' : State} (h : Counted s) {k : ℕ} {r r' : Registration}
    (hk : s.threads[k]? = some r) (hthreads : s'.threads = s.threads.set k r')
    (hcount : s'.threadCount = s.threadCount) (hr : r.stage ≠ .undo) (hr' : r'.stage ≠ .undo) :
    Counted s' := by
  have hset := countP_set_eq hk r' (·.stage == .undo)
  simp only [beq_iff_eq, hr, hr', if_false, Nat.add_zero] at hset
  unfold Counted
  rw [hthreads, hset, hcount]
  exact h

theorem Counted.advance {s s' : State} {k : ℕ} (h : Counted s)
    (hs : s.advance k = some s') : Counted s' := by
  unfold State.advance at hs
  split at hs
  · cases hs
  · rename_i r hk
    obtain ⟨tid, name, stage⟩ := r
    cases stage with
    | scan i =>
        dsimp only at hs
        split at hs
        · split at hs <;> obtain rfl := Option.some.inj hs <;>
            exact h.move hk rfl rfl (by simp) (by simp)
        · split at hs
          · rename_i hfull
            obtain rfl := Option.some.inj hs
            have hset := countP_set_eq hk ⟨tid, name, .undo⟩ (·.stage == .undo)
            simp only [beq_iff_eq, reduceCtorEq, if_false, if_true, Nat.add_zero] at hset
            right
            simp only [State.setStage, hset]
            rcases h with ⟨-, hlt⟩ | hcount <;> omega
          · rename_i hroom
            obtain rfl := Option.some.inj hs
            have hset := countP_set_eq hk ⟨tid, name, .writeTid s.threadCount⟩ (·.stage == .undo)
            simp only [beq_iff_eq, reduceCtorEq, if_false, Nat.add_zero] at hset
            unfold Counted
            simp only [State.setStage, hset]
            rcases h with ⟨hzero, hlt⟩ | hcount <;> omega
    | undo =>
        obtain rfl := Option.some.inj hs
        have hset := countP_set_eq hk ⟨tid, name, .failed⟩ (·.stage == .undo)
        simp only [beq_iff_eq, reduceCtorEq, if_false, if_true, Nat.add_zero] at hset
        right
        simp only [State.setStage]
        rcases h with ⟨hzero, -⟩ | hcount <;> omega
    | writeTid i | writeName i | publish i =>
        obtain rfl := Option.some.inj hs
        exact h.move hk rfl rfl (by simp) (by simp)
    | done i | exited i | failed => cases hs

theorem Counted.die {s s' : State} {k : ℕ} (h : Counted s) (hs : s.die k = some s') :
    Counted s' := by
  unfold State.die at hs
  split at hs
  · cases hs
  · rename_i r hk
    split at hs
    · rename_i i hstage
      obtain rfl := Option.some.inj hs
      exact h.move hk rfl rfl (by simp [hstage]) (by simp)
    · cases hs

/-- What holds of registrations and slots whatever the engine does. -/
structure Registered (s : State) : Prop where
  table : Table s
  counted : Counted s

namespace Registered

theorem init : Registered .init where
  table := by
    constructor <;> simp [State.init]
  counted := .inl ⟨rfl, by decide⟩

/-- The engine only reads the table. -/
theorem of_frame {s s' : State} (h : Registered s) (hthreads : s'.threads = s.threads)
    (hslots : s'.slots = s.slots) (hcount : s'.threadCount = s.threadCount) : Registered s' := by
  obtain ⟨ht, hc⟩ := h
  refine ⟨⟨?_, ?_, ?_, ?_, ?_⟩, ?_⟩
  · rw [hthreads, hslots]
    exact ht.fits
  · rw [hthreads, hcount]
    exact ht.bound
  · rw [hthreads]
    exact ht.unique
  · rw [hthreads, hslots]
    exact ht.owner
  · rw [hslots, hcount]
    exact ht.empty
  · rw [Counted, hthreads, hcount]
    exact hc

end Registered

theorem engine_frame {s s' : State} (hs : s.engine = some s') :
    s'.threads = s.threads ∧ s'.slots = s.slots ∧ s'.threadCount = s.threadCount := by
  unfold State.engine at hs
  grind

theorem Registered.step {l : Label} {s s' : State} (h : Registered s)
    (hs : step l s = some s') : Registered s' := by
  cases l with
  | start tid name =>
      obtain rfl := Option.some.inj hs
      refine ⟨h.table.start tid name, ?_⟩
      simpa [Counted] using h.counted
  | advance k => exact ⟨h.table.advance h.counted hs, h.counted.advance hs⟩
  | die k => exact ⟨h.table.die hs, h.counted.die hs⟩
  | poll =>
      simp only [Discovery.step] at hs
      split at hs
      · obtain rfl := Option.some.inj hs
        exact h.of_frame rfl rfl rfl
      · cases hs
  | engine =>
      obtain ⟨hthreads, hslots, hcount⟩ := engine_frame hs
      exact h.of_frame hthreads hslots hcount
  | retire j =>
      simp only [Discovery.step] at hs
      split at hs
      · obtain rfl := Option.some.inj hs
        exact h.of_frame rfl rfl rfl
      · cases hs

end Rtmap.Ring.Discovery
