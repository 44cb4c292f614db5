import Mathlib.Data.List.Nodup
import Mathlib.Order.Nat
import Rtmap.Ring.Registry

/-!
# Owners of slots and rings

Whose thread id and name a slot holds, and whose ring each tracked ring is, while neither
thread ids nor names are used twice. `Registration.Moves` says once what a thread does to
its slot; `Once` is kept by every step of the table and of a poll, if dead slots are
reclaimed behind the poll, and it says that no ring is tracked twice.
-/
namespace Rtmap.Ring.Discovery
open Transition

/-- The slot whose thread id and name the poll is about to read, after it found the slot
in use in its first loop, or active in its second. -/
def State.reading (s : State) : Option ℕ :=
  match s.poll with
  | .discover _ i _ | .recheck _ i .active => some i
  | .idle | .fresh _ | .rescan .. | .recheck .. | .crashed => none

section Moves
variable {s s' : State} {k : ℕ} {r : Registration}

/-- What the next access of a registration, or the exit of its thread, does to its stage
and to the slots. -/
inductive Registration.Moves (r : Registration) (slots : ℕ → Entry) : Stage → (ℕ → Entry) → Prop
  | idle {stage : Stage} (hr : r.stage.slot = none) (hstage : stage.slot = none) :
      Moves r slots stage slots
  | fresh {i : ℕ} (hr : r.stage.slot = none) (hempty : (slots i).state = .empty) :
      Moves r slots (.writeTid i) slots
  | reclaim {i : ℕ} (hr : r.stage = .scan i) (hdead : (slots i).state = .dead) :
      Moves r slots (.writeTid i) (Function.update slots i { slots i with state := .initializing })
  | tid {i : ℕ} (hr : r.stage = .writeTid i) :
      Moves r slots (.writeName i) (Function.update slots i { slots i with tid := r.tid })
  | name {i : ℕ} (hr : r.stage = .writeName i) :
      Moves r slots (.publish i) (Function.update slots i { slots i with name := r.name.bytes })
  | publish {i : ℕ} (hr : r.stage = .publish i) :
      Moves r slots (.done i) (Function.update slots i { slots i with state := .active })
  | exit {i : ℕ} (hr : r.stage = .done i) :
      Moves r slots (.exited i) (Function.update slots i { slots i with state := .dead })

theorem advance_moves (h : Table s) (hs : s.advance k = some s') :
    ∃ r stage slots count, s.threads[k]? = some r ∧ r.Moves s.slots stage slots ∧
      s' = { s with slots := slots, threadCount := count,
                    threads := s.threads.set k { r with stage := stage } } := by
  unfold State.advance at hs
  split at hs
  · cases hs
  · rename_i r hk
    have hname := r.name.take_bytes
    split at hs
    · rename_i i hstage
      have hnone : r.stage.slot = none := by rw [hstage]; rfl
      split at hs
      · split at hs
        · rename_i hdead
          obtain rfl := Option.some.inj hs
          exact ⟨r, _, _, _, hk, .reclaim hstage hdead, rfl⟩
        · obtain rfl := Option.some.inj hs
          exact ⟨r, _, _, _, hk, .idle hnone rfl, rfl⟩
      · dsimp only at hs
        split at hs
        · obtain rfl := Option.some.inj hs
          exact ⟨r, _, _, _, hk, .idle hnone rfl, rfl⟩
        · obtain rfl := Option.some.inj hs
          exact ⟨r, _, _, _, hk, .fresh hnone (h.empty _ (.inl le_rfl)), rfl⟩
    · rename_i hstage
      obtain rfl := Option.some.inj hs
      exact ⟨r, _, _, _, hk, .idle (by rw [hstage]; rfl) rfl, rfl⟩
    · rename_i i hstage
      obtain rfl := Option.some.inj hs
      exact ⟨r, _, _, _, hk, .tid hstage, rfl⟩
    · rename_i i hstage
      rw [hname] at hs
      obtain rfl := Option.some.inj hs
      exact ⟨r, _, _, _, hk, .name hstage, rfl⟩
    · rename_i i hstage
      obtain rfl := Option.some.inj hs
      exact ⟨r, _, _, _, hk, .publish hstage, rfl⟩
    all_goals cases hs

theorem die_moves (hs : s.die k = some s') :
    ∃ r stage slots count, s.threads[k]? = some r ∧ r.Moves s.slots stage slots ∧
      (∀ i, r.stage ≠ .scan i) ∧
      s' = { s with slots := slots, threadCount := count,
                    threads := s.threads.set k { r with stage := stage } } := by
  unfold State.die at hs
  split at hs
  · cases hs
  · rename_i r hk
    split at hs
    · rename_i i hstage
      obtain rfl := Option.some.inj hs
      exact ⟨r, _, _, _, hk, .exit hstage, by simp [hstage], rfl⟩
    · cases hs

/-- The registration has published slot `i`, and its thread may have exited since. -/
def Registration.At (r : Registration) (i : ℕ) : Prop := r.stage = .done i ∨ r.stage = .exited i

theorem Registration.At.slot {i : ℕ} (h : r.At i) : r.stage.slot = some i := by
  rcases h with h | h <;> rw [h] <;> rfl

namespace Registration.Moves
variable {slots slots' : ℕ → Entry} {stage : Stage} {i : ℕ}

theorem slot_kept (h : r.Moves slots stage slots') (hi : r.stage.slot = some i) :
    stage.slot = some i := by
  cases h with
  | idle hr _ | fresh hr _ => rw [hr] at hi; cases hi
  | reclaim hr _ => rw [hr] at hi; cases hi
  | tid hr | name hr | publish hr | exit hr => rw [hr] at hi; exact hi

theorem at_kept (h : r.Moves slots stage slots') (hi : r.At i) :
    Registration.At { r with stage := stage } i := by
  rcases hi with hi | hi
  · cases h with
    | idle hr _ | fresh hr _ => rw [hi] at hr; cases hr
    | reclaim hr _ | tid hr | name hr | publish hr => rw [hi] at hr; cases hr
    | exit hr =>
        rw [hi] at hr
        obtain rfl := Stage.done.inj hr
        exact .inr rfl
  · cases h with
    | idle hr _ | fresh hr _ => rw [hi] at hr; cases hr
    | reclaim hr _ | tid hr | name hr | publish hr | exit hr => rw [hi] at hr; cases hr

/-- A registration is published from its last stage. -/
theorem of_done (h : r.Moves slots stage slots') (hi : stage = .done i) :
    r.stage = .publish i := by
  subst hi
  cases h with
  | idle _ hstage => cases hstage
  | publish hr => exact hr

/-- A registration comes to hold a slot when it reclaims it, or as a new one. -/
theorem of_holds (h : r.Moves slots stage slots') (hi : stage.holds = some i) :
    r.stage.holds = some i ∨ r.stage.slot = none := by
  cases h with
  | idle hr _ | fresh hr _ => exact .inr hr
  | reclaim hr _ => exact .inr (by rw [hr]; rfl)
  | tid hr | name hr | publish hr => rw [hr]; exact .inl hi
  | exit hr => cases hi

end Registration.Moves

theorem mem_set_or {α : Type*} {as : List α} {a a' b : α} (hk : as[k]? = some a) (hb : b ∈ as) :
    b ∈ as.set k a' ∨ b = a := by
  obtain ⟨j, hj⟩ := List.mem_iff_getElem?.mp hb
  by_cases hjk : j = k
  · rw [hjk, hk] at hj
    exact .inr (Option.some.inj hj).symm
  · exact .inl (mem_set_of_ne hjk hj)

end Moves

/-- What a slot holds of the thread id of its owner. -/
def Registration.Stamp (r : Registration) (slots : ℕ → Entry) : Prop :=
  match r.stage with
  | .writeName i | .publish i | .done i => (slots i).tid = r.tid
  | .scan _ | .writeTid _ | .undo | .exited _ | .failed => True

theorem Registration.Stamp.update {r : Registration} {slots : ℕ → Entry} {i : ℕ} {e : Entry}
    (h : r.Stamp slots) (hi : r.stage.holds ≠ some i) : r.Stamp (Function.update slots i e) := by
  obtain ⟨tid, name, stage⟩ := r
  cases stage with
  | writeName j | publish j | done j =>
      have hj : j ≠ i := fun h => hi (congrArg some h)
      simpa only [Registration.Stamp, Function.update_of_ne hj] using h
  | scan _ | writeTid _ | undo | exited _ | failed => exact h

/-- Whose thread id and name a slot holds, while neither is used twice. -/
structure Stamped (s : State) : Prop where
  names : (s.threads.map fun r => r.name.bytes).Nodup
  tids : (s.threads.map Registration.tid).Nodup
  stamp : ∀ r ∈ s.threads, r.Stamp s.slots
  written : ∀ i, (s.slots i).state ≠ .empty →
    ∃ r ∈ s.threads, r.stage.slot = some i ∧ (s.slots i).tid = r.tid
  used : ∀ i, (s.slots i).state = .active ∨ (s.slots i).state = .dead →
    ∃ r ∈ s.threads, r.At i ∧ (s.slots i).tid = r.tid ∧ (s.slots i).name = r.name.bytes
  live : ∀ i, (s.slots i).state = .active → ∃ r ∈ s.threads, r.stage = .done i

namespace Stamped
variable {s : State} {k i : ℕ} {r x y : Registration} {stage : Stage} {slots : ℕ → Entry}

theorem init : Stamped .init := by
  constructor <;> simp [State.init]

theorem eq_of_name (h : Stamped s) (hx : x ∈ s.threads) (hy : y ∈ s.threads)
    (hname : x.name.bytes = y.name.bytes) : x = y :=
  List.inj_on_of_nodup_map h.names hx hy hname

theorem eq_of_tid (h : Stamped s) (hx : x ∈ s.threads) (hy : y ∈ s.threads)
    (htid : x.tid = y.tid) : x = y :=
  List.inj_on_of_nodup_map h.tids hx hy htid

theorem start (h : Stamped s) {tid : UInt16} {name : ShmName}
    (hnew : ∀ r ∈ s.threads, r.tid ≠ tid ∧ r.name.bytes ≠ name.bytes) :
    Stamped { s with threads := s.threads ++ [⟨tid, name, .scan 0⟩] } where
  names := by
    rw [List.map_append, List.map_singleton]
    refine List.nodup_append.mpr ⟨h.names, List.nodup_singleton _, ?_⟩
    intro a ha b hb
    obtain ⟨r, hr, rfl⟩ := List.mem_map.mp ha
    rw [List.mem_singleton.mp hb]
    exact (hnew r hr).2
  tids := by
    rw [List.map_append, List.map_singleton]
    refine List.nodup_append.mpr ⟨h.tids, List.nodup_singleton _, ?_⟩
    intro a ha b hb
    obtain ⟨r, hr, rfl⟩ := List.mem_map.mp ha
    rw [List.mem_singleton.mp hb]
    exact (hnew r hr).1
  stamp := by
    intro r hr
    rcases List.mem_append.mp hr with hr | hr
    · exact h.stamp r hr
    · rw [List.mem_singleton.mp hr]
      trivial
  written := by
    intro i hi
    obtain ⟨r, hr, hslot⟩ := h.written i hi
    exact ⟨r, List.mem_append_left _ hr, hslot⟩
  used := by
    intro i hi
    obtain ⟨r, hr, hat⟩ := h.used i hi
    exact ⟨r, List.mem_append_left _ hr, hat⟩
  live := by
    intro i hi
    obtain ⟨r, hr, hstage⟩ := h.live i hi
    exact ⟨r, List.mem_append_left _ hr, hstage⟩

/-- A registration keeps what it was found with when one of them moves on. -/
theorem kept {P : Registration → Prop} (hk : s.threads[k]? = some r) {r' : Registration}
    (hP : P r → P r') (hx : ∃ x ∈ s.threads, P x) : ∃ x ∈ s.threads.set k r', P x := by
  obtain ⟨x, hx, hPx⟩ := hx
  rcases mem_set_or hk hx with hx | rfl
  · exact ⟨x, hx, hPx⟩
  · exact ⟨r', mem_set_self hk, hP hPx⟩

/-- A move writes the thread id that its own slot is stamped with. -/
theorem stamp_moves (h : Stamped s) (ht : Table s) (hk : s.threads[k]? = some r)
    (hm : r.Moves s.slots stage slots) :
    ∀ x ∈ s.threads.set k { r with stage := stage }, x.Stamp slots := by
  have hstamp := h.stamp r (List.mem_of_getElem? hk)
  intro x hx
  rcases mem_set_cases hx with rfl | ⟨k', hne, hk'⟩
  · cases hm with
    | idle _ hstage => cases stage <;> trivial
    | fresh _ _ | reclaim _ _ | exit _ => trivial
    | tid hr => simp [Registration.Stamp]
    | name hr | publish hr =>
        rw [Registration.Stamp, hr] at hstamp
        simpa [Registration.Stamp] using hstamp
  · have hother := h.stamp x (List.mem_of_getElem? hk')
    cases hm with
    | idle _ _ | fresh _ _ => exact hother
    | reclaim _ hdead => exact hother.update (ht.free_of_dead hdead k' x hne hk')
    | tid hr | name hr | publish hr | exit hr =>
        exact hother.update (ht.free_of_held hk (by rw [hr]; rfl) k' x hne hk')

/-- A slot in use by a registration still is after a move. -/
theorem written_moves (h : Stamped s) (hk : s.threads[k]? = some r)
    (hm : r.Moves s.slots stage slots) (i : ℕ) (hi : (slots i).state ≠ .empty) :
    ∃ x ∈ s.threads.set k { r with stage := stage },
      x.stage.slot = some i ∧ (slots i).tid = x.tid := by
  have hstamp := h.stamp r (List.mem_of_getElem? hk)
  have hwritten {i : ℕ} (hi : (s.slots i).state ≠ .empty) :
      ∃ x ∈ s.threads.set k { r with stage := stage },
        x.stage.slot = some i ∧ (s.slots i).tid = x.tid :=
    kept hk (fun ⟨hslot, htid⟩ => ⟨hm.slot_kept hslot, htid⟩) (h.written i hi)
  cases hm with
  | idle _ _ | fresh _ _ => exact hwritten hi
  | @reclaim j hr hdead =>
      by_cases hij : i = j
      · subst hij
        obtain ⟨x, hx, hslot⟩ := hwritten (i := i) (by rw [hdead]; simp)
        exact ⟨x, hx, by simpa using hslot⟩
      · simp only [Function.update_of_ne hij] at hi ⊢
        exact hwritten hi
  | @tid j hr =>
      by_cases hij : i = j
      · subst hij
        exact ⟨_, mem_set_self hk, rfl, by simp⟩
      · simp only [Function.update_of_ne hij] at hi ⊢
        exact hwritten hi
  | @name j hr | @publish j hr | @exit j hr =>
      rw [Registration.Stamp, hr] at hstamp
      by_cases hij : i = j
      · subst hij
        exact ⟨_, mem_set_self hk, rfl, by simpa using hstamp⟩
      · simp only [Function.update_of_ne hij] at hi ⊢
        exact hwritten hi

/-- A published slot keeps its owner, and a move that publishes one makes it its own. -/
theorem used_moves (h : Stamped s) (ht : Table s) (hk : s.threads[k]? = some r)
    (hm : r.Moves s.slots stage slots) (i : ℕ)
    (hi : (slots i).state = .active ∨ (slots i).state = .dead) :
    ∃ x ∈ s.threads.set k { r with stage := stage },
      x.At i ∧ (slots i).tid = x.tid ∧ (slots i).name = x.name.bytes := by
  have hmem := List.mem_of_getElem? hk
  have hfits := ht.fits r hmem
  have hstamp := h.stamp r hmem
  have hused {i : ℕ} (hi : (s.slots i).state = .active ∨ (s.slots i).state = .dead) :
      ∃ x ∈ s.threads.set k { r with stage := stage },
        x.At i ∧ (s.slots i).tid = x.tid ∧ (s.slots i).name = x.name.bytes :=
    kept hk (fun ⟨hat, heq⟩ => ⟨hm.at_kept hat, heq⟩) (h.used i hi)
  cases hm with
  | idle _ _ | fresh _ _ => exact hused hi
  | @reclaim j hr hdead =>
      by_cases hij : i = j
      · subst hij
        simp at hi
      · simp only [Function.update_of_ne hij] at hi ⊢
        exact hused hi
  | @tid j hr | @name j hr =>
      rw [Registration.Fits, hr] at hfits
      by_cases hij : i = j
      · subst hij
        simp only [Function.update_self] at hi
        rcases hfits with hstate | hstate <;> rw [hstate] at hi <;> simp at hi
      · simp only [Function.update_of_ne hij] at hi ⊢
        exact hused hi
  | @publish j hr =>
      rw [Registration.Stamp, hr] at hstamp
      rw [Registration.Fits, hr] at hfits
      by_cases hij : i = j
      · subst hij
        exact ⟨_, mem_set_self hk, .inl rfl, by simpa using hstamp, by simpa using hfits.2⟩
      · simp only [Function.update_of_ne hij] at hi ⊢
        exact hused hi
  | @exit j hr =>
      rw [Registration.Stamp, hr] at hstamp
      rw [Registration.Fits, hr] at hfits
      by_cases hij : i = j
      · subst hij
        exact ⟨_, mem_set_self hk, .inr rfl, by simpa using hstamp, by simpa using hfits.2⟩
      · simp only [Function.update_of_ne hij] at hi ⊢
        exact hused hi

/-- An active slot is that of a thread that has not exited. -/
theorem live_moves (h : Stamped s) (ht : Table s) (hk : s.threads[k]? = some r)
    (hm : r.Moves s.slots stage slots) (i : ℕ) (hi : (slots i).state = .active) :
    ∃ x ∈ s.threads.set k { r with stage := stage }, x.stage = .done i := by
  have hfits := ht.fits r (List.mem_of_getElem? hk)
  -- it stays published, unless it is the mover that exits
  have hlive (hi : (s.slots i).state = .active) (hstay : r.stage = .done i → stage = .done i) :
      ∃ x ∈ s.threads.set k { r with stage := stage }, x.stage = .done i :=
    kept hk hstay (h.live i hi)
  have hnot (hnone : r.stage.slot = none) : r.stage = .done i → stage = .done i := by
    intro hstage
    rw [hstage] at hnone
    cases hnone
  cases hm with
  | idle hr _ | fresh hr _ => exact hlive hi (hnot hr)
  | @reclaim j hr hdead =>
      have hij : i ≠ j := by
        rintro rfl
        simp at hi
      rw [Function.update_of_ne hij] at hi
      exact hlive hi (hnot (by rw [hr]; rfl))
  | @tid j hr | @name j hr =>
      simp only [Registration.Fits, hr] at hfits
      have hij : i ≠ j := by
        rintro rfl
        simp only [Function.update_self] at hi
        simp [hi] at hfits
      rw [Function.update_of_ne hij] at hi
      exact hlive hi (by simp [hr])
  | @publish j hr =>
      by_cases hij : i = j
      · subst hij
        exact ⟨_, mem_set_self hk, rfl⟩
      · rw [Function.update_of_ne hij] at hi
        exact hlive hi (by simp [hr])
  | @exit j hr =>
      have hij : i ≠ j := by
        rintro rfl
        simp at hi
      rw [Function.update_of_ne hij] at hi
      exact hlive hi (by simp [hr, Ne.symm hij])

/-- A thread writes to its own slot only. -/
theorem moves (h : Stamped s) (ht : Table s) (hk : s.threads[k]? = some r)
    (hm : r.Moves s.slots stage slots) {count : ℕ} :
    Stamped { s with slots := slots, threadCount := count,
                     threads := s.threads.set k { r with stage := stage } } := by
  have hset {β : Type} (f : Registration → β) (hf : f { r with stage := stage } = f r) :
      (s.threads.set k { r with stage := stage }).map f = s.threads.map f := by
    obtain ⟨hlt, rfl⟩ := List.getElem?_eq_some_iff.mp hk
    rw [List.map_set, hf, ← List.map_set, List.set_getElem_self]
  constructor
  · rw [hset _ rfl]
    exact h.names
  · rw [hset _ rfl]
    exact h.tids
  · exact h.stamp_moves ht hk hm
  · exact h.written_moves hk hm
  · exact h.used_moves ht hk hm
  · exact h.live_moves ht hk hm

end Stamped

/-- Slot `i` names a ring. -/
def State.InUse (s : State) (i : ℕ) : Prop :=
  (s.slots i).state = .active ∨ (s.slots i).state = .dead

/-- What the poll knows of the slot that it stands at. -/
def State.Found (s : State) : Prop :=
  match s.poll with
  | .idle | .fresh _ | .crashed => True
  | .discover _ i state =>
      i < s.knownCount ∧ s.InUse i ∧ (state = .dead → (s.slots i).state = .dead)
  | .rescan count _ => count ≤ s.knownCount
  | .recheck count i .active =>
      count ≤ s.knownCount ∧ i < count ∧ s.InUse i ∧
        ∀ x ∈ s.rings, x.name = (s.slots i).name → x.alive = true
  | .recheck count i .dead =>
      count ≤ s.knownCount ∧ i < count ∧ (s.slots i).state ≠ .empty ∧
        ∀ x ∈ s.rings, ∀ r ∈ s.threads, r.name.bytes = x.name → r.stage.holds ≠ some i
  | .recheck count _ _ => count ≤ s.knownCount

/-- The first loop of the polls has passed slot `i`. -/
def State.Behind (s : State) (i : ℕ) : Prop :=
  i < s.knownCount ∧ ∀ count state, s.poll ≠ .discover count i state

/-- The rings are those of different threads, published in slots that meet `P`, and the
ring of a thread that has not exited is alive. -/
structure Listed (threads : List Registration) (P : ℕ → Prop) (rings : List ThreadRing) : Prop where
  owned : ∀ x ∈ rings, ∃ r ∈ threads, r.name.bytes = x.name ∧ r.tid = x.tid ∧ ∃ i, r.At i ∧ P i
  once : (rings.map ThreadRing.name).Nodup
  alive : ∀ x ∈ rings, ∀ r ∈ threads, ∀ i, r.stage = .done i → r.name.bytes = x.name →
    x.alive = true

/-- The rings and the threads they belong to. -/
structure Once (s : State) : Prop where
  registered : Registered s
  stamped : Stamped s
  listed : Listed s.threads s.Behind s.rings
  known : ∀ i, s.knownCount ≤ i → (s.slots i).state ≠ .initializing
  found : s.Found

namespace Registration.Moves
variable {r : Registration} {slots slots' : ℕ → Entry} {stage : Stage} {i : ℕ}

/-- A slot in use is only marked dead, when it is not reclaimed. -/
theorem inUse (h : r.Moves slots stage slots') (hfits : r.Fits slots)
    (hquiet : r.stage = .scan i → (slots i).state ≠ .dead)
    (hi : (slots i).state = .active ∨ (slots i).state = .dead) :
    ((slots' i).state = .active ∨ (slots' i).state = .dead) ∧
      (slots' i).name = (slots i).name ∧
        ((slots i).state = .dead → (slots' i).state = .dead) := by
  -- a registration under way has a slot that is not in use
  have hother {j : ℕ} (hj : (slots j).state = .empty ∨ (slots j).state = .initializing) :
      i ≠ j := by
    rintro rfl
    rcases hi with hi | hi <;> rw [hi] at hj <;> simp at hj
  cases h with
  | idle _ _ | fresh _ _ => exact ⟨hi, rfl, id⟩
  | @reclaim j hr hdead =>
      have hij : i ≠ j := by
        rintro rfl
        exact hquiet hr hdead
      simp only [Function.update_of_ne hij]
      exact ⟨hi, trivial, id⟩
  | @tid j hr | @name j hr =>
      rw [Registration.Fits, hr] at hfits
      simp only [Function.update_of_ne (hother hfits)]
      exact ⟨hi, trivial, id⟩
  | @publish j hr =>
      rw [Registration.Fits, hr] at hfits
      simp only [Function.update_of_ne (hother hfits.1)]
      exact ⟨hi, trivial, id⟩
  | @exit j hr =>
      by_cases hij : i = j
      · subst hij
        simp
      · simp only [Function.update_of_ne hij]
        exact ⟨hi, trivial, id⟩

theorem state_ne_empty (h : r.Moves slots stage slots') (hi : (slots i).state ≠ .empty) :
    (slots' i).state ≠ .empty := by
  cases h with
  | idle _ _ | fresh _ _ => exact hi
  | @tid j _ | @name j _ =>
      by_cases hij : i = j
      · subst hij
        simpa using hi
      · simpa only [Function.update_of_ne hij] using hi
  | @reclaim j _ _ | @publish j _ | @exit j _ =>
      by_cases hij : i = j
      · subst hij
        simp
      · simpa only [Function.update_of_ne hij] using hi

/-- Only a reclaimed slot becomes one under registration. -/
theorem initializing (h : r.Moves slots stage slots')
    (hi : (slots' i).state = .initializing) :
    (slots i).state = .initializing ∨ r.stage = .scan i ∧ (slots i).state = .dead := by
  cases h with
  | idle _ _ | fresh _ _ => exact .inl hi
  | @reclaim j hr hdead =>
      by_cases hij : i = j
      · subst hij
        exact .inr ⟨hr, hdead⟩
      · rw [Function.update_of_ne hij] at hi
        exact .inl hi
  | @tid j _ | @name j _ | @publish j _ | @exit j _ =>
      by_cases hij : i = j
      · subst hij
        simp only [Function.update_self, reduceCtorEq] at hi
        try exact .inl hi
      · rw [Function.update_of_ne hij] at hi
        exact .inl hi

end Registration.Moves

section Flags
variable {p : ThreadRing → Bool} {rings : List ThreadRing}

theorem map_markFirst : (markFirst p rings).map ThreadRing.name = rings.map ThreadRing.name := by
  induction rings with
  | nil => rfl
  | cons r rs ih =>
      unfold markFirst
      split
      · rfl
      · rw [List.map_cons, List.map_cons, ih]

/-- A ring is as it was, or it is the marked one. -/
theorem mem_markFirst {y : ThreadRing} (hy : y ∈ markFirst p rings) :
    ∃ x ∈ rings, y.name = x.name ∧ y.tid = x.tid ∧ (y.alive = x.alive ∨ p x = true) := by
  induction rings with
  | nil => cases hy
  | cons r rs ih =>
      unfold markFirst at hy
      split at hy
      · rename_i hp
        rcases List.mem_cons.mp hy with rfl | hy
        · exact ⟨r, List.mem_cons_self, rfl, rfl, .inr hp⟩
        · exact ⟨y, List.mem_cons_of_mem _ hy, rfl, rfl, .inl rfl⟩
      · rcases List.mem_cons.mp hy with rfl | hy
        · exact ⟨y, List.mem_cons_self, rfl, rfl, .inl rfl⟩
        · obtain ⟨x, hx, hsame⟩ := ih hy
          exact ⟨x, List.mem_cons_of_mem _ hx, hsame⟩

/-- The same for the ring at a position. -/
theorem mem_modify {j : ℕ} {y : ThreadRing}
    (hy : y ∈ rings.modify j fun r => { r with alive := false }) :
    ∃ x ∈ rings, y.name = x.name ∧ y.tid = x.tid ∧ (y.alive = x.alive ∨ rings[j]? = some x) := by
  obtain ⟨i, hi⟩ := List.mem_iff_getElem?.mp hy
  rw [List.getElem?_modify] at hi
  obtain ⟨x, hx, rfl⟩ := Option.map_eq_some_iff.mp hi
  refine ⟨x, List.mem_of_getElem? hx, ?_⟩
  split
  · rename_i hji
    exact ⟨rfl, rfl, .inr (hji ▸ hx)⟩
  · exact ⟨rfl, rfl, .inl rfl⟩

theorem map_modify {j : ℕ} :
    (rings.modify j fun r => { r with alive := false }).map ThreadRing.name =
      rings.map ThreadRing.name := by
  refine List.ext_getElem? fun i => ?_
  rw [List.getElem?_map, List.getElem?_map, List.getElem?_modify]
  cases rings[i]? with
  | none => rfl
  | some r =>
      simp only [Option.map_some]
      split <;> rfl

end Flags

/-- Steps of the threads leave the poll with what it has found, when the slot that it
reads stays in use under its name, and no tracked ring's thread comes to hold a slot. -/
theorem State.Found.threads {s s' : State} (h : s.Found) (hpoll : s'.poll = s.poll)
    (hknown : s'.knownCount = s.knownCount) (hrings : s'.rings = s.rings)
    (hused : ∀ i, s.reading = some i → s.InUse i → s'.InUse i ∧
      (s'.slots i).name = (s.slots i).name ∧
        ((s.slots i).state = .dead → (s'.slots i).state = .dead))
    (hempty : ∀ i, (s.slots i).state ≠ .empty → (s'.slots i).state ≠ .empty)
    (hholds : ∀ x ∈ s.rings, ∀ r' ∈ s'.threads, r'.name.bytes = x.name → ∀ i,
      r'.stage.holds = some i →
        ∃ r ∈ s.threads, r.name.bytes = r'.name.bytes ∧ r.stage.holds = some i) : s'.Found := by
  unfold State.Found at h ⊢
  rw [hpoll, hknown, hrings]
  cases hp : s.poll with
  | idle | fresh _ | crashed => trivial
  | rescan count j =>
      rw [hp] at h
      exact h
  | discover count i state =>
      rw [hp] at h
      obtain ⟨hlt, hi, hdead⟩ := h
      obtain ⟨hi', -, hdead'⟩ := hused i (by rw [State.reading, hp]) hi
      exact ⟨hlt, hi', fun hstate => hdead' (hdead hstate)⟩
  | recheck count i state =>
      rw [hp] at h
      cases state with
      | active =>
          obtain ⟨hle, hlt, hi, halive⟩ := h
          obtain ⟨hi', hname, -⟩ := hused i (by rw [State.reading, hp]) hi
          exact ⟨hle, hlt, hi', by rwa [hname]⟩
      | dead =>
          obtain ⟨hle, hlt, hi, hheld⟩ := h
          refine ⟨hle, hlt, hempty i hi, fun x hx r' hr' hname hr'i => ?_⟩
          obtain ⟨r, hr, hsame, hri⟩ := hholds x hx r' hr' hname i hr'i
          exact hheld x hx r hr (hsame.trans hname) hri
      | empty | initializing => exact h

namespace Listed
variable {threads : List Registration} {P Q : ℕ → Prop} {rings rings' : List ThreadRing}

theorem mono (h : Listed threads P rings) (hPQ : ∀ i, P i → Q i) : Listed threads Q rings where
  owned := by
    intro x hx
    obtain ⟨r, hr, hname, htid, i, hat, hi⟩ := h.owned x hx
    exact ⟨r, hr, hname, htid, i, hat, hPQ i hi⟩
  once := h.once
  alive := h.alive

/-- A ring is opened that was not in the list. -/
theorem push (h : Listed threads P rings) {r : Registration} {i : ℕ} (hr : r ∈ threads)
    (hat : r.At i) (hi : P i) (hnew : ∀ x ∈ rings, x.name ≠ r.name.bytes) :
    Listed threads P (rings ++ [⟨r.name.bytes, r.tid, true⟩]) where
  owned := by
    intro x hx
    rcases List.mem_append.mp hx with hx | hx
    · exact h.owned x hx
    · rw [List.mem_singleton.mp hx]
      exact ⟨r, hr, rfl, rfl, i, hat, hi⟩
  once := by
    rw [List.map_append, List.map_singleton]
    refine List.nodup_append.mpr ⟨h.once, List.nodup_singleton _, fun a ha b hb => ?_⟩
    obtain ⟨x, hx, rfl⟩ := List.mem_map.mp ha
    rw [List.mem_singleton.mp hb]
    exact hnew x hx
  alive := by
    intro x hx r' hr' j hstage hname
    rcases List.mem_append.mp hx with hx | hx
    · exact h.alive x hx r' hr' j hstage hname
    · rw [List.mem_singleton.mp hx]

/-- Flags of rings are cleared whose threads have exited. -/
theorem clear (h : Listed threads P rings)
    (hnames : rings'.map ThreadRing.name = rings.map ThreadRing.name)
    (hmem : ∀ y ∈ rings', ∃ x ∈ rings, y.name = x.name ∧ y.tid = x.tid ∧ (y.alive = x.alive ∨
      ∀ r ∈ threads, ∀ i, r.stage = .done i → r.name.bytes ≠ x.name)) :
    Listed threads P rings' where
  owned := by
    intro y hy
    obtain ⟨x, hx, hname, htid, -⟩ := hmem y hy
    rw [hname, htid]
    exact h.owned x hx
  once := by
    rw [hnames]
    exact h.once
  alive := by
    intro y hy r hr i hstage hname
    obtain ⟨x, hx, hsame, -, halive | hcleared⟩ := hmem y hy
    · rw [halive]
      exact h.alive x hx r hr i hstage (hname.trans hsame)
    · exact absurd (hname.trans hsame) (hcleared r hr i hstage)

end Listed

namespace Once
variable {s s' : State} {x : ThreadRing} {r : Registration} {k i : ℕ}

theorem init : Once .init where
  registered := .init
  stamped := .init
  listed := by constructor <;> simp [State.init]
  known := by simp [State.init]
  found := trivial

/-- The registration of a tracked ring has been published, in a slot that the poll has
passed. -/
theorem passed (h : Once s) (hx : x ∈ s.rings) (hr : r ∈ s.threads)
    (hname : r.name.bytes = x.name) : r.tid = x.tid ∧ ∃ i, r.At i ∧ s.Behind i := by
  obtain ⟨y, hy, hyname, htid, hat⟩ := h.listed.owned x hx
  obtain rfl := h.stamped.eq_of_name hr hy (hname.trans hyname.symm)
  exact ⟨htid, hat⟩

theorem start (h : Once s) {tid : UInt16} {name : ShmName}
    (hnew : ∀ r ∈ s.threads, r.tid ≠ tid ∧ r.name.bytes ≠ name.bytes)
    (hs : Discovery.step (.start tid name) s = some s') : Once s' := by
  have hregistered := h.registered.step hs
  obtain rfl := Option.some.inj hs
  refine ⟨hregistered, h.stamped.start hnew, ⟨?_, h.listed.once, ?_⟩, h.known, ?_⟩
  · intro x hx
    obtain ⟨r, hr, hat⟩ := h.listed.owned x hx
    exact ⟨r, List.mem_append_left _ hr, hat⟩
  · intro x hx r hr i hstage hname
    rcases List.mem_append.mp hr with hr | hr
    · exact h.listed.alive x hx r hr i hstage hname
    · rw [List.mem_singleton.mp hr] at hstage
      cases hstage
  · refine h.found.threads rfl rfl rfl (fun _ _ hi => ⟨hi, rfl, id⟩) (fun _ hi => hi) ?_
    intro x hx r hr hname i hholds
    rcases List.mem_append.mp hr with hr | hr
    · exact ⟨r, hr, rfl, hholds⟩
    · rw [List.mem_singleton.mp hr] at hholds
      cases hholds

/-- A thread registers further or exits. -/
theorem moves (h : Once s) (hk : s.threads[k]? = some r) {stage : Stage} {slots : ℕ → Entry}
    (hm : r.Moves s.slots stage slots) (hs' : s'.threads = s.threads.set k { r with stage := stage } ∧
      s'.slots = slots ∧ s'.rings = s.rings ∧ s'.knownCount = s.knownCount ∧ s'.poll = s.poll)
    (hregistered : Registered s') (hstamped : Stamped s')
    (hquiet : ∀ i, r.stage = .scan i → (s.slots i).state = .dead →
      i < s.knownCount ∧ s.reading ≠ some i) : Once s' := by
  obtain ⟨hthreads, rfl, hrings, hknown, hpoll⟩ := hs'
  have hmem := List.mem_of_getElem? hk
  have hfits := h.registered.table.fits r hmem
  -- a registration after the step is one of before, or the mover
  have hback {r' : Registration} (hr' : r' ∈ s'.threads) :
      r' ∈ s.threads ∨ r' = { r with stage := stage } := by
    rw [hthreads] at hr'
    rcases mem_set_cases hr' with heq | ⟨_, -, hk'⟩
    · exact .inr heq
    · exact .inl (List.mem_of_getElem? hk')
  refine ⟨hregistered, hstamped, ⟨?_, ?_, ?_⟩, ?_, ?_⟩
  · intro x hx
    rw [hrings] at hx
    obtain ⟨y, hy, hname, htid, i, hat, hi⟩ := h.listed.owned x hx
    rw [State.Behind, ← hknown, ← hpoll] at hi
    rw [hthreads]
    rcases mem_set_or hk hy with hy | rfl
    · exact ⟨y, hy, hname, htid, i, hat, hi⟩
    · exact ⟨_, mem_set_self hk, hname, htid, i, hm.at_kept hat, hi⟩
  · rw [hrings]
    exact h.listed.once
  · intro x hx r' hr' i hstage hname
    rw [hrings] at hx
    rcases hback hr' with hr' | rfl
    · exact h.listed.alive x hx r' hr' i hstage hname
    · -- the mover was about to publish: its ring is not tracked yet
      obtain ⟨-, j, hat, -⟩ := h.passed hx hmem hname
      rcases hat with hat | hat <;> rw [hm.of_done hstage] at hat <;> cases hat
  · intro i hi hstate
    rw [hknown] at hi
    rcases hm.initializing hstate with hstate | ⟨hscan, hdead⟩
    · exact h.known i hi hstate
    · exact absurd (hquiet i hscan hdead).1 (Nat.not_lt_of_le hi)
  · refine h.found.threads hpoll hknown hrings ?_ (fun _ => hm.state_ne_empty) ?_
    · intro i hreading hi
      exact hm.inUse hfits (fun hscan hdead => (hquiet i hscan hdead).2 hreading) hi
    · intro x hx r' hr' hname i hholds
      rcases hback hr' with hr' | rfl
      · exact ⟨r', hr', rfl, hholds⟩
      · rcases hm.of_holds hholds with hheld | hnone
        · exact ⟨r, hmem, rfl, hheld⟩
        · obtain ⟨-, j, hat, -⟩ := h.passed hx hmem hname
          rw [hat.slot] at hnone
          cases hnone

/-- The poll goes on from what it has read. -/
theorem polled (h : Once s) (hthreads : s'.threads = s.threads) (hslots : s'.slots = s.slots)
    (hcount : s'.threadCount = s.threadCount) (hknown : s.knownCount ≤ s'.knownCount)
    (hlisted : Listed s.threads s'.Behind s'.rings) (hfound : s'.Found) : Once s' where
  registered := h.registered.of_frame hthreads hslots hcount
  stamped := by
    obtain ⟨hnames, htids, hstamp, hwritten, hused, hlive⟩ := h.stamped
    constructor <;> rw [hthreads] <;> try rw [hslots]
    · exact hnames
    · exact htids
    · exact hstamp
    · exact hwritten
    · exact hused
    · exact hlive
  listed := by rwa [hthreads]
  known := by
    intro i hi
    rw [hslots]
    exact h.known i (hknown.trans hi)
  found := hfound

theorem opened_eq (s : State) (i : ℕ) : s.opened i = s.rings ∨
    s.opened i = s.rings ++ [⟨(s.slots i).name, (s.slots i).tid, true⟩] := by
  unfold State.opened
  split
  · exact .inl rfl
  · split
    · exact .inr rfl
    · exact .inl rfl

/-- Opening the ring of a slot in use, when it is not tracked. -/
theorem opened (h : Once s) {P : ℕ → Prop} (hlisted : Listed s.threads P s.rings)
    (hi : s.InUse i) (hP : P i) (hnew : ∀ x ∈ s.rings, x.name ≠ (s.slots i).name) :
    Listed s.threads P (s.opened i) := by
  rcases opened_eq s i with hsame | hpush
  · rwa [hsame]
  · obtain ⟨r, hr, hat, htid, hname⟩ := h.stamped.used i hi
    rw [hpush, htid, hname]
    refine hlisted.push hr hat hP fun x hx => ?_
    rw [← hname]
    exact hnew x hx

/-- The slot that the first loop reads names a ring that is not tracked. -/
theorem untracked_of_discover (h : Once s) {count : ℕ} {state : SlotState}
    (hpoll : s.poll = .discover count i state) (hi : s.InUse i) (hx : x ∈ s.rings) :
    x.name ≠ (s.slots i).name := by
  intro heq
  obtain ⟨r, hr, hat, -, hname⟩ := h.stamped.used i hi
  obtain ⟨-, j, hj, -, hother⟩ := h.passed hx hr (hname.symm.trans heq.symm)
  have hij : i = j := Option.some.inj (hat.slot.symm.trans hj.slot)
  exact hother count state (hij ▸ hpoll)

/-- So does an active slot that the second loop reads, when its thread has no live ring. -/
theorem untracked_of_recheck (h : Once s) (hi : s.InUse i)
    (halive : ∀ x ∈ s.rings, x.name = (s.slots i).name → x.alive = true)
    (hunknown : ¬(s.rings.any fun r => r.tid == (s.slots i).tid && r.alive) = true)
    (hx : x ∈ s.rings) : x.name ≠ (s.slots i).name := by
  intro heq
  obtain ⟨r, hr, -, htid, hname⟩ := h.stamped.used i hi
  obtain ⟨hsame, -⟩ := h.passed hx hr (hname.symm.trans heq.symm)
  refine hunknown (List.any_eq_true.mpr ⟨x, hx, ?_⟩)
  simp [halive x hx heq, htid, hsame]

/-- No live thread has the thread id of a dead slot. -/
theorem exited_of_dead (h : Once s) (hdead : (s.slots i).state = .dead) (hr : r ∈ s.threads)
    (htid : r.tid = (s.slots i).tid) (j : ℕ) : r.stage ≠ .done j := by
  intro hstage
  obtain ⟨r', hr', hat, htid', -⟩ := h.stamped.used i (.inr hdead)
  obtain rfl := h.stamped.eq_of_tid hr hr' (htid.trans htid')
  have hat' : r.At j := .inl hstage
  have hij : j = i := Option.some.inj (hat'.slot.symm.trans hat.slot)
  have hfits := h.registered.table.fits r hr
  simp only [Registration.Fits, hstage, hij, hdead] at hfits
  cases hfits.1

/-- The first loop goes on to the next slot. -/
theorem engine_fresh (h : Once s) {count : ℕ} (hpoll : s.poll = .fresh count)
    (hs : s.engine = some s') : Once s' := by
  have hlisted := h.listed
  unfold State.engine at hs
  rw [hpoll] at hs
  dsimp only at hs
  have hbehind {i known : ℕ} {poll : Poll} (hlt : s.knownCount ≤ known) (hi : s.Behind i)
      (hnew : ∀ count state, poll ≠ .discover count i state) :
      State.Behind { s with knownCount := known, poll := poll } i :=
    ⟨Nat.lt_of_lt_of_le hi.1 hlt, hnew⟩
  split at hs
  · split at hs
    · obtain rfl := Option.some.inj hs
      exact h.polled rfl rfl rfl le_rfl
        (hlisted.mono fun i hi => hbehind le_rfl hi (by simp)) trivial
    · split at hs
      · rename_i hinit
        exact absurd hinit (h.known _ le_rfl)
      · obtain rfl := Option.some.inj hs
        exact h.polled rfl rfl rfl (Nat.le_succ _)
          (hlisted.mono fun i hi => hbehind (Nat.le_succ _) hi (by simp))
          (by simp [State.Found])
      · rename_i hinit hempty
        obtain rfl := Option.some.inj hs
        refine h.polled rfl rfl rfl (Nat.le_succ _)
          (hlisted.mono fun i hi => hbehind (Nat.le_succ _) hi ?_)
          ⟨Nat.lt_succ_self _, ?_, id⟩
        · rintro count' state' heq
          have hlt := hi.1
          rw [Poll.discover.injEq] at heq
          omega
        · cases hstate : (s.slots s.knownCount).state with
          | active => exact .inl hstate
          | dead => exact .inr hstate
          | empty => exact absurd hstate hempty
          | initializing => exact absurd hstate hinit
  · rename_i hpassed
    obtain rfl := Option.some.inj hs
    exact h.polled rfl rfl rfl le_rfl
      (hlisted.mono fun i hi => hbehind le_rfl hi (by simp)) (Nat.not_lt.mp hpassed)

/-- The first loop opens the ring of the slot that it found in use. -/
theorem engine_discover (h : Once s) {count i : ℕ} {state : SlotState}
    (hpoll : s.poll = .discover count i state) (hs : s.engine = some s') : Once s' := by
  have hfound := h.found
  have hlisted := h.listed
  unfold State.engine at hs
  unfold State.Found at hfound
  rw [hpoll] at hs hfound
  obtain ⟨hlt, hi, hdead⟩ := hfound
  obtain rfl := Option.some.inj hs
  refine h.polled rfl rfl rfl le_rfl ?_ trivial
  have hopened : Listed s.threads (fun j => j < s.knownCount) (s.opened i) :=
    h.opened (hlisted.mono fun j hj => hj.1) hi hlt fun x hx =>
      h.untracked_of_discover hpoll hi hx
  have hbehind (j : ℕ) (hj : j < s.knownCount) (rings : List ThreadRing) :
      State.Behind { s with rings := rings, poll := .fresh count } j := ⟨hj, by simp⟩
  refine Listed.mono ?_ fun j hj => hbehind j hj _
  dsimp only
  split
  · rename_i hmark
    refine hopened.clear map_markFirst fun y hy => ?_
    obtain ⟨x, hx, hname, htid, hflag⟩ := mem_markFirst hy
    refine ⟨x, hx, hname, htid, hflag.imp_right fun hsame r hr j hstage hr' => ?_⟩
    obtain ⟨r', hr'', hname', htid', -⟩ := hopened.owned x hx
    obtain rfl := h.stamped.eq_of_name hr hr'' (hr'.trans hname'.symm)
    exact h.exited_of_dead (hdead hmark.1) hr (htid'.trans (beq_iff_eq.mp hsame)) j hstage
  · exact hopened

/-- The second loop goes on to the next slot. -/
theorem engine_rescan (h : Once s) {count i : ℕ} (hpoll : s.poll = .rescan count i)
    (hs : s.engine = some s') : Once s' := by
  have hfound := h.found
  have hlisted := h.listed
  unfold State.engine at hs
  unfold State.Found at hfound
  rw [hpoll] at hs hfound
  dsimp only at hs hfound
  have hbehind {j : ℕ} {poll : Poll} (hj : s.Behind j)
      (hnew : ∀ count state, poll ≠ .discover count j state) :
      State.Behind { s with poll := poll } j := ⟨hj.1, hnew⟩
  split at hs
  · rename_i hi
    split at hs
    · obtain rfl := Option.some.inj hs
      exact h.polled rfl rfl rfl le_rfl (hlisted.mono fun j hj => hbehind hj (by simp)) trivial
    · obtain rfl := Option.some.inj hs
      refine h.polled rfl rfl rfl le_rfl (hlisted.mono fun j hj => hbehind hj (by simp)) ?_
      unfold State.Found
      dsimp only
      cases hstate : (s.slots i).state with
      | active =>
          refine ⟨hfound, hi, .inl hstate, fun x hx hname => ?_⟩
          obtain ⟨r, hr, hdone⟩ := h.stamped.live i hstate
          have hfits := h.registered.table.fits r hr
          rw [Registration.Fits, hdone] at hfits
          exact hlisted.alive x hx r hr i hdone (hfits.2.symm.trans hname.symm)
      | dead =>
          refine ⟨hfound, hi, by simp [hstate], fun x hx r hr _ hholds => ?_⟩
          exact (h.registered.table.fits r hr).not_dead hholds hstate
      | empty | initializing => exact hfound
  · obtain rfl := Option.some.inj hs
    exact h.polled rfl rfl rfl le_rfl (hlisted.mono fun j hj => hbehind hj (by simp)) trivial

/-- The second loop opens or retires the ring of the slot that it stands at. -/
theorem engine_recheck (h : Once s) {count i : ℕ} {state : SlotState}
    (hpoll : s.poll = .recheck count i state) (hs : s.engine = some s') : Once s' := by
  have hfound := h.found
  have hlisted := h.listed
  unfold State.engine at hs
  unfold State.Found at hfound
  rw [hpoll] at hs hfound
  obtain rfl := Option.some.inj hs
  have hbehind (j : ℕ) (hj : s.Behind j) (rings : List ThreadRing) :
      State.Behind { s with rings := rings, poll := .rescan count (i + 1) } j :=
    ⟨hj.1, by simp⟩
  cases state with
  | active =>
      obtain ⟨hle, hlt, hi, halive⟩ := hfound
      refine h.polled rfl rfl rfl le_rfl ?_ hle
      refine Listed.mono ?_ fun j hj => hbehind j hj _
      dsimp only
      split
      · exact hlisted
      · rename_i hunknown
        exact h.opened hlisted hi ⟨by omega, by simp [hpoll]⟩ fun x hx =>
          h.untracked_of_recheck hi halive hunknown hx
  | dead =>
      obtain ⟨hle, hlt, hi, hheld⟩ := hfound
      refine h.polled rfl rfl rfl le_rfl ?_ hle
      refine Listed.mono ?_ fun j hj => hbehind j hj _
      refine hlisted.clear map_markFirst fun y hy => ?_
      obtain ⟨x, hx, hname, htid, hflag⟩ := mem_markFirst hy
      refine ⟨x, hx, hname, htid, hflag.imp_right fun hsame r hr j hstage hr' => ?_⟩
      simp only [Bool.and_eq_true, beq_iff_eq] at hsame
      -- the slot still holds the thread id of its last owner or of the one to come
      obtain ⟨r', hr'', hslot, htid'⟩ := h.stamped.written i hi
      obtain ⟨htid'', -⟩ := h.passed hx hr hr'
      obtain rfl := h.stamped.eq_of_tid hr hr'' (htid''.trans (hsame.1.trans htid'))
      rw [hstage] at hslot
      obtain rfl := Option.some.inj hslot
      exact hheld x hx r hr hr' (by rw [hstage]; rfl)
  | empty | initializing =>
      exact h.polled rfl rfl rfl le_rfl (hlisted.mono fun j hj => hbehind j hj _) hfound

theorem engine (h : Once s) (hs : s.engine = some s') : Once s' := by
  cases hpoll : s.poll with
  | idle | crashed =>
      rw [State.engine, hpoll] at hs
      cases hs
  | fresh count => exact h.engine_fresh hpoll hs
  | discover count i state => exact h.engine_discover hpoll hs
  | rescan count i => exact h.engine_rescan hpoll hs
  | recheck count i state => exact h.engine_recheck hpoll hs

theorem poll (h : Once s) (hs : Discovery.step .poll s = some s') : Once s' := by
  simp only [Discovery.step] at hs
  split at hs
  · rename_i hidle
    obtain rfl := Option.some.inj hs
    exact h.polled rfl rfl rfl le_rfl (h.listed.mono fun i hi => ⟨hi.1, by simp⟩) trivial
  · cases hs

/-- A ring that no active slot names is retired. -/
theorem retire (h : Once s) (hidle : s.poll = .idle) {j : ℕ}
    (hquiet : ∀ x, s.rings[j]? = some x →
      ∀ i < MAX_THREADS, (s.slots i).state = .active → (s.slots i).name ≠ x.name) :
    Once { s with rings := s.rings.modify j fun r => { r with alive := false } } := by
  refine h.polled rfl rfl rfl le_rfl ?_ (by simp [State.Found, hidle])
  refine Listed.clear h.listed map_modify fun y hy => ?_
  obtain ⟨x, hx, hname, htid, hflag⟩ := mem_modify hy
  refine ⟨x, hx, hname, htid, hflag.imp_right fun hj r hr i hstage heq => ?_⟩
  have hfits := h.registered.table.fits r hr
  obtain ⟨-, hi⟩ := h.registered.table.bound r hr i (by rw [hstage]; rfl)
  rw [Registration.Fits, hstage] at hfits
  exact hquiet x hj i hi hfits.1 (hfits.2.trans heq)

end Once

end Rtmap.Ring.Discovery
