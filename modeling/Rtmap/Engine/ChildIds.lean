import Rtmap.Engine.Drain
import Rtmap.Lib.SwapRemove
import Rtmap.Lib.Transition

/-!
# Thread ids of the children

`ChildProcessTracker` numbers a child by its place in a vector that retirement
compacts. A run of attachments, retirements and drains is watched with the
process in each place and the thread ids handed out.
-/
namespace Rtmap.Engine
open Rtmap.Ring Transition SwapRemove

/-- `namespace_child_tid`. -/
def namespaceChildTid (raw : UInt16) (childIdx : ℕ) : UInt16 :=
  ((UInt16.ofNat childIdx + 1) <<< 8) ||| (raw &&& 0xFF)

def CHILD_EMPTY_TICK_RETIRE : ℕ := 150

/-- What `discover` finds outside: the control pages and their target and parent
pids, the live processes, the pending pids that expired and those whose page can
be attached, the children that are gone and the shared regions. -/
structure Discovery where
  ctlPids : List UInt32 := []
  identity : UInt32 → Option (UInt32 × UInt32) := fun _ => none
  alive : UInt32 → Bool := fun _ => true
  expired : UInt32 → Bool := fun _ => false
  /-- the target pid of the page that is attached -/
  attached : UInt32 → Option (Option UInt32) := fun _ => none
  gone : UInt32 → Bool := fun _ => false
  sharedRegion : Option (UInt64 → Option String) := none

namespace ChildTracker

/-- `is_known_pid`. -/
def isKnownPid (t : ChildTracker) (pid : UInt32) : Bool :=
  t.rootPid == some pid || t.children.any fun c => c.pid == some pid

/-- One control page, as the scan treats it. -/
def adopt (d : Discovery) (t : ChildTracker) (pid : UInt32) : ChildTracker :=
  if t.isKnownPid pid || t.pendingPids.contains pid || !d.alive pid then t
  else
    match d.identity pid with
    | some (target, parent) =>
        if target = pid ∧ t.isKnownPid parent then t.registerFork pid else t
    | none => t

/-- `scan_shm_for_children`. -/
def scan (d : Discovery) (t : ChildTracker) : ChildTracker :=
  if t.rootPid.isNone then t else d.ctlPids.foldl (adopt d) t

/-- The pending pids after expiry, and the children attached from them. -/
def attach (d : Discovery) (t : ChildTracker) : ChildTracker :=
  let r := sweep (fun pid => (d.attached pid).isSome) (sweep d.expired t.pendingPids).1
  { t with
    pendingPids := r.1
    children := t.children ++ r.2.map fun pid => { pid := (d.attached pid).join } }

/-- A child whose process is gone and whose rings have been empty long enough. -/
def retires (d : Discovery) (c : Child) : Bool :=
  (match c.pid with
    | some pid => d.gone pid
    | none => false) && c.emptyTicks ≥ CHILD_EMPTY_TICK_RETIRE

/-- `refresh_shared_regions`. -/
def refresh (d : Discovery) (t : ChildTracker) : ChildTracker :=
  let pids := t.rootPid.toList ++ t.children.filterMap Child.pid
  { t with
    sharedRegion := if pids.length < 2 then fun _ => none else d.sharedRegion.getD t.sharedRegion
    sharedRegionsStale := false }

/-- `discover`. -/
def discover (d : Discovery) (t : ChildTracker) : ChildTracker :=
  let t := t.scan d
  let hadPending := !t.pendingPids.isEmpty
  let t' := t.attach d
  let attachedNew := t.children.length < t'.children.length
  let kept := (sweep (retires d) t'.children).1
  let t'' := { t' with
    children := kept
    sharedRegionsStale := t'.sharedRegionsStale || kept.length < t'.children.length }
  if (hadPending || attachedNew) && t''.sharedRegionsStale then t''.refresh d else t''

/-- The walk of `batch_drain` over the children: their counters of empty ticks
and what is drained, with the place of the child it comes from. -/
def drainFrom (limit : ℕ) (batches : ℕ → List Event) :
    ℕ → ℕ → List Child → List Child × List (ℕ × Event)
  | _, _, [] => ([], [])
  | ci, total, c :: cs =>
      if total ≥ limit then (c :: cs, [])
      else
        let evs := batches ci
        let ticks := if evs.isEmpty then min (c.emptyTicks + 1) (2 ^ 32 - 1) else 0
        let r := drainFrom limit batches (ci + 1) (total + evs.length) cs
        ({ c with emptyTicks := ticks } :: r.1, evs.map (fun ev => (ci, ev)) ++ r.2)

/-- `batch_drain`: the events under their new thread ids. -/
def batchDrain (limit : ℕ) (batches : ℕ → List Event) (t : ChildTracker) :
    ChildTracker × List Event :=
  let r := drainFrom limit batches 0 0 t.children
  ({ t with children := r.1 },
    r.2.map fun x => { x.2 with threadId := namespaceChildTid x.2.threadId x.1 })

end ChildTracker

/-- A thread id handed out to an event of a process, the root being none. -/
structure Given where
  process : Option ℕ
  raw : UInt16
  id : UInt16
deriving DecidableEq

/-- The tracker with the process in each place and the ids handed out. -/
structure ChildWatch where
  tracker : ChildTracker := {}
  processes : List ℕ := []
  next : ℕ := 0
  given : List Given := []

inductive ChildInput where
  | rootPid (pid : UInt32)
  | fork (pid : UInt32)
  | discover (d : Discovery)
  | root (evs : List Event)
  | drain (limit : ℕ) (batches : ℕ → List Event)

namespace ChildWatch

/-- The processes behind the children once the pending ones are attached: a
child that is new in the vector is a new process. -/
def attached (d : Discovery) (w : ChildWatch) : List (Child × ℕ) :=
  let children := ((w.tracker.scan d).attach d).children
  children.zip (w.processes ++ List.range' w.next (children.length - w.processes.length))

/-- The processes by place after a discovery. -/
def kept (d : Discovery) (w : ChildWatch) : List ℕ :=
  (sweep (fun x => ChildTracker.retires d x.1) (w.attached d)).1.map Prod.snd

/-- The ids that a drain hands out. -/
def handOut (processes : List ℕ) (drained : List (ℕ × Event)) : List Given :=
  drained.map fun x => ⟨processes[x.1]?, x.2.threadId, namespaceChildTid x.2.threadId x.1⟩

def apply (w : ChildWatch) : ChildInput → ChildWatch
  | .rootPid pid => { w with tracker := { w.tracker with rootPid := some pid } }
  | .fork pid => { w with tracker := w.tracker.registerFork pid }
  | .discover d =>
      { w with
        tracker := w.tracker.discover d
        processes := w.kept d
        next := w.next + (((w.tracker.scan d).attach d).children.length - w.processes.length) }
  | .root evs =>
      { w with given := w.given ++ evs.map fun ev => ⟨none, ev.threadId, ev.threadId⟩ }
  | .drain limit batches =>
      { w with
        tracker := (w.tracker.batchDrain limit batches).1
        given := w.given ++
          handOut w.processes (ChildTracker.drainFrom limit batches 0 0 w.tracker.children).2 }

def step (i : ChildInput) (w : ChildWatch) : Option ChildWatch := some (w.apply i)

/-- The process can still produce events: the root, and children not retired. -/
def Current (w : ChildWatch) : Option ℕ → Prop
  | none => True
  | some p => p ∈ w.processes

/-- A thread of a process keeps its id, and no other current one has it. -/
structure Namespaced (w : ChildWatch) : Prop where
  stable : ∀ g ∈ w.given, ∀ h ∈ w.given, g.process = h.process → g.raw = h.raw → g.id = h.id
  distinct : ∀ g ∈ w.given, ∀ h ∈ w.given, w.Current g.process → w.Current h.process →
    (g.process ≠ h.process ∨ g.raw ≠ h.raw) → g.id ≠ h.id

end ChildWatch

/-- Raw ids fit in a byte and places in the other one, and a discovery leaves the
children of which events have been drained in their places. -/
def Fits : ChildInput → ChildWatch → Prop
  | .root evs, _ => ∀ ev ∈ evs, ev.threadId.toNat < 256
  | .drain limit batches, w =>
      ∀ x ∈ (ChildTracker.drainFrom limit batches 0 0 w.tracker.children).2,
        x.1 < 255 ∧ x.2.threadId.toNat < 256
  | .discover d, w =>
      ∀ i p : ℕ, w.processes[i]? = some p → (∃ g ∈ w.given, g.process = some p) → p ∈ w.kept d →
        (w.kept d)[i]? = some p
  | _, _ => True

section Tracker

theorem toNat_namespaceChildTid {raw : UInt16} {idx : ℕ} (hidx : idx < 255) (hraw : raw.toNat < 256) :
    (namespaceChildTid raw idx).toNat = (idx + 1) * 256 + raw.toNat := by
  have hlow : raw.toNat &&& (2 ^ 8 - 1) = raw.toNat := by
    rw [Nat.and_two_pow_sub_one_eq_mod]
    exact Nat.mod_eq_of_lt hraw
  have hplace : (UInt16.ofNat idx + 1).toNat = idx + 1 := by
    rw [UInt16.toNat_add, UInt16.toNat_ofNat', show (1 : UInt16).toNat = 1 from rfl]
    omega
  have hhigh : ((UInt16.ofNat idx + 1) <<< 8).toNat = (idx + 1) <<< 8 := by
    rw [UInt16.toNat_shiftLeft, hplace, show (8 : UInt16).toNat % 16 = 8 from rfl, Nat.shiftLeft_eq]
    exact Nat.mod_eq_of_lt (by omega)
  rw [namespaceChildTid, UInt16.toNat_or, UInt16.toNat_and, hhigh,
    show (0xFF : UInt16).toNat = 2 ^ 8 - 1 from rfl, hlow, ← Nat.shiftLeft_add_eq_or_of_lt hraw,
    Nat.shiftLeft_eq]

@[simp] theorem children_registerFork (t : ChildTracker) (pid : UInt32) :
    (t.registerFork pid).children = t.children := by
  rw [ChildTracker.registerFork]
  split <;> rfl

theorem children_adopt (d : Discovery) (t : ChildTracker) (pid : UInt32) :
    (t.adopt d pid).children = t.children := by
  rw [ChildTracker.adopt]
  split
  · rfl
  · split
    · split
      · exact children_registerFork t pid
      · rfl
    · rfl

theorem children_scan (d : Discovery) (t : ChildTracker) : (t.scan d).children = t.children := by
  have hfold : ∀ pids : List UInt32, (pids.foldl (ChildTracker.adopt d) t).children = t.children := by
    intro pids
    induction pids generalizing t with
    | nil => rfl
    | cons pid pids ih => rw [List.foldl_cons, ih, children_adopt]
  rw [ChildTracker.scan]
  split
  · rfl
  · exact hfold d.ctlPids

theorem children_discover (d : Discovery) (t : ChildTracker) :
    (t.discover d).children = (sweep (ChildTracker.retires d) ((t.scan d).attach d).children).1 := by
  simp only [ChildTracker.discover]
  split <;> rfl

theorem length_drainFrom (limit : ℕ) (batches : ℕ → List Event) (ci total : ℕ) (cs : List Child) :
    (ChildTracker.drainFrom limit batches ci total cs).1.length = cs.length ∧
      ∀ x ∈ (ChildTracker.drainFrom limit batches ci total cs).2, ci ≤ x.1 ∧ x.1 < ci + cs.length := by
  induction cs generalizing ci total with
  | nil => simp [ChildTracker.drainFrom]
  | cons c cs ih =>
      rw [ChildTracker.drainFrom]
      split
      · simp
      · obtain ⟨hlen, hplace⟩ := ih (ci + 1) (total + (batches ci).length)
        refine ⟨by simp [hlen], fun x hx => ?_⟩
        rcases List.mem_append.mp hx with hx | hx
        · obtain ⟨ev, -, rfl⟩ := List.mem_map.mp hx
          simp
        · have h := hplace x hx
          rw [List.length_cons]
          omega

theorem length_attached {w : ChildWatch} (h : w.processes.length = w.tracker.children.length)
    (d : Discovery) :
    ((w.tracker.scan d).attach d).children.length =
      (w.processes ++ List.range' w.next
        (((w.tracker.scan d).attach d).children.length - w.processes.length)).length := by
  have hmore : w.tracker.children.length ≤ ((w.tracker.scan d).attach d).children.length := by
    rw [ChildTracker.attach, List.length_append, children_scan]
    omega
  rw [List.length_append, List.length_range', h]
  omega

theorem length_kept {w : ChildWatch} (h : w.processes.length = w.tracker.children.length)
    (d : Discovery) : (w.kept d).length = (w.tracker.discover d).children.length := by
  rw [ChildWatch.kept, List.length_map, ← List.length_map Prod.fst, map_sweep Prod.fst,
    ChildWatch.attached, List.map_fst_zip (length_attached h d).le, children_discover]

/-- A discovery keeps processes it knew and new ones, each once. -/
theorem perm_kept {w : ChildWatch} (h : w.processes.length = w.tracker.children.length)
    (d : Discovery) : ∃ gone, (gone ++ w.kept d).Perm (w.processes ++ List.range' w.next
      (((w.tracker.scan d).attach d).children.length - w.processes.length)) := by
  have hperm := (sweep_perm (fun x => ChildTracker.retires d x.1) (w.attached d)).map Prod.snd
  rw [List.map_append, ChildWatch.attached, List.map_snd_zip (length_attached h d).ge] at hperm
  exact ⟨_, hperm⟩

end Tracker

/-- Every process has one place, where it is found as long as it is in the vector. -/
structure Placed (w : ChildWatch) (place : ℕ → ℕ) : Prop where
  root : ∀ g ∈ w.given, g.process = none → g.raw.toNat < 256 ∧ g.id = g.raw
  child : ∀ g ∈ w.given, ∀ p, g.process = some p →
    g.raw.toNat < 256 ∧ place p < 255 ∧ g.id = namespaceChildTid g.raw (place p) ∧
      p < w.next ∧ (p ∈ w.processes → w.processes[place p]? = some p)

structure Tracked (w : ChildWatch) : Prop where
  length_eq : w.processes.length = w.tracker.children.length
  nodup : w.processes.Nodup
  old : ∀ p ∈ w.processes, p < w.next
  placed : ∃ place, Placed w place

section Steps

variable {w : ChildWatch}

theorem tracked_discover (h : Tracked w) {d : Discovery} (hfits : Fits (.discover d) w) :
    Tracked (w.apply (.discover d)) := by
  obtain ⟨gone, hperm⟩ := perm_kept h.length_eq d
  obtain ⟨place, hplace⟩ := h.placed
  have hall : (w.processes ++ List.range' w.next
      (((w.tracker.scan d).attach d).children.length - w.processes.length)).Nodup := by
    refine List.nodup_append.mpr ⟨h.nodup, List.nodup_range', fun p hp q hq heq => ?_⟩
    have hlt := h.old p hp
    have hge := (List.mem_range'_1.mp hq).1
    omega
  have hmem : ∀ p ∈ w.kept d, p ∈ w.processes ∨ w.next ≤ p ∧ p < w.next +
      (((w.tracker.scan d).attach d).children.length - w.processes.length) := by
    intro p hp
    rcases List.mem_append.mp (hperm.mem_iff.mp (List.mem_append_right gone hp)) with hp | hp
    · exact .inl hp
    · exact .inr (List.mem_range'_1.mp hp)
  refine ⟨length_kept h.length_eq d, (List.nodup_append.mp (hperm.nodup_iff.mpr hall)).2.1, ?_,
    place, hplace.root, ?_⟩
  · intro p hp
    rcases hmem p hp with hp | ⟨-, hp⟩
    · exact Nat.lt_add_right _ (h.old p hp)
    · exact hp
  · intro g hg p hp
    obtain ⟨hraw, hlt, hid, hnext, hfound⟩ := hplace.child g hg p hp
    refine ⟨hraw, hlt, hid, Nat.lt_add_right _ hnext, fun hkept => ?_⟩
    have hknown : p ∈ w.processes := (hmem p hkept).resolve_right fun hnew => by omega
    exact hfits (place p) p (hfound hknown) ⟨g, hg, hp⟩ hkept

theorem tracked_root (h : Tracked w) {evs : List Event} (hfits : Fits (.root evs) w) :
    Tracked (w.apply (.root evs)) := by
  obtain ⟨place, hplace⟩ := h.placed
  refine ⟨h.length_eq, h.nodup, h.old, place, ?_, ?_⟩
  · intro g hg hp
    rcases List.mem_append.mp hg with hg | hg
    · exact hplace.root g hg hp
    · obtain ⟨ev, hev, rfl⟩ := List.mem_map.mp hg
      exact ⟨hfits ev hev, rfl⟩
  · intro g hg p hp
    rcases List.mem_append.mp hg with hg | hg
    · exact hplace.child g hg p hp
    · obtain ⟨ev, -, rfl⟩ := List.mem_map.mp hg
      cases hp

/-- A drain hands out ids by the places at the time. -/
theorem tracked_drain (h : Tracked w) {limit : ℕ} {batches : ℕ → List Event}
    (hfits : Fits (.drain limit batches) w) : Tracked (w.apply (.drain limit batches)) := by
  obtain ⟨place, hplace⟩ := h.placed
  obtain ⟨hlen, hrange⟩ := length_drainFrom limit batches 0 0 w.tracker.children
  -- a process in the vector is placed where it is, the others where they were
  have hidx : ∀ {i p : ℕ}, w.processes[i]? = some p → w.processes.idxOf p = i := by
    intro i p hi
    obtain ⟨hlt, rfl⟩ := List.getElem?_eq_some_iff.mp hi
    exact h.nodup.idxOf_getElem i hlt
  refine ⟨h.length_eq.trans hlen.symm, h.nodup, h.old,
    fun q => if q ∈ w.processes then w.processes.idxOf q else place q, ?_, ?_⟩
  · intro g hg hp
    rcases List.mem_append.mp hg with hg | hg
    · exact hplace.root g hg hp
    · obtain ⟨x, hx, rfl⟩ := List.mem_map.mp hg
      have hlt := (hrange x hx).2
      rw [Nat.zero_add, ← h.length_eq] at hlt
      rw [List.getElem?_eq_getElem hlt] at hp
      cases hp
  · intro g hg p hp
    rcases List.mem_append.mp hg with hg | hg
    · obtain ⟨hraw, hlt, hid, hnext, hfound⟩ := hplace.child g hg p hp
      have hsame : (if p ∈ w.processes then w.processes.idxOf p else place p) = place p := by
        split
        · rename_i hmem
          exact hidx (hfound hmem)
        · rfl
      rw [hsame]
      exact ⟨hraw, hlt, hid, hnext, hfound⟩
    · obtain ⟨x, hx, rfl⟩ := List.mem_map.mp hg
      have hmem : p ∈ w.processes := List.mem_of_getElem? hp
      rw [if_pos hmem, hidx hp]
      exact ⟨(hfits x hx).2, (hfits x hx).1, rfl, h.old p hmem, fun _ => hp⟩

theorem tracked_step {i : ChildInput} {v : ChildWatch} (h : Tracked w) (hfits : Fits i w)
    (hstep : ChildWatch.step i w = some v) : Tracked v := by
  cases hstep
  cases i with
  | rootPid pid => exact ⟨h.length_eq, h.nodup, h.old, h.placed.imp fun _ k => ⟨k.root, k.child⟩⟩
  | fork pid =>
      refine ⟨?_, h.nodup, h.old, h.placed.imp fun _ k => ⟨k.root, k.child⟩⟩
      rw [ChildWatch.apply, children_registerFork]
      exact h.length_eq
  | discover d => exact tracked_discover h hfits
  | root evs => exact tracked_root h hfits
  | drain limit batches => exact tracked_drain h hfits

/-- Ids by place name their thread, since each process has a place of its own. -/
theorem Tracked.namespaced (h : Tracked w) : w.Namespaced := by
  obtain ⟨place, hplace⟩ := h.placed
  refine ⟨?_, ?_⟩
  · intro g hg k hk hprocess hraw
    cases hp : g.process with
    | none =>
        rw [(hplace.root g hg hp).2, (hplace.root k hk (hprocess ▸ hp)).2, hraw]
    | some p =>
        obtain ⟨-, -, hid, -⟩ := hplace.child g hg p hp
        obtain ⟨-, -, hid', -⟩ := hplace.child k hk p (hprocess ▸ hp)
        rw [hid, hid', hraw]
  · intro g hg k hk hcur hcur' hne heq
    have hval := congrArg UInt16.toNat heq
    cases hp : g.process with
    | none =>
        obtain ⟨hraw, hid⟩ := hplace.root g hg hp
        cases hq : k.process with
        | none =>
            obtain ⟨-, hid'⟩ := hplace.root k hk hq
            rcases hne with hne | hne
            · exact hne (hp.trans hq.symm)
            · exact hne (hid ▸ hid' ▸ heq)
        | some q =>
            obtain ⟨hraw', hlt, hid', -⟩ := hplace.child k hk q hq
            rw [hid, hid', toNat_namespaceChildTid hlt hraw'] at hval
            omega
    | some p =>
        obtain ⟨hraw, hlt, hid, -, hfound⟩ := hplace.child g hg p hp
        cases hq : k.process with
        | none =>
            obtain ⟨hraw', hid'⟩ := hplace.root k hk hq
            rw [hid, hid', toNat_namespaceChildTid hlt hraw] at hval
            omega
        | some q =>
            obtain ⟨hraw', hlt', hid', -, hfound'⟩ := hplace.child k hk q hq
            rw [hid, hid', toNat_namespaceChildTid hlt hraw, toNat_namespaceChildTid hlt' hraw']
              at hval
            have hsame : place p = place q := by omega
            rw [hp] at hcur
            rw [hq] at hcur'
            have hpq : p = q := by
              have hp' := hfound hcur
              rw [hsame, hfound' hcur'] at hp'
              exact (Option.some.inj hp').symm
            rcases hne with hne | hne
            · exact hne (by rw [hp, hq, hpq])
            · exact hne (UInt16.toNat_inj.mp (by omega))

end Steps

/-- While ids fit in their bytes and no retirement moves a child that has produced
events, every thread keeps an id of its own. -/
theorem child_ids_namespaced {w : ChildWatch} (h : Reach ChildWatch.step Fits {} w) :
    w.Namespaced := by
  have htracked : Tracked w := by
    refine h.invariant ⟨rfl, List.nodup_nil, by simp, id, by simp, by simp⟩ ?_
    intro i u v hu hfits hstep
    exact tracked_step hu hfits hstep
  exact htracked.namespaced

/-- An event of a raw thread. -/
def threadEvent (tid : UInt16) : Event := { (default : Event) with threadId := tid }

/-- The discovery that attaches the control pages of the pids. -/
def attaching (pids : List UInt32) : Discovery where
  attached pid := if pid ∈ pids then some (some pid) else none

/-- The run of a root and one child, each with an event of its thread 1. -/
theorem child_ids_namespaced_of_one_child :
    Reach ChildWatch.step Fits {} (ChildWatch.apply (ChildWatch.apply (ChildWatch.apply
      (ChildWatch.apply {} (.fork 2)) (.discover (attaching [2]))) (.root [threadEvent 1]))
        (.drain 4096 fun _ => [threadEvent 1])) ∧
    (ChildWatch.apply (ChildWatch.apply (ChildWatch.apply
      (ChildWatch.apply {} (.fork 2)) (.discover (attaching [2]))) (.root [threadEvent 1]))
        (.drain 4096 fun _ => [threadEvent 1])).Namespaced := by
  have hrun : Reach ChildWatch.step Fits {} (ChildWatch.apply (ChildWatch.apply (ChildWatch.apply
      (ChildWatch.apply {} (.fork 2)) (.discover (attaching [2]))) (.root [threadEvent 1]))
        (.drain 4096 fun _ => [threadEvent 1])) := by
    refine .next (.next (.next (.next .start ?_ rfl) ?_ rfl) ?_ rfl) ?_ rfl
    · trivial
    · rintro i p - ⟨g, hg, -⟩
      cases hg
    · simp only [Fits]
      decide +kernel
    · simp only [Fits]
      decide +kernel
  exact ⟨hrun, child_ids_namespaced hrun⟩

/-- Two children are attached and the second produces an event; the first is idle
and exits, and the second produces another event. -/
def firstRetires : List ChildInput :=
  [.fork 2, .fork 3, .discover (attaching [2, 3]),
    .drain 4096 fun ci => if ci = 1 then [threadEvent 1] else []] ++
  List.replicate 150 (.drain 4096 fun _ => []) ++
  [.discover { gone := fun pid => pid == 2 }, .drain 4096 fun _ => [threadEvent 1]]

/-- Retirement moves the last child to the first place: its thread 1 has been
0x201 and is 0x101. -/
theorem retirement_renames_thread :
    ∃ w, exec ChildWatch.step firstRetires {} = some w ∧
      w.given = [⟨some 1, 1, 0x201⟩, ⟨some 1, 1, 0x101⟩] ∧ ¬ w.Namespaced := by
  have hgiven : ((exec ChildWatch.step firstRetires {}).map ChildWatch.given) =
      some [⟨some 1, 1, 0x201⟩, ⟨some 1, 1, 0x101⟩] := by decide +kernel
  obtain ⟨w, hw, hgiven⟩ := Option.map_eq_some_iff.mp hgiven
  refine ⟨w, hw, hgiven, fun h => ?_⟩
  have hstable := h.stable ⟨some 1, 1, 0x201⟩ (by simp [hgiven]) ⟨some 1, 1, 0x101⟩
    (by simp [hgiven]) rfl rfl
  exact absurd hstable (by decide)

end Rtmap.Engine
