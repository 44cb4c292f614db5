import Rtmap.Engine.LastStamp

/-!
# Bounds of heap writes

A WRITE is checked against the block that the tracker holds when the event is
processed. In another order than the program's that may be a block of another
time at the same address.
-/
namespace Rtmap.Engine
open Rtmap.Ring Transition

section Hazards
variable {host : Host} {ev : Event} {s : State}

namespace Write

theorem hazards_registered : (registered ev s).world.hazards = s.world.hazards := by
  obtain ⟨regs, h⟩ := registered_eq ev s
  rw [h]

theorem hazards_fields : (fields ev s).world.hazards = s.world.hazards := by
  obtain ⟨vs, topo, h⟩ := fields_eq ev s
  rw [h]

theorem hazards_propagate : (propagate host ev s).world.hazards = s.world.hazards := by
  obtain ⟨m, info, topo, h⟩ := propagate_eq host ev s
  rw [h]

theorem hazards_node : (node host ev s).world.hazards = s.world.hazards := by
  have hvalue (h : Interval) (s : State) : (value ev h s).world.hazards = s.world.hazards := by
    show (World.updateValue _ _ _).hazards = _
    exact of_core World.hazards ((core_updateValue _ _ _).trans (core_ensureNode _ _ _ _ _ _))
  have hstamp (name typeName : String) (s : State) :
      (stampPointee host ev name typeName s).world.hazards = s.world.hazards := by
    obtain ⟨m, log, info, topo, h⟩ := stampPointee_eq host ev s name typeName
    rw [h]
  simp only [node]
  split
  · rfl
  · split
    · rw [pointer]
      dsimp only
      split
      · exact hvalue _ _
      · split
        · exact (hstamp _ _ _).trans (hvalue _ _)
        · exact hvalue _ _
    · exact hvalue _ _

end Write

theorem hazards_processWrite (host : Host) (ev : Event) (s : State) :
    ∃ t : State, t.world.hazards = s.world.hazards ∧ t.world.heapAllocs = s.world.heapAllocs ∧
      (processWrite host ev s).world.hazards =
        if s.heapOracle.isHeap ev.addr = true then (Write.bounds ev t).world.hazards
        else s.world.hazards := by
  let c := Write.registered ev s
  have hkept : c.kept.fixed = s.kept.fixed := by simp [c, Write.registered]
  have hhazards : c.world.hazards = s.world.hazards := Write.hazards_registered
  have horacle : c.heapOracle = s.heapOracle := congrArg Kept.heapOracle hkept
  refine ⟨Write.propagate host ev (Write.fields ev (Write.graph ev c)), ?_, ?_, ?_⟩
  · rw [Write.hazards_propagate, Write.hazards_fields]
    exact hhazards
  · have hstages : (Write.propagate host ev (Write.fields ev (Write.graph ev c))).kept.fixed =
        s.kept.fixed := by
      rw [Write.kept_propagate, Write.kept_fields, Write.kept_graph, hkept]
    exact congrArg Kept.heapAllocs hstages
  · show (Write.node host ev (Write.heap host ev c)).world.hazards = _
    rw [Write.hazards_node, Write.heap, horacle]
    split
    · rfl
    · exact hhazards

theorem hazards_processAlloc : (processAlloc host ev s).world.hazards = s.world.hazards := by
  obtain ⟨m, allocs, log, g, info, topo, h⟩ := processAlloc_eq host ev s
  rw [h]

theorem hazards_processFree : (processFree ev s).world.hazards = s.world.hazards := by
  obtain ⟨m, allocs, log, g, topo, h⟩ := processFree_eq ev s
  rw [h]

/-- Only a heap WRITE adds a hazard: the one of its bounds check. -/
theorem hazards_processEvent (host : Host) (ev : Event) (s : State) :
    ∃ t : State, t.world.hazards = s.world.hazards ∧ t.world.heapAllocs = s.world.heapAllocs ∧
      (processEvent host ev s).world.hazards =
        if kindOf ev = .write ∧ s.heapOracle.isHeap ev.addr = true then
          (Write.bounds ev t).world.hazards
        else s.world.hazards := by
  by_cases hwrite : kindOf ev = .write
  · obtain ⟨t, hhazards, hallocs, h⟩ := hazards_processWrite host ev (countEvent s)
    refine ⟨t, hhazards, hallocs, ?_⟩
    rw [processEvent, processKind, hwrite]
    simp only [true_and]
    exact h
  · refine ⟨s, rfl, rfl, ?_⟩
    rw [if_neg fun h => hwrite h.1, processEvent, processKind]
    cases hkind : kindOf ev with
    | write => exact absurd hkind hwrite
    | call => exact (of_core World.hazards (core_processCall host ev (countEvent s)) :)
    | ret => exact (of_core World.hazards (core_processReturn ev (countEvent s)) :)
    | alloc => exact hazards_processAlloc (s := countEvent s)
    | free => exact hazards_processFree (s := countEvent s)
    | moduleLoad =>
        simp only [processModuleLoad]
        split
        · obtain ⟨m, hcore⟩ := core_populateGlobals host _ _ _ (countEvent s).world
          exact of_core World.hazards (v := { (countEvent s).world with stm := m }) hcore
        · rfl
    | _ => rfl

end Hazards

/-- The blocks that the events' program has live: the last ALLOC at the base, with
no FREE of it since. -/
def liveNext (live : UInt64 → Option UInt64) (e : HostEvent) : UInt64 → Option UInt64 :=
  match kindOf e.2 with
  | .alloc => Function.update live e.2.addr (some (Alloc.size e.2))
  | .free => Function.update live e.2.addr none
  | _ => live

def liveAfter (events : List HostEvent) : UInt64 → Option UInt64 :=
  events.foldl liveNext fun _ => none

/-- A state without out-of-bounds hazards. -/
def State.inBounds (s : State) : Prop := ∀ h ∈ s.world.hazards, h.kind ≠ .outOfBounds

/-- A WRITE whose check counts, on a heap address without a hazard yet while fewer
than 64 are recorded, is cut by no block: that which starts last at or below it,
of those the processed events leave live, reaches its end if it reaches its start. -/
def Uncut (front : List HostEvent) (e : HostEvent) (s : State) : Prop :=
  kindOf e.2 = .write → s.heapOracle.isHeap e.2.addr = true → s.world.hazards.length < 64 →
  (∀ prev ∈ s.world.hazards, prev.writeAddr ≠ e.2.addr) →
  e.2.addr.toNat + e.2.size.toNat < 2 ^ 64 →
  ∀ base size, liveAfter front base = some size → base ≤ e.2.addr →
    (∀ base', (liveAfter front base').isSome → base' ≤ e.2.addr → base' ≤ base) →
    e.2.addr.toNat < base.toNat + size.toNat →
      e.2.addr.toNat + e.2.size.toNat ≤ base.toNat + size.toNat

section Check

theorem allocSize_processEvent (e : HostEvent) (s : State) :
    (processEvent e.1 e.2 s).world.heapAllocs.allocSize =
      liveNext s.world.heapAllocs.allocSize e := by
  funext base
  rw [heapAllocs_processEvent, liveNext]
  cases kindOf e.2 with
  | alloc =>
      simp only [HeapAllocTracker.allocSize, HeapAllocTracker.onAlloc, SortedMap.get?_insert,
        Function.update_apply]
      split <;> rfl
  | free =>
      simp only [HeapAllocTracker.allocSize, HeapAllocTracker.onFree, SortedMap.get?_erase,
        Function.update_apply]
      split <;> rfl
  | _ => rfl

/-- The tracker holds the blocks that the events leave live. -/
theorem allocSize_runEvents (start : State) (events : List HostEvent) :
    (runEvents { start with world := {} } events).world.heapAllocs.allocSize = liveAfter events := by
  induction events using List.reverseRecOn with
  | nil => rfl
  | append_singleton front e ih =>
      rw [runEvents, List.foldl_append, liveAfter, List.foldl_append]
      exact (allocSize_processEvent e _).trans (congrArg (fun live => liveNext live e) ih)

/-- The block found by the tracker: that which starts last at or below the
address, if it reaches it. -/
theorem containingAlloc_eq_some {t : HeapAllocTracker} {addr base size : UInt64} :
    t.containingAlloc addr = some (base, size) ↔ t.allocSize base = some size ∧ base ≤ addr ∧
      (∀ base', (t.allocSize base').isSome → base' ≤ addr → base' ≤ base) ∧
        addr < saturatingAdd base size := by
  have hsome : ∀ b : UInt64, (t.allocSize b).isSome ↔ ∃ a, (b, a) ∈ t.allocs.entries := by
    intro b
    rw [HeapAllocTracker.allocSize, Option.isSome_map, Option.isSome_iff_exists]
    exact exists_congr fun a => SortedMap.get?_eq_some
  rw [HeapAllocTracker.containingAlloc]
  constructor
  · intro h
    split at h
    · rename_i b a hfloor
      obtain ⟨hin, hle, hmax⟩ := SortedMap.floor_eq_some.mp hfloor
      split at h
      · rename_i hlt
        cases h
        refine ⟨?_, hle, ?_, hlt⟩
        · rw [HeapAllocTracker.allocSize, SortedMap.get?_eq_some.mpr hin]
          rfl
        · intro base' hbase' hle'
          obtain ⟨a', ha'⟩ := (hsome base').mp hbase'
          exact hmax _ ha' hle'
      · cases h
    · cases h
  · rintro ⟨hsize, hle, hmax, hlt⟩
    obtain ⟨a, ha, rfl⟩ := Option.map_eq_some_iff.mp hsize
    have hfloor : t.allocs.floor addr = some (base, a) := by
      refine SortedMap.floor_eq_some.mpr ⟨SortedMap.get?_eq_some.mp ha, hle, fun e he hle' => ?_⟩
      exact hmax e.1 ((hsome e.1).mpr ⟨e.2, he⟩) hle'
    simp only [hfloor, if_pos hlt]

/-- The verdict of the bounds check. -/
def Overruns (live : UInt64 → Option UInt64) (addr : UInt64) (size : UInt32) : Prop :=
  addr.toNat + size.toNat < 2 ^ 64 ∧ ∃ base s, live base = some s ∧ base ≤ addr ∧
    (∀ base', (live base').isSome → base' ≤ addr → base' ≤ base) ∧
    addr.toNat < base.toNat + s.toNat ∧ base.toNat + s.toNat < addr.toNat + size.toNat

/-- A store overruns when the block found around its start ends before its end. -/
theorem overruns_iff (t : HeapAllocTracker) (addr : UInt64) (size : UInt32) :
    Overruns t.allocSize addr size ↔ ∃ writeEnd, checkedAdd addr size.toUInt64 = some writeEnd ∧
      ∃ base s, t.containingAlloc addr = some (base, s) ∧ writeEnd > saturatingAdd base s := by
  have hsize : size.toUInt64.toNat = size.toNat := UInt32.toNat_toUInt64 size
  have hend : addr.toNat + size.toNat < 2 ^ 64 →
      (addr + size.toUInt64).toNat = addr.toNat + size.toNat := by
    intro hwrap
    rw [UInt64.toNat_add, hsize, Nat.mod_eq_of_lt hwrap]
  rw [checkedAdd, hsize]
  constructor
  · rintro ⟨hwrap, base, s, hs, hle, hmax, hlt, hcut⟩
    refine ⟨_, if_pos hwrap, base, s, containingAlloc_eq_some.mpr ⟨hs, hle, hmax, ?_⟩, ?_⟩
    · rw [UInt64.lt_iff_toNat_lt, toNat_saturatingAdd]
      omega
    · rw [gt_iff_lt, UInt64.lt_iff_toNat_lt, toNat_saturatingAdd, hend hwrap]
      omega
  · rintro ⟨writeEnd, hadd, base, s, hfound, hcut⟩
    by_cases hwrap : addr.toNat + size.toNat < 2 ^ 64
    · rw [if_pos hwrap] at hadd
      cases hadd
      obtain ⟨hs, hle, hmax, hlt⟩ := containingAlloc_eq_some.mp hfound
      rw [UInt64.lt_iff_toNat_lt, toNat_saturatingAdd] at hlt
      rw [gt_iff_lt, UInt64.lt_iff_toNat_lt, toNat_saturatingAdd, hend hwrap] at hcut
      exact ⟨hwrap, base, s, hs, hle, hmax, by omega, by omega⟩
    · rw [if_neg hwrap] at hadd
      cases hadd

/-- A hazard is about the written address; it is out of bounds when the store overruns. -/
theorem checkWriteBounds_spec (t : HeapAllocTracker) (addr : UInt64) (size : UInt32)
    (stm : ShadowTypeMap) :
    match t.checkWriteBounds addr size stm with
    | some h => h.writeAddr = addr ∧ (h.kind = .outOfBounds ↔ Overruns t.allocSize addr size)
    | none => ¬ Overruns t.allocSize addr size := by
  rw [overruns_iff, HeapAllocTracker.checkWriteBounds]
  cases checkedAdd addr size.toUInt64 with
  | none => simp
  | some writeEnd =>
      cases t.containingAlloc addr with
      | none =>
          by_cases hspan : t.spans addr = true
          · simp [hspan]
          · simp [hspan]
      | some block =>
          obtain ⟨base, s⟩ := block
          by_cases hcut : writeEnd > saturatingAdd base s
          · simp [hcut]
          · simp [hcut]

/-- The check of a WRITE adds an out-of-bounds hazard when it counts and overruns. -/
theorem inBounds_bounds (ev : Event) (s : State) :
    (Write.bounds ev s).inBounds ↔ s.inBounds ∧ ¬ (s.world.hazards.length < 64 ∧
      (∀ prev ∈ s.world.hazards, prev.writeAddr ≠ ev.addr) ∧
      Overruns s.world.heapAllocs.allocSize ev.addr ev.size) := by
  have hspec := checkWriteBounds_spec s.world.heapAllocs ev.addr ev.size s.world.stm
  rw [Write.bounds]
  by_cases hroom : s.world.hazards.length < 64
  · rw [if_pos hroom]
    cases hcheck : s.world.heapAllocs.checkWriteBounds ev.addr ev.size s.world.stm with
    | none =>
        rw [hcheck] at hspec
        exact ⟨fun h => ⟨h, fun hbad => hspec hbad.2.2⟩, fun h => h.1⟩
    | some hz =>
        rw [hcheck] at hspec
        obtain ⟨haddr, hkind⟩ := hspec
        dsimp only
        rw [haddr]
        split
        · rename_i hskip
          refine ⟨fun h => ⟨h, fun hbad => ?_⟩, fun h => h.1⟩
          rcases Bool.or_eq_true_iff.mp hskip with hgrace | hdup
          · rw [Write.inGrace, hkind.mpr hbad.2.2] at hgrace
            cases hgrace
          · obtain ⟨prev, hprev, heq⟩ := List.any_eq_true.mp hdup
            exact hbad.2.1 prev hprev (beq_iff_eq.mp heq)
        · rename_i hkeep
          have hnew : ∀ prev ∈ s.world.hazards, prev.writeAddr ≠ ev.addr := by
            intro prev hprev heq
            exact hkeep (Bool.or_eq_true_iff.mpr
              (.inr (List.any_eq_true.mpr ⟨prev, hprev, beq_iff_eq.mpr heq⟩)))
          constructor
          · intro h
            refine ⟨fun prev hprev => h prev (List.mem_append_left _ hprev), fun hbad => ?_⟩
            exact h _ (List.mem_append_right _ (List.mem_singleton_self _)) (hkind.mpr hbad.2.2)
          · rintro ⟨hold, hnot⟩ prev hprev
            rcases List.mem_append.mp hprev with hprev | hprev
            · exact hold prev hprev
            · rw [List.mem_singleton.mp hprev]
              exact fun hbad => hnot ⟨hroom, hnew, hkind.mp hbad⟩
  · rw [if_neg hroom]
    exact ⟨fun h => ⟨h, fun hbad => hroom hbad.1⟩, fun h => h.1⟩

end Check

section Runs

/-- A step adds no out-of-bounds hazard exactly when its WRITE is not cut. -/
theorem inBounds_next (start : State) (front : List HostEvent) (e : HostEvent)
    (h : (runEvents { start with world := {} } front).inBounds) :
    (processEvent e.1 e.2 (runEvents { start with world := {} } front)).inBounds ↔
      Uncut front e (runEvents { start with world := {} } front) := by
  have hlive := allocSize_runEvents start front
  set s := runEvents { start with world := {} } front
  obtain ⟨t, hhazards, hallocs, hevent⟩ := hazards_processEvent e.1 e.2 s
  have ht : t.inBounds := by
    rw [State.inBounds, hhazards]
    exact h
  rw [State.inBounds, hevent]
  by_cases hheap : kindOf e.2 = .write ∧ s.heapOracle.isHeap e.2.addr = true
  · rw [if_pos hheap]
    refine (inBounds_bounds e.2 t).trans ?_
    rw [hhazards, hallocs, hlive]
    constructor
    · rintro ⟨-, hnot⟩ _ _ hroom hnew hwrap base size hbase hle hmax hlt
      by_contra hcut
      exact hnot ⟨hroom, hnew, hwrap, base, size, hbase, hle, hmax, hlt, by omega⟩
    · intro huncut
      refine ⟨ht, ?_⟩
      rintro ⟨hroom, hnew, hwrap, base, size, hbase, hle, hmax, hlt, hcut⟩
      have hfits := huncut hheap.1 hheap.2 hroom hnew hwrap base size hbase hle hmax hlt
      omega
  · rw [if_neg hheap]
    exact iff_of_true h fun hwrite hisHeap => absurd ⟨hwrite, hisHeap⟩ hheap

/-- In whatever order the events are processed, no out-of-bounds hazard is recorded
if and only if no WRITE is cut by a block of the events processed before it. -/
theorem inBounds_iff (start : State) (events : List HostEvent) :
    (∀ front, front <+: events → (runEvents { start with world := {} } front).inBounds) ↔
      ∀ front e, front ++ [e] <+: events →
        Uncut front e (runEvents { start with world := {} } front) := by
  refine forall_prefix_iff (fun h hh => by cases hh) (fun front e h => ?_) events
  rw [runEvents, List.foldl_append]
  exact inBounds_next start front e h

/-- What a program may do with these blocks live: take a block apart from the others
or the place of one of them, store inside a block. -/
def Allowed (live : UInt64 → Option UInt64) (e : HostEvent) : Prop :=
  match kindOf e.2 with
  | .alloc => ∀ base size, live base = some size → base ≠ e.2.addr →
      base.toNat + size.toNat ≤ e.2.addr.toNat ∨
        e.2.addr.toNat + (Alloc.size e.2).toNat ≤ base.toNat
  | .write => ∃ base size, live base = some size ∧ base ≤ e.2.addr ∧
      e.2.addr.toNat + e.2.size.toNat ≤ base.toNat + size.toNat
  | _ => True

/-- A program whose every store lies inside a block that is live at the time. -/
def Confined : (UInt64 → Option UInt64) → List HostEvent → Prop
  | _, [] => True
  | live, e :: rest => Allowed live e ∧ Confined (liveNext live e) rest

/-- The events of each thread in the thread's own order. -/
def Interleaves (merged events : List HostEvent) : Prop :=
  ∀ tid, merged.filter (fun e => e.2.threadId == tid) = events.filter fun e => e.2.threadId == tid

/-- The blocks of a program lie apart. -/
def Apart (live : UInt64 → Option UInt64) : Prop :=
  ∀ a s b t, live a = some s → live b = some t → a ≠ b →
    a.toNat + s.toNat ≤ b.toNat ∨ b.toNat + t.toNat ≤ a.toNat

theorem apart_liveNext {live : UInt64 → Option UInt64} (h : Apart live) {e : HostEvent}
    (hallowed : Allowed live e) : Apart (liveNext live e) := by
  rw [Allowed] at hallowed
  rw [liveNext]
  cases hkind : kindOf e.2 with
  | alloc =>
      rw [hkind] at hallowed
      intro a s b t ha hb hne
      simp only [Function.update_apply] at ha hb
      split at ha
      · rename_i haddr
        cases ha
        rw [if_neg (by rw [← haddr]; exact hne.symm)] at hb
        rw [haddr]
        exact (hallowed b t hb (by rw [← haddr]; exact hne.symm)).symm
      · rename_i hother
        split at hb
        · rename_i haddr
          cases hb
          rw [haddr]
          exact hallowed a s ha hother
        · exact h a s b t ha hb hne
  | free =>
      intro a s b t ha hb hne
      simp only [Function.update_apply] at ha hb
      split at ha
      · cases ha
      · split at hb
        · cases hb
        · exact h a s b t ha hb hne
  | _ => exact h

/-- Processed in the program's own order, a confined program records nothing. -/
theorem inBounds_of_confined (start : State) (events : List HostEvent)
    (h : Confined (fun _ => none) events) :
    ∀ front, front <+: events → (runEvents { start with world := {} } front).inBounds := by
  have hallowed : ∀ (events : List HostEvent) (live : UInt64 → Option UInt64), Apart live →
      Confined live events → ∀ front e, front ++ [e] <+: events →
        Apart (front.foldl liveNext live) ∧ Allowed (front.foldl liveNext live) e := by
    intro events
    induction events with
    | nil =>
        intro live _ _ front e hfront
        simp at hfront
    | cons x rest ih =>
        intro live hapart hconfined front e hfront
        cases front with
        | nil =>
            obtain ⟨rfl, -⟩ := List.cons_prefix_cons.mp hfront
            exact ⟨hapart, hconfined.1⟩
        | cons y front =>
            obtain ⟨rfl, htail⟩ := List.cons_prefix_cons.mp hfront
            exact ih _ (apart_liveNext hapart hconfined.1) hconfined.2 front e htail
  refine (inBounds_iff start events).mpr fun front e hfront => ?_
  obtain ⟨hapart, hstep⟩ := hallowed events _ (fun a s b t ha => by cases ha) h front e hfront
  intro hwrite _ _ _ _ base size hbase hle hmax hlt
  rw [Allowed, hwrite] at hstep
  obtain ⟨b, t, hb, hble, hin⟩ := hstep
  -- the block the store lies in is the one found, or lies apart below it
  by_cases hsame : b = base
  · subst hsame
    obtain rfl := Option.some.inj (hbase.symm.trans hb)
    exact hin
  · have hbelow := hmax b (by rw [liveAfter, hb]; rfl) hble
    have hlower : b.toNat ≤ base.toNat := UInt64.le_iff_toNat_le.mp hbelow
    have hdistinct : b.toNat ≠ base.toNat := fun heq => hsame (UInt64.toNat_inj.mp heq)
    have hle' : base.toNat ≤ e.2.addr.toNat := UInt64.le_iff_toNat_le.mp hle
    rcases hapart b t base size hb hbase hsame with hend | hend <;> omega

/-- Thread 1 takes 64 bytes, stores into them and gives them back; thread 2 then
takes 16 bytes at the same address. -/
def reuseBlock : List HostEvent :=
  [(.plain, plainEvent EVENT_ALLOC 0x10000 64),
    (.plain, plainEvent EVENT_WRITE 0x1000c 5),
    (.plain, plainEvent EVENT_FREE 0x10000 0),
    (.plain, numbered 2 0 (plainEvent EVENT_ALLOC 0x10000 16))]

/-- The second thread's ring is drained before the first thread's store. -/
def reuseFirst : List HostEvent :=
  [(.plain, plainEvent EVENT_ALLOC 0x10000 64),
    (.plain, numbered 2 0 (plainEvent EVENT_ALLOC 0x10000 16)),
    (.plain, plainEvent EVENT_WRITE 0x1000c 5),
    (.plain, plainEvent EVENT_FREE 0x10000 0)]

/-- The store lies inside its block and is reported out of bounds all the same. -/
theorem reordered_reuse_is_out_of_bounds :
    Confined (fun _ => none) reuseBlock ∧ Interleaves reuseFirst reuseBlock ∧
      ¬ (runEvents {} reuseFirst).inBounds := by
  have halloc : kindOf (plainEvent EVENT_ALLOC 0x10000 64) = .alloc := by decide +kernel
  have hwrite : kindOf (plainEvent EVENT_WRITE 0x1000c 5) = .write := by decide +kernel
  have hfree : kindOf (plainEvent EVENT_FREE 0x10000 0) = .free := by decide +kernel
  have hreuse : kindOf (numbered 2 0 (plainEvent EVENT_ALLOC 0x10000 16)) = .alloc := by
    decide +kernel
  have hhazards : (runEvents {} reuseFirst).world.hazards.map HeapHazard.kind = [.outOfBounds] := by
    decide +kernel
  refine ⟨⟨?_, ?_, ?_, ?_, trivial⟩, ?_, ?_⟩
  · rw [Allowed, halloc]
    intro base size hbase
    cases hbase
  · rw [Allowed, hwrite]
    refine ⟨0x10000, 64, ?_, by decide, by decide⟩
    rw [liveNext, halloc]
    rfl
  · rw [Allowed, hfree]
    trivial
  · rw [Allowed, hreuse]
    intro base size hbase hne
    rw [liveNext, hfree, liveNext, hwrite, liveNext, halloc] at hbase
    simp only [Function.update_apply] at hbase
    split at hbase
    · cases hbase
    · rw [if_neg (by assumption)] at hbase
      cases hbase
  · intro tid
    have hfirst (kind : UInt8) (addr value : UInt64) : (plainEvent kind addr value).threadId = 1 := rfl
    have hsecond (ev : Event) : (numbered 2 0 ev).threadId = 2 := rfl
    simp only [reuseFirst, reuseBlock, List.filter_cons, List.filter_nil, hfirst, hsecond]
    by_cases h1 : (1 : UInt16) == tid
    · have h2 : ¬ ((2 : UInt16) == tid) = true := by
        rw [← eq_of_beq h1]
        decide
      simp [h1, h2]
    · simp [h1]
  · intro h
    obtain ⟨hz, hmem, hkind⟩ : ∃ hz ∈ (runEvents {} reuseFirst).world.hazards,
        hz.kind = .outOfBounds := by
      refine List.mem_map.mp ?_
      rw [hhazards]
      exact List.mem_singleton_self _
    exact h hz hmem hkind

end Runs

end Rtmap.Engine
