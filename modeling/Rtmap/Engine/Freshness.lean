import Rtmap.Engine.BlockEpochs

/-!
# Freshness of projections

The guard of the propagation compares the number of a projection's stamp, which
is the event's number on its thread, with the number of the block's allocation,
which counts ALLOC events. Beside the state a run remembers which projections
have been stamped since the last ALLOC of their base.
-/
namespace Rtmap.Engine
open Rtmap.Ring ShadowTypeMap Transition

/-- A state with the bases that have been stamped since their last ALLOC. -/
structure StampWatch where
  state : State
  after : UInt64 → Prop := fun _ => False

abbrev HostEvent := Host × Event

/-- The state in which an event stamps: an ALLOC has its block tracked by then. -/
def stampingState (ev : Event) (s : State) : State := if kindOf ev = .alloc then renewed ev s else s

/-- The event leaves a projection at the base that was not there before it stamped. -/
def Stamps (e : HostEvent) (s : State) (base : UInt64) (p : TypeProjection) : Prop :=
  (processEvent e.1 e.2 s).world.stm.lookup base = some p ∧
    (stampingState e.2 s).world.stm.lookup base ≠ some p

/-- The ALLOC leaves in place the projection that its block's base has. -/
def Leaves (e : HostEvent) (s : State) (p : TypeProjection) : Prop :=
  (processEvent e.1 e.2 s).world.stm.lookup e.2.addr = some p ∧
    (renewed e.2 s).world.stm.lookup e.2.addr = some p

namespace StampWatch

def next (w : StampWatch) (e : HostEvent) : StampWatch where
  state := processEvent e.1 e.2 w.state
  after base := (∃ p, Stamps e w.state base p) ∨
    (w.after base ∧ ¬ (kindOf e.2 = .alloc ∧ base = e.2.addr))

def run (start : State) (events : List HostEvent) : StampWatch := events.foldl next ⟨start, fun _ => False⟩

/-- A projection at the base of a tracked block is used if and only if it has
been stamped since the block's last ALLOC. -/
def Fresh (w : StampWatch) : Prop :=
  ∀ base p, w.state.world.stm.lookup base = some p →
    (w.state.world.heapAllocs.allocSeq p.baseAddr).isSome →
    (fresh p w.state.world.heapAllocs = true ↔ w.after base)

end StampWatch

/-- The numbers follow the order of the event's stamps and its allocation: a stamp
at the base of a tracked block carries at least the allocation's number, and a
projection that an ALLOC leaves in place carries less than the count of the
ALLOC events before. -/
structure InOrder (e : HostEvent) (s : State) : Prop where
  stamp : ∀ base p a, Stamps e s base p →
    (processEvent e.1 e.2 s).world.heapAllocs.allocSeq base = some a → a ≤ p.stampSeq
  alloc : kindOf e.2 = .alloc → ∀ p, Leaves e s p → p.stampSeq < s.world.heapAllocs.totalAllocs

/-- Projections are filed under their bases. -/
def Filed (map : SortedMap UInt64 TypeProjection) : Prop :=
  ∀ base p, map.get? base = some p → p.baseAddr = base

theorem stampable_filed : Stampable (fun _ => True) Filed := by
  intro map addr ti source seq _ h base p hp
  rw [SortedMap.get?_insert] at hp
  split at hp
  · rename_i heq
    cases hp
    exact heq.symm
  · exact h base p hp

theorem purgeable_filed : Purgeable Filed := fun _ _ h base p hp =>
  h base p (SortedMap.get?_retain_eq_some.mp hp).1

theorem filed_processEvent {s : State} (h : Filed s.world.stm.map) (host : Host) (ev : Event) :
    Filed (processEvent host ev s).world.stm.map :=
  (typed_processEvent ⟨h, fun _ _ => trivial⟩ stampable_filed purgeable_filed trivial trivial).map

section Steps
variable {w : StampWatch} {e : HostEvent} {base : UInt64} {p : TypeProjection}

/-- What an ALLOC leaves before it stamps was there before it. -/
theorem lookup_stampingState (h : (stampingState e.2 w.state).world.stm.lookup base = some p) :
    w.state.world.stm.lookup base = some p := by
  rw [stampingState] at h
  split at h
  · rcases Alloc.stm_track e.2 (countEvent w.state) with heq | ⟨old, heq⟩
    · rw [renewed, heq] at h
      exact h
    · rw [renewed, heq] at h
      exact (SortedMap.get?_retain_eq_some.mp h).1
  · exact h

theorem fresh_eq {allocs : HeapAllocTracker} {a : ℕ} (h : allocs.allocSeq p.baseAddr = some a) :
    fresh p allocs = true ↔ a ≤ p.stampSeq := by
  simp [fresh, h]

/-- The number of a tracked block is the count of the ALLOC events before its own. -/
theorem allocSeq_processEvent (e : HostEvent) (s : State) {base : UInt64} {a : ℕ}
    (h : (processEvent e.1 e.2 s).world.heapAllocs.allocSeq base = some a) :
    (kindOf e.2 = .alloc ∧ base = e.2.addr ∧ a = s.world.heapAllocs.totalAllocs) ∨
      (¬ (kindOf e.2 = .alloc ∧ base = e.2.addr) ∧
        s.world.heapAllocs.allocSeq base = some a) := by
  rw [heapAllocs_processEvent] at h
  by_cases halloc : kindOf e.2 = .alloc
  · simp only [halloc, HeapAllocTracker.allocSeq, HeapAllocTracker.onAlloc,
      SortedMap.get?_insert] at h
    split at h
    · rename_i hbase
      cases h
      exact .inl ⟨halloc, hbase, rfl⟩
    · rename_i hbase
      exact .inr ⟨fun hk => hbase hk.2, h⟩
  · refine .inr ⟨fun hk => halloc hk.1, ?_⟩
    by_cases hfree : kindOf e.2 = .free
    · simp only [hfree, HeapAllocTracker.allocSeq, HeapAllocTracker.onFree,
        SortedMap.get?_erase] at h
      split at h
      · cases h
      · exact h
    · cases hkind : kindOf e.2 <;> simp_all

/-- A step keeps the guard right exactly when its numbers are in order. -/
theorem fresh_next (hfiled : Filed w.state.world.stm.map) (h : w.Fresh) (e : HostEvent) :
    (w.next e).Fresh ↔ InOrder e w.state := by
  have hfiled' := filed_processEvent hfiled e.1 e.2
  constructor
  · intro hnext
    refine ⟨fun base p a hstamp ha => ?_, fun halloc p hleaves => ?_⟩
    · have hbase : p.baseAddr = base := hfiled' base p hstamp.1
      have hguard := hnext base p hstamp.1 (by rw [hbase]; exact Option.isSome_of_eq_some ha)
      exact (fresh_eq (hbase ▸ ha)).mp (hguard.mpr (.inl ⟨p, hstamp⟩))
    · have hbase : p.baseAddr = e.2.addr := hfiled' _ p hleaves.1
      have hseq : (processEvent e.1 e.2 w.state).world.heapAllocs.allocSeq e.2.addr =
          some w.state.world.heapAllocs.totalAllocs := by
        rw [heapAllocs_processEvent, halloc]
        simp [HeapAllocTracker.allocSeq, HeapAllocTracker.onAlloc]
      have hguard := hnext e.2.addr p hleaves.1 (by rw [hbase]; exact Option.isSome_of_eq_some hseq)
      have hold : ¬ (w.next e).after e.2.addr := by
        rintro (⟨q, hq, hne⟩ | ⟨-, hnot⟩)
        · rw [stampingState, if_pos halloc, hleaves.2] at hne
          rw [hleaves.1] at hq
          exact hne hq
        · exact hnot ⟨halloc, rfl⟩
      have hstale := mt hguard.mp hold
      have hfresh : fresh p (w.next e).state.world.heapAllocs = true ↔
          w.state.world.heapAllocs.totalAllocs ≤ p.stampSeq := fresh_eq (hbase ▸ hseq)
      rw [hfresh] at hstale
      omega
  · intro horder base p hp htracked
    have hbase : p.baseAddr = base := hfiled' base p hp
    rw [hbase] at htracked
    obtain ⟨a, ha⟩ := Option.isSome_iff_exists.mp htracked
    have hfresh : fresh p (w.next e).state.world.heapAllocs = true ↔ a ≤ p.stampSeq :=
      fresh_eq (hbase ▸ ha)
    rw [hfresh]
    by_cases hstamp : Stamps e w.state base p
    · exact iff_of_true (horder.stamp base p a hstamp ha) (.inl ⟨p, hstamp⟩)
    · have hleft : (stampingState e.2 w.state).world.stm.lookup base = some p := by
        by_contra hne
        exact hstamp ⟨hp, hne⟩
      have hnone : ¬ ∃ q, Stamps e w.state base q := by
        rintro ⟨q, hq, hne⟩
        have hpq : p = q := Option.some.inj (hp.symm.trans hq)
        exact hne (hpq ▸ hleft)
      rcases allocSeq_processEvent e w.state ha with ⟨halloc, haddr, rfl⟩ | ⟨hother, hseq⟩
      · rw [stampingState, if_pos halloc] at hleft
        have hlt := horder.alloc halloc p ⟨haddr ▸ hp, haddr ▸ hleft⟩
        refine iff_of_false (by omega) ?_
        rintro (hq | ⟨-, hnot⟩)
        · exact hnone hq
        · exact hnot ⟨halloc, haddr⟩
      · have hbefore := h base p (lookup_stampingState hleft)
          (by rw [hbase]; exact Option.isSome_of_eq_some hseq)
        rw [fresh_eq (hbase ▸ hseq)] at hbefore
        rw [hbefore]
        exact ⟨fun hafter => .inr ⟨hafter, hother⟩, fun hafter => (hafter.resolve_left hnone).1⟩

end Steps

theorem run_snoc (start : State) (front : List HostEvent) (e : HostEvent) :
    StampWatch.run start (front ++ [e]) = (StampWatch.run start front).next e := by
  rw [StampWatch.run, List.foldl_append]
  rfl

theorem filed_run (start : State) (hstart : Filed start.world.stm.map) (events : List HostEvent) :
    Filed (StampWatch.run start events).state.world.stm.map := by
  induction events using List.reverseRecOn with
  | nil => exact hstart
  | append_singleton front e ih =>
      rw [run_snoc]
      exact filed_processEvent ih e.1 e.2

/-- A program with one pointer variable, at 0x4000, of pointee type `node`, and
another, at 0x4008, of pointee type `edge`. -/
def twoVariables : State where
  dwarfInfo := some {
    typeRegistry := fun n =>
      if n = "node" then some { name := "node", byteSize := 16 }
      else if n = "edge" then some { name := "edge", byteSize := 24 }
      else none }
  addrIndex := (({} : AddressIndex).insertGlobal 0x4000 8 "head"
    { name := "*node", byteSize := 8, isPointer := true } 0).insertGlobal 0x4008 8 "link"
    { name := "*edge", byteSize := 8, isPointer := true } 1

/-- One thread allocates two blocks and stores the address of the second in a
typed variable, which is its first WRITE. -/
def storeSecond : List HostEvent :=
  [(.plain, plainEvent EVENT_ALLOC 0x10000 0x40),
    (.plain, numbered 1 1 (plainEvent EVENT_ALLOC 0x20000 0x40)),
    (.plain, plainEvent EVENT_WRITE 0x4000 0x20000)]

end Rtmap.Engine
