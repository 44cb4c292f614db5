import Rtmap.Engine.HeapEpochs
import Rtmap.Engine.TypeStamps

/-!
# Epochs of a block

A FREE purges a block from the four stores that know its addresses. An ALLOC of
a tracked address with another size ends the block's epoch too; it purges the
projections and the heap graph only.
-/
namespace Rtmap.Engine
open Rtmap.Ring

namespace Input

def run (inputs : List Input) (s : State) : State := inputs.foldl (fun s i => i.apply s) s

end Input

/-- Nothing is known of the block. -/
structure Cleared (addr size : UInt64) (s : State) : Prop where
  projections : ∀ e ∈ s.world.stm.map.entries, ¬ InBlock addr size e.2.baseAddr
  indirect : ∀ x, InBlock addr size x → s.world.stm.indirect x = none
  deferred : ∀ d ∈ s.world.stm.deferred, ¬ InBlock addr size d.writeAddr
  objects : ∀ e ∈ s.heapGraph.objects.entries, ¬ InBlock addr size e.1

/-- The event is an ALLOC of a tracked block with another size. -/
def Renews (ev : Event) (old : UInt64) (s : State) : Prop :=
  kindOf ev = .alloc ∧ s.world.heapAllocs.allocSize ev.addr = some old ∧ old ≠ Alloc.size ev

/-- The state in which the new epoch starts: the event counted and the block
tracked anew, not yet stamped. -/
def renewed (ev : Event) (s : State) : State := Alloc.track ev (countEvent s)

/-- The old epoch has ended as by a FREE of the block, and nothing is left of it. -/
structure Ended (ev : Event) (old : UInt64) (s : State) : Prop where
  cleared : Cleared ev.addr old (renewed ev s)
  asFreed : ∀ free : Event, kindOf free = .free → free.addr = ev.addr → ∀ host,
    (renewed ev s).world.stm = (processEvent host free s).world.stm ∧
      (renewed ev s).heapGraph = (processEvent host free s).heapGraph

/-- No element type is registered and no pointer write is deferred in the block,
and nothing starts at the last address where the block reaches it. -/
structure Bare (addr size : UInt64) (s : State) : Prop where
  indirect : ∀ x, InBlock addr size x → s.world.stm.indirect x = none
  deferred : ∀ d ∈ s.world.stm.deferred, ¬ InBlock addr size d.writeAddr
  projections : InBlock addr size (-1) → ∀ e ∈ s.world.stm.map.entries, e.2.baseAddr ≠ -1
  objects : InBlock addr size (-1) → s.heapGraph.objects.get? (-1) = none

section Stores
variable {ev : Event} {old : UInt64} {s : State}

theorem outside_iff {addr size x : UInt64} :
    ShadowTypeMap.outside addr size x = true ↔ ¬ (addr ≤ x ∧ x < saturatingAdd addr size) := by
  rw [ShadowTypeMap.outside, Bool.or_eq_true, decide_eq_true_iff, decide_eq_true_iff, not_and_or,
    not_le, not_lt]

theorem outside_of_not_inBlock {addr size x : UInt64} (h : ¬ InBlock addr size x) :
    ShadowTypeMap.outside addr size x = true :=
  outside_iff.mpr fun hrange => h (inBlock_of_range hrange.1 hrange.2)

@[simp] theorem heapGraph_closeEpoch (oldSize : UInt64) (reason : EpochClose) (line : CloseReason) :
    (Alloc.closeEpoch ev oldSize reason line s).heapGraph = s.heapGraph := by
  rw [Alloc.closeEpoch]
  split <;> rfl

theorem track_of_renews (h : Renews ev old s) :
    renewed ev s = (Alloc.retire ev old (Alloc.record ev (countEvent s)).1).emit
      (.alloc (seqOf ev) ev.threadId ev.addr (Alloc.size ev)) := by
  have hold : (Alloc.record ev (countEvent s)).2 = some old := h.2.1
  have hne : ¬ some old = some (Alloc.size ev) := fun heq => h.2.2 (Option.some.inj heq)
  rw [renewed, Alloc.track, hold, if_neg hne, Alloc.renew]

/-- What the ALLOC leaves of the type map. -/
theorem stm_renewed (h : Renews ev old s) :
    (renewed ev s).world.stm = s.world.stm.purgeRange ev.addr old := by
  rw [track_of_renews h]
  show (Alloc.closeEpoch ev old .realloc .realloc
    (Alloc.record ev (countEvent s)).1).world.stm.purgeRange ev.addr old = _
  rw [Alloc.stm_closeEpoch]
  rfl

theorem heapGraph_renewed (h : Renews ev old s) :
    (renewed ev s).heapGraph = s.heapGraph.onFree ev.addr old := by
  rw [track_of_renews h]
  show (Alloc.closeEpoch ev old .realloc .realloc
    (Alloc.record ev (countEvent s)).1).heapGraph.onFree ev.addr old = _
  rw [heapGraph_closeEpoch]
  rfl

/-- What a FREE of a tracked block leaves. -/
theorem stores_freed {free : Event} (hkind : kindOf free = .free)
    (hold : s.world.heapAllocs.allocSize free.addr = some old) (host : Host) :
    (processEvent host free s).world.stm =
        ((s.world.stm.purgeRange free.addr old).purgeIndirect free.addr old).purgeDeferred
          free.addr old ∧
      (processEvent host free s).heapGraph = s.heapGraph.onFree free.addr old := by
  have hfree : (s.world.heapAllocs.onFree free.addr).2 = some old := hold
  have hevent : processEvent host free s = (Free.purge free.addr old (Alloc.closeEpoch free old .free
      .free { countEvent s with world := { (countEvent s).world with
        heapAllocs := ((countEvent s).world.heapAllocs.onFree free.addr).1 } })).emit
      (.free (seqOf free) free.threadId free.addr old) := by
    simp only [processEvent, processKind, hkind, processFree, countEvent, hfree]
  rw [hevent]
  refine ⟨?_, ?_⟩
  · show ((((Alloc.closeEpoch free old .free .free _).world.stm.purgeRange free.addr
      old).purgeIndirect free.addr old).purgeDeferred free.addr old) = _
    rw [Alloc.stm_closeEpoch]
    rfl
  · show (Alloc.closeEpoch free old .free .free _).heapGraph.onFree free.addr old = _
    rw [heapGraph_closeEpoch]
    rfl

theorem not_lt_saturatingAdd (addr size : UInt64) : ¬ (-1 : UInt64) < saturatingAdd addr size := by
  have hmax : (-1 : UInt64).toNat = 2 ^ 64 - 1 := rfl
  rw [UInt64.lt_iff_toNat_lt, toNat_saturatingAdd]
  omega

/-- The epoch ends as by a FREE exactly when the stores the ALLOC forgets are bare. -/
theorem ended_iff (h : Renews ev old s) : Ended ev old s ↔ Bare ev.addr old s := by
  have hlast : ¬ ((ev.addr : UInt64) ≤ -1 ∧ (-1 : UInt64) < saturatingAdd ev.addr old) := fun hrange =>
    not_lt_saturatingAdd ev.addr old hrange.2
  constructor
  · rintro ⟨⟨hproj, hind, hdef, hobj⟩, -⟩
    rw [stm_renewed h] at hproj hind hdef
    rw [heapGraph_renewed h] at hobj
    refine ⟨hind, hdef, fun hin e he hbase => ?_, fun hin => ?_⟩
    · have hkept : e ∈ (s.world.stm.purgeRange ev.addr old).map.entries := by
        refine List.mem_filter.mpr ⟨he, ?_⟩
        show ShadowTypeMap.outside ev.addr old e.2.baseAddr = true
        rw [hbase]
        exact outside_iff.mpr hlast
      exact hproj e hkept (hbase ▸ hin)
    · cases hget : s.heapGraph.objects.get? (-1) with
      | none => rfl
      | some obj =>
          have hkept : (s.heapGraph.onFree ev.addr old).objects.get? (-1) = some obj := by
            rw [HeapGraph.get?_onFree, if_neg hlast, hget]
          exact absurd hin (hobj _ (SortedMap.get?_eq_some.mp hkept))
  · intro hbare
    refine ⟨⟨?_, ?_, ?_, ?_⟩, ?_⟩
    · intro e he hin
      rw [stm_renewed h] at he
      obtain ⟨he, hout⟩ := List.mem_filter.mp he
      have hbase : e.2.baseAddr = -1 := eq_last_of_inBlock hin fun hhi =>
        outside_iff.mp hout ⟨hin.1, hhi⟩
      exact hbare.projections (hbase ▸ hin) e he hbase
    · rw [stm_renewed h]
      exact hbare.indirect
    · rw [stm_renewed h]
      exact hbare.deferred
    · intro e he hin
      rw [heapGraph_renewed h] at he
      have hget := SortedMap.get?_eq_some.mpr he
      rw [HeapGraph.get?_onFree] at hget
      split at hget
      · cases hget
      · rename_i hrange
        have hbase : e.1 = -1 := eq_last_of_inBlock hin fun hhi => hrange ⟨hin.1, hhi⟩
        rw [hbase, hbare.objects (hbase ▸ hin)] at hget
        cases hget
    · intro free hkind haddr host
      obtain ⟨hstm, hgraph⟩ := stores_freed hkind (haddr ▸ h.2.1) host
      rw [stm_renewed h, heapGraph_renewed h, hstm, hgraph, haddr]
      refine ⟨?_, rfl⟩
      have hindirect : (fun base => if ShadowTypeMap.outside ev.addr old base then
          s.world.stm.indirect base else none) = s.world.stm.indirect := by
        funext x
        split
        · rfl
        · rename_i hout
          refine (hbare.indirect x ?_).symm
          by_contra hnot
          exact hout (outside_of_not_inBlock hnot)
      have hdeferred : s.world.stm.deferred.filter
          (fun d => ShadowTypeMap.outside ev.addr old d.writeAddr) = s.world.stm.deferred :=
        List.filter_eq_self.mpr fun d hd => outside_of_not_inBlock (hbare.deferred d hd)
      simp only [ShadowTypeMap.purgeRange, ShadowTypeMap.purgeIndirect, ShadowTypeMap.purgeDeferred,
        hindirect, hdeferred]

end Stores

/-- The property holds wherever an ALLOC of the run renews a block. -/
def AtRenewals (P : Event → UInt64 → State → Prop) (start : State) (inputs : List Input) : Prop :=
  ∀ front host ev rest old, inputs = front ++ .event host ev :: rest →
    Renews ev old (Input.run front start) → P ev old (Input.run front start)

/-- Along a run every renewed block ends its epoch as by a FREE exactly when each
is bare of element types and deferred writes by then. -/
theorem renewals_end_iff (start : State) (inputs : List Input) :
    AtRenewals Ended start inputs ↔ AtRenewals (fun ev old s => Bare ev.addr old s) start inputs := by
  constructor
  · intro h front host ev rest old hin hrenews
    exact (ended_iff hrenews).mp (h front host ev rest old hin hrenews)
  · intro h front host ev rest old hin hrenews
    exact (ended_iff hrenews).mpr (h front host ev rest old hin hrenews)

/-- A block is written with a pointer to untyped memory and reallocated in place. -/
def growInPlace : List Input :=
  [.event .plain (plainEvent EVENT_ALLOC 0x10000 0x40),
    .event .plain (plainEvent EVENT_WRITE 0x10008 0x20000),
    .event .plain (plainEvent EVENT_ALLOC 0x10000 0x80)]

/-- The deferred write of the old block is still there in the new one. -/
theorem deferred_write_survives :
    ¬ AtRenewals Ended { dwarfInfo := some {} } growInPlace ∧
      (Input.run growInPlace { dwarfInfo := some {} }).world.stm.deferred =
        [⟨0x10008, 0x20000, 0⟩] := by
  have hdeferred : (Input.run growInPlace { dwarfInfo := some {} }).world.stm.deferred =
      [⟨0x10008, 0x20000, 0⟩] := by decide +kernel
  refine ⟨fun h => ?_, hdeferred⟩
  have hbefore : (Input.run (growInPlace.take 2) { dwarfInfo := some {} }).world.stm.deferred =
      [⟨0x10008, 0x20000, 0⟩] := by decide +kernel
  have hrenews : Renews (plainEvent EVENT_ALLOC 0x10000 0x80) 0x40
      (Input.run (growInPlace.take 2) { dwarfInfo := some {} }) :=
    ⟨by decide +kernel, by decide +kernel, by decide +kernel⟩
  have hended := h (growInPlace.take 2) .plain _ [] 0x40 rfl hrenews
  have hbare := (ended_iff hrenews).mp hended
  exact hbare.deferred ⟨0x10008, 0x20000, 0⟩ (by simp [hbefore]) ⟨by decide, by decide⟩

end Rtmap.Engine
