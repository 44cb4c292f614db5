import Rtmap.Engine.EdgeValues

/-!
# Values of truncated writes

A truncated WRITE carries the low bytes of its value only, and the engine records 0
for it. `truncated_value_unseen_iff` says when it makes no use of the value it
does not record.
-/
namespace Rtmap.Engine
open Rtmap.Ring Transition

/-- The address that a WRITE puts in the priority filter: that of a pointee it stamps. -/
def Write.bloomInsert (host : Host) (ev : Event) (s : State) : Option UInt64 :=
  let t := beforeNode host ev s
  (t.addrIndex.lookup host.orders ev.addr).2.bind fun h =>
    if h.typeInfo.isPointer && ev.size == 8 && ev.value != 0 && t.heapOracle.isHeap ev.value then
      (t.dwarfInfo.bind fun info => pointeeType host h.typeInfo.name
        (pointeeInfo host h.typeInfo.name info)).bind fun pointee =>
          if (t.world.stm.stampType ev.value pointee h.name (seqOf ev)).2.applied then some ev.value
          else none
    else none

/-- The event with another value. -/
def withValue (ev : Event) (v : UInt64) : Event := { ev with value := v }

section Value
variable {host : Host} {ev : Event} {v : UInt64} {s : State}

/-- A truncated write records 0 whatever its value. -/
theorem writeValue_withValue (htrunc : ev.isTruncated = true) :
    writeValue (withValue ev v) = writeValue ev := by
  have htrunc' : (withValue ev v).isTruncated = true := htrunc
  rw [writeValue, writeValue, if_pos htrunc, if_pos htrunc']

namespace Write

theorem heap_withValue (htrunc : ev.isTruncated = true) :
    heap host (withValue ev v) s = heap host ev s := by
  have hv := writeValue_withValue (v := v) htrunc
  have hgraph (t : State) : graph (withValue ev v) t = graph ev t := by
    rw [graph, hv]
    rfl
  have hfields (t : State) : fields (withValue ev v) t = fields ev t := by
    have hlink (p : TypeProjection) (t : State) :
        linkField (withValue ev v) p t = linkField ev p t := by
      rw [linkField, linkField, hv]
      rfl
    rw [fields, fields]
    simp only [hlink]
    rfl
  have hpropagate (t : State) : propagate host (withValue ev v) t = propagate host ev t := by
    have hdeepen (info : DwarfInfo) (t : State) :
        deepen host (withValue ev v) info t = deepen host ev info t := by
      rw [deepen, deepen, ensured, ensured, upgrade, upgrade, hv]
      rfl
    have hdefers (t : State) : defers (withValue ev v) t = defers ev t := by
      rw [defers, defers, hv]
      rfl
    rw [propagate, propagate]
    simp only [hdeepen, hdefers, hv]
    rfl
  rw [heap, heap, hgraph, hfields, hpropagate]
  rfl

end Write

theorem beforeNode_withValue (htrunc : ev.isTruncated = true) :
    beforeNode host (withValue ev v) s = beforeNode host ev s := by
  have hv := writeValue_withValue (v := v) htrunc
  have hobserve (t : State) : Write.observe (withValue ev v) t = Write.observe ev t := by
    rw [Write.observe, Write.observe, hv]
    rfl
  have hcohere (writers : UInt16) (t : State) :
      Write.cohere (withValue ev v) writers t = Write.cohere ev writers t := by
    rw [Write.cohere, Write.cohere, hv]
    rfl
  rw [beforeNode, beforeNode]
  simp only [hobserve, hcohere, Write.heap_withValue htrunc]
  rfl

/-- The write hits all eight bytes of a pointer variable. -/
def StoresPointer (host : Host) (ev : Event) (s : State) : Prop :=
  ∃ h, (s.addrIndex.lookup host.orders ev.addr).2 = some h ∧ h.typeInfo.isPointer = true ∧
    ev.size = 8

/-- Only an eight-byte write to a pointer variable looks at the event's own value. -/
theorem node_withValue (htrunc : ev.isTruncated = true) (hnot : ¬ StoresPointer host ev s) :
    Write.node host (withValue ev v) s = Write.node host ev s := by
  have hv := writeValue_withValue (v := v) htrunc
  rw [Write.node, Write.node]
  have haddr : (withValue ev v).addr = ev.addr := rfl
  have hsize : (withValue ev v).size = ev.size := rfl
  rw [haddr, hsize]
  cases hfound : (s.addrIndex.lookup host.orders ev.addr).2 with
  | none => rfl
  | some h =>
      have hguard : ¬ (h.typeInfo.isPointer && ev.size == 8) = true := by
        intro hboth
        rw [Bool.and_eq_true, beq_iff_eq] at hboth
        exact hnot ⟨h, hfound, hboth.1, hboth.2⟩
      simp only [hguard, Bool.false_eq_true, if_false, Write.value, hv]
      rfl

theorem bloomInsert_of_not (hnot : ¬ StoresPointer host ev (beforeNode host ev s)) :
    Write.bloomInsert host ev s = none := by
  rw [Write.bloomInsert]
  cases hfound : ((beforeNode host ev s).addrIndex.lookup host.orders ev.addr).2 with
  | none => rfl
  | some h =>
      have hguard : ¬ (h.typeInfo.isPointer && ev.size == 8 && ev.value != 0 &&
          (beforeNode host ev s).heapOracle.isHeap ev.value) = true := by
        intro hall
        simp only [Bool.and_eq_true, beq_iff_eq] at hall
        exact hnot ⟨h, hfound, hall.1.1.1, hall.1.1.2⟩
      rw [Option.bind_some, if_neg hguard]

/-- The edge of a pointer variable shows the value stored. -/
theorem edge_shows_value {h : Interval}
    (hfound : (s.addrIndex.lookup host.orders ev.addr).2 = some h)
    (hpointer : h.typeInfo.isPointer = true) (hsize : ev.size = 8) :
    (((Write.node host ev s).world.edges h.nodeId).map PointerEdge.ptrValue).getD 0 = ev.value := by
  obtain ⟨-, hown⟩ := edges_node_cases hfound
  rw [if_pos (by simp [hpointer, hsize])] at hown
  rcases hown with ⟨hzero, hnone⟩ | ⟨-, e, he, -, hvalue, -⟩
  · rw [hnone, hzero]
    rfl
  · rw [he]
    exact hvalue

/-- A truncated WRITE with another value leads to the same state, lines included, and
puts the same address in the filter if and only if the values are equal or the write
is none of eight bytes to a pointer variable. -/
theorem truncated_value_unseen_iff (host : Host) (ev : Event) (s : State)
    (hkind : kindOf ev = .write) (htrunc : ev.isTruncated = true) (v : UInt64) :
    (processEvent host (withValue ev v) s = processEvent host ev s ∧
      Write.bloomInsert host (withValue ev v) s = Write.bloomInsert host ev s) ↔
      v = ev.value ∨ ¬ StoresPointer host ev s := by
  have hbefore : beforeNode host (withValue ev v) s = beforeNode host ev s :=
    beforeNode_withValue htrunc
  have hstores (e : Event) :
      StoresPointer host e (beforeNode host ev s) ↔ StoresPointer host e s := by
    obtain ⟨g, m, hs, vs, info, regs, topo, heq⟩ := beforeNode_eq host ev s
    rw [heq]
    rfl
  rw [processEvent_write host ev s hkind, processEvent_write host (withValue ev v) s hkind, hbefore]
  constructor
  · rintro ⟨hstate, -⟩
    by_cases hpointer : StoresPointer host ev s
    · left
      obtain ⟨h, hfound, hptr, hsize⟩ := (hstores ev).mpr hpointer
      have hnew := @edge_shows_value host (withValue ev v) _ h hfound hptr hsize
      rw [hstate, edge_shows_value hfound hptr hsize] at hnew
      exact hnew.symm
    · exact .inr hpointer
  · rintro (rfl | hnot)
    · exact ⟨rfl, rfl⟩
    · have hnot' : ¬ StoresPointer host ev (beforeNode host ev s) :=
        fun h => hnot ((hstores ev).mp h)
      refine ⟨node_withValue htrunc hnot', ?_⟩
      rw [bloomInsert_of_not hnot', bloomInsert_of_not]
      rw [hbefore]
      exact hnot'

end Value

/-- A program with one pointer variable, at 0x4000, of pointee type `node`. -/
def oneVariable : DwarfInfo where
  globals := [⟨"head", 0x4000, 8, { name := "*node", byteSize := 8, isPointer := true }⟩]
  typeRegistry := fun n => if n = "node" then some { name := "node", byteSize := 16 } else none

def truncatedWrite (addr value : UInt64) : Event :=
  { plainEvent EVENT_WRITE addr value with kindFlags := makeKf EVENT_WRITE FLAG_TRUNCATED 0 }

/-- Of a truncated write to the heap the value is not seen. -/
theorem heap_value_unseen :
    processEvent .plain (withValue (truncatedWrite 0x10000 0x20000) 0x30000)
        (.started .plain (some oneVariable) (some [])) =
      processEvent .plain (truncatedWrite 0x10000 0x20000)
        (.started .plain (some oneVariable) (some [])) ∧
    Write.bloomInsert .plain (withValue (truncatedWrite 0x10000 0x20000) 0x30000)
        (.started .plain (some oneVariable) (some [])) =
      Write.bloomInsert .plain (truncatedWrite 0x10000 0x20000)
        (.started .plain (some oneVariable) (some [])) := by
  refine (truncated_value_unseen_iff .plain (truncatedWrite 0x10000 0x20000)
    (.started .plain (some oneVariable) (some [])) (by decide) (by decide) 0x30000).mpr (.inr ?_)
  rintro ⟨h, hfound, -⟩
  have hnone : (((State.started .plain (some oneVariable) (some [])).addrIndex.lookup
      Host.plain.orders 0x10000).2).isNone = true := by
    decide +kernel
  rw [Option.isNone_iff_eq_none] at hnone
  exact absurd (hfound.symm.trans hnone) (by simp)

/-- Of a truncated write to the pointer variable it is: the address becomes a `node`, and
another value does not type it. -/
theorem phantom_pointer_is_stamped :
    ¬ (∀ host dwarf topo inputs ev v, kindOf ev = .write → ev.isTruncated = true →
      processEvent host (withValue ev v) (Input.run inputs (.started host dwarf topo)) =
        processEvent host ev (Input.run inputs (.started host dwarf topo))) ∧
    ((processEvent .plain (truncatedWrite 0x4000 0x20000)
      (.started .plain (some oneVariable) (some []))).world.stm.lookup 0x20000).map
        (fun p => p.typeInfo.name) = some "node" := by
  have hstamped : ((processEvent .plain (truncatedWrite 0x4000 0x20000)
      (.started .plain (some oneVariable) (some []))).world.stm.lookup 0x20000).map
        (fun p => p.typeInfo.name) = some "node" := by
    decide +kernel
  have hunstamped : ((processEvent .plain (withValue (truncatedWrite 0x4000 0x20000) 0)
      (.started .plain (some oneVariable) (some []))).world.stm.lookup 0x20000).map
        (fun p => p.typeInfo.name) = none := by
    decide +kernel
  refine ⟨fun hall => ?_, hstamped⟩
  have hsame := hall .plain (some oneVariable) (some []) [] (truncatedWrite 0x4000 0x20000) 0
    (by decide) (by decide)
  rw [Input.run, List.foldl_nil] at hsame
  rw [hsame, hstamped] at hunstamped
  cases hunstamped

end Rtmap.Engine
