import Rtmap.Engine.BlockEpochs

/-!
# Nodes and edges

What each operation of the world does to the variables' nodes and pointer edges,
and each event: a WRITE to an indexed address moves one node and one edge, CALL
and RETURN add and remove the nodes of a frame, MODULE_LOAD renews the globals'.
-/
namespace Rtmap.Engine
open Rtmap.Ring Transition

/-- The engine before the first event: the globals at their link-time addresses, if the
program has DWARF data. -/
def State.started (host : Host) (dwarf : Option DwarfInfo) (topo : Topology) : State :=
  match dwarf with
  | some info =>
      let r := populateGlobals host info 0 {} {}
      { dwarfInfo := some info, addrIndex := r.1, world := r.2, topo := topo }
  | none => { topo := topo }

section World
variable {w : World} {id i : NodeId} {fid : FrameId}

/-- A node that was not there starts with the value 0. -/
theorem nodes_ensureNode (name : String) (ti : TypeInfo) (addr size : UInt64) :
    (w.ensureNode id name ti addr size).nodes i =
      if i = id ∧ w.nodes id = none then some ⟨name, ti, addr, size, 0, 0⟩ else w.nodes i := by
  unfold World.ensureNode World.nodeExists
  cases hid : w.nodes id with
  | some n => simp
  | none =>
      simp only [Option.isSome_none, Bool.false_eq_true, if_false, and_true]
      by_cases hi : i = id
      · simp [hi]
      · simp [hi]

theorem isSome_nodes_ensureNode {name : String} {ti : TypeInfo} {addr size : UInt64} :
    ((w.ensureNode id name ti addr size).nodes i).isSome ↔ i = id ∨ (w.nodes i).isSome := by
  rw [nodes_ensureNode]
  split
  · rename_i h
    simp [h.1]
  · rename_i h
    constructor
    · exact .inr
    · rintro (rfl | hi)
      · exact Option.isSome_iff_ne_none.mpr fun hnone => h ⟨rfl, hnone⟩
      · exact hi

@[simp] theorem edges_ensureNode (name : String) (ti : TypeInfo) (addr size : UInt64) :
    (w.ensureNode id name ti addr size).edges = w.edges := by
  unfold World.ensureNode
  split <;> rfl

theorem nodes_removeNode : (w.removeNode id).nodes i = if i = id then none else w.nodes i :=
  Function.update_apply ..

theorem edges_removeNode : (w.removeNode id).edges i = if i = id then none else w.edges i :=
  Function.update_apply ..

/-- A node made anew. -/
theorem nodes_renewNode (replace : Bool) (name : String) (ti : TypeInfo) (addr size : UInt64) :
    ((if replace then w.removeNode id else w).ensureNode id name ti addr size).nodes i =
      if i = id ∧ (replace = true ∨ w.nodes id = none) then some ⟨name, ti, addr, size, 0, 0⟩
      else w.nodes i := by
  rw [nodes_ensureNode]
  cases replace with
  | false => simp
  | true =>
      simp only [if_true, nodes_removeNode, and_true, true_or]
      split <;> rfl

theorem edges_renewNode (replace : Bool) (name : String) (ti : TypeInfo) (addr size : UInt64) :
    ((if replace then w.removeNode id else w).ensureNode id name ti addr size).edges i =
      if i = id ∧ replace = true then none else w.edges i := by
  rw [edges_ensureNode]
  cases replace with
  | false => simp
  | true => simp only [if_true, edges_removeNode, and_true]

theorem nodes_updateValue {v : UInt64} : (w.updateValue id v).nodes i =
    if i = id then
      (w.nodes id).map fun n => { n with rawValue := v, lastWriteInsn := w.insnCounter }
    else w.nodes i := by
  cases hid : w.nodes id with
  | none =>
      have hsame : w.updateValue id v = w := by simp only [World.updateValue, hid]
      rw [hsame]
      split
      · rename_i hi
        rw [hi, hid]
        rfl
      · rfl
  | some n =>
      simp only [World.updateValue, hid, Option.map_some]
      exact Function.update_apply ..

@[simp] theorem edges_updateValue {v : UInt64} : (w.updateValue id v).edges = w.edges := by
  unfold World.updateValue
  split <;> rfl

theorem edges_updateEdge_ne {target : Option NodeId} {v : UInt64} (h : i ≠ id) :
    (w.updateEdge id target v).edges i = w.edges i := Function.update_of_ne h ..

/-- A null pointer has no edge. -/
theorem edges_updateEdge_null : (w.updateEdge id none 0).edges id = none :=
  Function.update_self ..

/-- The edge of any other pointer dangles unless a variable is at its target. -/
theorem edges_updateEdge_pointer (target : Option NodeId) {v : UInt64} (hv : v ≠ 0) :
    ∃ e : PointerEdge, (w.updateEdge id target v).edges id = some e ∧ e.source = id ∧
      e.ptrValue = v ∧ (e.isDangling = false → target = some e.target) := by
  cases target with
  | some t => exact ⟨⟨id, t, v, false⟩, Function.update_self .., rfl, rfl, fun _ => rfl⟩
  | none =>
      refine ⟨⟨id, .global (-1), v, true⟩, ?_, rfl, rfl, fun hd => by cases hd⟩
      simp only [World.updateEdge, hv, if_false]
      exact Function.update_self ..

/-- The node is a local of the frame and there. -/
def World.isDead (w : World) (fid : FrameId) (id : NodeId) : Bool :=
  World.isLocalOf fid id && w.nodeExists id

theorem nodes_removeFrameNodes :
    (w.removeFrameNodes fid).nodes i = if w.isDead fid i then none else w.nodes i := rfl

theorem edges_removeFrameNodes : (w.removeFrameNodes fid).edges i =
    if w.isDead fid i then none else (w.edges i).filter fun e => !w.isDead fid e.target := rfl

end World

namespace Write
variable {host : Host} {ev : Event} {s : State} {h : Interval}

theorem nodes_value : ∃ n : Node, n.rawValue = writeValue ev ∧
    (value ev h s).world.nodes = Function.update s.world.nodes h.nodeId (some n) := by
  have hsome : ((s.world.ensureNode h.nodeId h.name h.typeInfo ev.addr ev.size.toUInt64).nodes
      h.nodeId).isSome := isSome_nodes_ensureNode.mpr (.inl rfl)
  obtain ⟨n, hn⟩ := Option.isSome_iff_exists.mp hsome
  refine ⟨{ n with rawValue := writeValue ev, lastWriteInsn := (s.world.ensureNode h.nodeId h.name
    h.typeInfo ev.addr ev.size.toUInt64).insnCounter }, rfl, funext fun i => ?_⟩
  have hvalue : (value ev h s).world = (s.world.ensureNode h.nodeId h.name h.typeInfo ev.addr
    ev.size.toUInt64).updateValue h.nodeId (writeValue ev) := rfl
  rw [hvalue, nodes_updateValue, hn, Function.update_apply]
  split
  · rfl
  · rename_i hi
    rw [nodes_ensureNode, if_neg fun h => hi h.1]

theorem edges_value : (value ev h s).world.edges = s.world.edges := by
  have hvalue : (value ev h s).world = (s.world.ensureNode h.nodeId h.name h.typeInfo ev.addr
    ev.size.toUInt64).updateValue h.nodeId (writeValue ev) := rfl
  rw [hvalue, edges_updateValue, edges_ensureNode]

/-- The stamp of a pointee and the link leave nodes and edges. -/
theorem pointer_eq : ∃ m log info topo, pointer host ev h s = { edge host ev h s with
    world := { (edge host ev h s).world with stm := m, typeEpochs := log }
    dwarfInfo := info, topo := topo } := by
  rw [pointer]
  dsimp only
  split
  · exact ⟨_, _, _, _, rfl⟩
  · split
    · obtain ⟨m, log, info, topo, hstamp⟩ :=
        stampPointee_eq host ev (edge host ev h s) h.name h.typeInfo.name
      rw [hstamp]
      exact ⟨m, log, info, _, rfl⟩
    · exact ⟨_, _, _, _, rfl⟩

/-- The node that an 8-byte pointer write points to. -/
def pointee (host : Host) (ev : Event) (s : State) : Option NodeId :=
  (target host ev { s with addrIndex := (s.addrIndex.lookup host.orders ev.addr).1 }).2

theorem pointee_null (hzero : ev.value = 0) : pointee host ev s = none := by
  rw [pointee, target, if_pos hzero]

/-- A written variable's node holds the value. -/
theorem nodes_node (hfound : (s.addrIndex.lookup host.orders ev.addr).2 = some h) :
    ∃ n : Node, n.rawValue = writeValue ev ∧
      (node host ev s).world.nodes = Function.update s.world.nodes h.nodeId (some n) := by
  let t : State := { s with addrIndex := (s.addrIndex.lookup host.orders ev.addr).1 }
  obtain ⟨n, hn, hnodes⟩ := @nodes_value ev t h
  refine ⟨n, hn, ?_⟩
  rw [node]
  simp only [hfound]
  split
  · obtain ⟨m, log, info, topo, hpointer⟩ := @pointer_eq host ev (value ev h t) h
    rw [hpointer]
    exact hnodes
  · exact hnodes

/-- Only an 8-byte write to a pointer variable touches an edge. -/
theorem edges_node (hfound : (s.addrIndex.lookup host.orders ev.addr).2 = some h) :
    (node host ev s).world.edges =
      if h.typeInfo.isPointer && ev.size == 8 then
        (s.world.updateEdge h.nodeId (pointee host ev s) ev.value).edges
      else s.world.edges := by
  let t : State := { s with addrIndex := (s.addrIndex.lookup host.orders ev.addr).1 }
  rw [node]
  simp only [hfound]
  split
  · obtain ⟨m, log, info, topo, hpointer⟩ := @pointer_eq host ev (value ev h t) h
    rw [hpointer]
    show Function.update (value ev h t).world.edges h.nodeId _ = _
    rw [edges_value]
    rfl
  · exact edges_value

theorem node_of_none (hnone : (s.addrIndex.lookup host.orders ev.addr).2 = none) :
    node host ev s = { s with addrIndex := (s.addrIndex.lookup host.orders ev.addr).1 } := by
  rw [node, hnone]

end Write

end Rtmap.Engine
