import Rtmap.Engine.Bounds

/-!
# What the counters decide

The counters of events and instructions, the clock of the nodes, the cache lines
and the shadow registers decide nothing but the grace of heap holes: events take
states that agree on everything else to such states.
-/
namespace Rtmap.Engine
open Rtmap.Ring

def Node.untimed (n : Node) : Node := { n with lastWriteInsn := 0 }

def HeapHazard.unsnapped (h : HeapHazard) : HeapHazard := { h with regSnapshot := none }

/-- The world without its counters, clocks and cache lines. -/
def World.uncounted (w : World) : World :=
  { w with
    nodes := fun id => (w.nodes id).map Node.untimed
    insnCounter := 0
    clTracker := fun _ => {}
    hazards := w.hazards.map HeapHazard.unsnapped
    lastAllocEventCount := 0
    totalEventCount := 0 }

/-- The state without them and without the shadow registers. -/
def State.uncounted (s : State) : State :=
  { s with world := s.world.uncounted, shadowRegs := fun _ => none }

namespace World
variable (w : World)

theorem nodeExists_uncounted (id : NodeId) : w.uncounted.nodeExists id = w.nodeExists id :=
  Option.isSome_map

theorem nodes_update_uncounted (id : NodeId) (n : Option Node) :
    (fun k => (Function.update w.nodes id n k).map Node.untimed) =
      Function.update w.uncounted.nodes id (n.map Node.untimed) :=
  Function.comp_update (Option.map Node.untimed) w.nodes id n

theorem ensureNode_uncounted (id : NodeId) (name : String) (ti : TypeInfo) (addr size : UInt64) :
    w.uncounted.ensureNode id name ti addr size = (w.ensureNode id name ti addr size).uncounted := by
  rw [ensureNode, ensureNode, nodeExists_uncounted]
  split
  · rfl
  · simp only [uncounted, nodes_update_uncounted]
    rfl

theorem removeNode_uncounted (id : NodeId) :
    w.uncounted.removeNode id = (w.removeNode id).uncounted := by
  simp only [removeNode, uncounted, nodes_update_uncounted]
  rfl

theorem uncounted_uncounted : w.uncounted.uncounted = w.uncounted := by
  have hnodes (o : Option Node) : (o.map Node.untimed).map Node.untimed = o.map Node.untimed := by
    rw [Option.map_map]
    rfl
  have hhazards (hs : List HeapHazard) : (hs.map HeapHazard.unsnapped).map HeapHazard.unsnapped =
      hs.map HeapHazard.unsnapped := by
    rw [List.map_map]
    rfl
  simp only [uncounted, hnodes, hhazards]

theorem updateValue_uncounted (id : NodeId) (v : UInt64) :
    (w.uncounted.updateValue id v).uncounted = (w.updateValue id v).uncounted := by
  cases h : w.nodes id with
  | none =>
      have h' : w.uncounted.nodes id = none := by simp [uncounted, h]
      rw [updateValue, updateValue, h, h']
      exact uncounted_uncounted w
  | some n =>
      have h' : w.uncounted.nodes id = some n.untimed := by simp [uncounted, h]
      have hworld := uncounted_uncounted w
      have hhazards := congrArg hazards hworld
      have hnodes := congrArg nodes hworld
      rw [updateValue, updateValue, h, h']
      simp only [uncounted] at hhazards hnodes ⊢
      rw [hhazards]
      congr 1
      funext k
      by_cases hk : k = id
      · subst hk
        simp [Node.untimed]
      · simp only [Function.update_of_ne hk]
        exact congrFun hnodes k

theorem removeFrameNodes_uncounted (fid : FrameId) :
    w.uncounted.removeFrameNodes fid = (w.removeFrameNodes fid).uncounted := by
  simp only [removeFrameNodes, nodeExists_uncounted]
  simp only [uncounted]
  congr 1
  funext id
  split <;> rfl

end World

section Globals

/-- The index under population with its world uncounted. -/
def Populating.uncounted (acc : Populating) : Populating :=
  { acc with world := acc.world.uncounted }

theorem registerFields_uncounted (gi : UInt32) (levels : ℕ) : ∀ name base fields acc,
    registerFields gi levels name base fields acc.uncounted =
      (registerFields gi levels name base fields acc).uncounted := by
  induction levels with
  | zero => exact fun _ _ _ _ => rfl
  | succ levels ih =>
      intro name base fields acc
      rw [registerFields, registerFields]
      induction fields generalizing acc with
      | nil => rfl
      | cons f fields ihf =>
          rw [List.foldl_cons, List.foldl_cons, ← ihf]
          congr 1
          simp only [Populating.uncounted, World.removeNode_uncounted, World.ensureNode_uncounted]
          split
          · rfl
          · split
            · exact ih _ _ _ ⟨_, _, _⟩
            · rfl

theorem populateGlobal_uncounted (replace : Bool) (g : GlobalVar) (delta : UInt64) (gi : UInt32)
    (idx : AddressIndex) (w : World) :
    populateGlobal replace g delta gi idx w.uncounted =
      ((populateGlobal replace g delta gi idx w).1,
        (populateGlobal replace g delta gi idx w).2.uncounted) := by
  have hremove : (if replace then w.uncounted.removeNode (.global gi) else w.uncounted) =
      (if replace then w.removeNode (.global gi) else w).uncounted := by
    split
    · exact w.removeNode_uncounted _
    · rfl
  have hstamp (v : World) : (if !g.typeInfo.fields.isEmpty && g.typeInfo.byteSize > 0 then
        { v.uncounted with
          stm := (v.uncounted.stm.stampType (g.addr + delta) g.typeInfo g.name 0).1 }
      else v.uncounted) = (if !g.typeInfo.fields.isEmpty && g.typeInfo.byteSize > 0 then
        { v with stm := (v.stm.stampType (g.addr + delta) g.typeInfo g.name 0).1 }
      else v).uncounted := by
    split <;> rfl
  have hfields (idx : AddressIndex) (v : World) :
      registerFields gi 7 g.name (g.addr + delta) g.typeInfo.fields ⟨idx, v.uncounted, 0⟩ =
        (registerFields gi 7 g.name (g.addr + delta) g.typeInfo.fields ⟨idx, v, 0⟩).uncounted :=
    registerFields_uncounted gi 7 _ _ _ ⟨idx, v, 0⟩
  simp only [populateGlobal, hremove, World.ensureNode_uncounted, hstamp, hfields]
  split <;> rfl

theorem populateGlobals_uncounted (host : Host) (info : DwarfInfo) (delta : UInt64)
    (idx : AddressIndex) (w : World) :
    populateGlobals host info delta idx w.uncounted =
      ((populateGlobals host info delta idx w).1,
        (populateGlobals host info delta idx w).2.uncounted) := by
  have hfold (gs : List (GlobalVar × ℕ)) : ∀ r : AddressIndex × World,
      gs.foldl (fun r g => populateGlobal true g.1 delta (UInt32.ofNat g.2) r.1 r.2)
          (r.1, r.2.uncounted) =
        ((gs.foldl (fun r g => populateGlobal true g.1 delta (UInt32.ofNat g.2) r.1 r.2) r).1,
          (gs.foldl (fun r g =>
            populateGlobal true g.1 delta (UInt32.ofNat g.2) r.1 r.2) r).2.uncounted) := by
    induction gs with
    | nil => exact fun _ => rfl
    | cons g gs ih =>
        intro r
        rw [List.foldl_cons, populateGlobal_uncounted, ih]
        rfl
  have hglobals := hfold info.globals.zipIdx (idx, w)
  dsimp only at hglobals
  simp only [populateGlobals, hglobals]

end Globals

section Reads
variable (s : State)

theorem uncounted_idem : s.uncounted.uncounted = s.uncounted := by
  simp only [State.uncounted, World.uncounted_uncounted]

theorem world_uncounted : s.uncounted.world = s.world.uncounted := rfl
theorem stm_uncounted (w : World) : w.uncounted.stm = w.stm := rfl
theorem heapAllocs_uncounted (w : World) : w.uncounted.heapAllocs = w.heapAllocs := rfl
theorem violations_uncounted (w : World) : w.uncounted.violations = w.violations := rfl
theorem addrIndex_uncounted : s.uncounted.addrIndex = s.addrIndex := rfl
theorem dwarfInfo_uncounted : s.uncounted.dwarfInfo = s.dwarfInfo := rfl
theorem heapOracle_uncounted : s.uncounted.heapOracle = s.heapOracle := rfl
theorem relocationDelta_uncounted : s.uncounted.relocationDelta = s.relocationDelta := rfl
theorem emit_uncounted (l : Line) : s.uncounted.emit l = (s.emit l).uncounted := rfl

theorem withStm_uncounted (f : ShadowTypeMap → ShadowTypeMap) :
    s.uncounted.withStm f = (s.withStm f).uncounted := rfl

end Reads

namespace Write
variable (host : Host) (ev : Event) (s : State)

/-- The cache line and the registers of a write are not counted. -/
theorem uncounted_registers (writers : UInt16) :
    (cohere ev writers (observe ev s)).uncounted = s.uncounted := by
  have hobserve : (observe ev s).uncounted = s.uncounted := by
    rw [observe]
    split
    · rfl
    · split <;> rfl
  rw [cohere]
  split
  · exact hobserve
  · exact hobserve

theorem fields_uncounted : fields ev s.uncounted = (fields ev s).uncounted := by
  have hlast (t : State) : emitLastViolation ev t.uncounted = (emitLastViolation ev t).uncounted := by
    dsimp only [emitLastViolation, world_uncounted, violations_uncounted]
    split <;> rfl
  have hcheck (p : TypeProjection) (t : State) :
      checkFields ev p t.uncounted = (checkFields ev p t).uncounted := by
    rw [checkFields, checkFields]
    split
    · rename_i v _
      exact hlast { t with world := t.world.recordViolation v }
    · rfl
  have hlink (p : TypeProjection) (t : State) :
      linkField ev p t.uncounted = (linkField ev p t).uncounted := by
    rw [linkField, linkField]
    split
    · split <;> rfl
    · rfl
  dsimp only [fields, world_uncounted, stm_uncounted]
  split
  · rfl
  · rw [hcheck, hlink]

theorem upgrade_uncounted (info : DwarfInfo) :
    upgrade ev info s.uncounted = (upgrade ev info s).uncounted := by
  dsimp only [upgrade, world_uncounted, stm_uncounted]
  split
  · rfl
  · split
    · split <;> rfl
    · rfl

theorem emitStamp_uncounted (seq : ℕ) (addr : UInt64) :
    emitStamp seq addr s.uncounted = (emitStamp seq addr s).uncounted := by
  dsimp only [emitStamp, world_uncounted, stm_uncounted]
  split <;> rfl

theorem deepen_uncounted (info : DwarfInfo) :
    deepen host ev info s.uncounted = (deepen host ev info s).uncounted := by
  have hinfo : ensured host ev info s.uncounted = ensured host ev info s := rfl
  let info' := ensured host ev info s
  let scanned := (upgrade ev info' s).withStm fun m => m.retrospectiveScan
    ((upgrade ev info' s).scanSource host info'.typeRegistry) (writeValue ev) (seqOf ev)
  rw [deepen, hinfo, upgrade_uncounted]
  exact emitStamp_uncounted { scanned with dwarfInfo := some info' } _ _

theorem propagate_uncounted : propagate host ev s.uncounted = (propagate host ev s).uncounted := by
  have hdefers (t : State) : defers ev t.uncounted = defers ev t := rfl
  dsimp only [propagate, dwarfInfo_uncounted, world_uncounted, stm_uncounted, heapAllocs_uncounted]
  split
  · rfl
  · rw [withStm_uncounted, deepen_uncounted, hdefers]
    split
    · rfl
    · split <;> rfl

/-- The write goes between the tracked blocks, at an address without a hazard yet
and while there is room for one. -/
structure FreshHole (ev : Event) (s : State) : Prop where
  heap : s.heapOracle.isHeap ev.addr = true
  room : s.world.hazards.length < 64
  fresh : ∀ h ∈ s.world.hazards, h.writeAddr ≠ ev.addr
  fits : (checkedAdd ev.addr ev.size.toUInt64).isSome
  outside : s.world.heapAllocs.containingAlloc ev.addr = none
  between : s.world.heapAllocs.spans ev.addr = true

/-- A hole is no longer put down to the order of the rings. -/
def graceOver (s : State) : Prop :=
  HEAP_HOLE_GRACE ≤ s.world.totalEventCount - s.world.lastAllocEventCount

theorem freshHole_of_uncounted {ev : Event} {s t : State} (h : s.uncounted = t.uncounted)
    (hole : FreshHole ev s) : FreshHole ev t := by
  have horacle : s.heapOracle = t.heapOracle := by
    rw [← heapOracle_uncounted, h, heapOracle_uncounted]
  have hallocs : s.world.heapAllocs = t.world.heapAllocs := by
    rw [← heapAllocs_uncounted, ← world_uncounted, h]
    rfl
  have hhazards : s.world.hazards.map HeapHazard.writeAddr =
      t.world.hazards.map HeapHazard.writeAddr := by
    have hmap (x : State) : x.world.hazards.map HeapHazard.writeAddr =
        x.uncounted.world.hazards.map HeapHazard.writeAddr := by
      rw [world_uncounted, World.uncounted, List.map_map]
      rfl
    rw [hmap s, h, ← hmap t]
  refine ⟨horacle ▸ hole.heap, ?_, fun y hy => ?_, hole.fits, hallocs ▸ hole.outside,
    hallocs ▸ hole.between⟩
  · have hlen := congrArg List.length hhazards
    rw [List.length_map, List.length_map] at hlen
    exact hlen ▸ hole.room
  · have hmem := hhazards ▸ List.mem_map_of_mem (f := HeapHazard.writeAddr) hy
    obtain ⟨z, hz, hzy⟩ := List.mem_map.mp hmem
    exact hzy ▸ hole.fresh z hz

theorem hole_of_checkWriteBounds {allocs : HeapAllocTracker} {addr : UInt64} {size : UInt32}
    {stm : ShadowTypeMap} {h : HeapHazard} (hkind : h.kind = .heapHole)
    (hh : allocs.checkWriteBounds addr size stm = some h) :
    (checkedAdd addr size.toUInt64).isSome ∧ allocs.containingAlloc addr = none ∧
      allocs.spans addr = true := by
  rw [HeapAllocTracker.checkWriteBounds] at hh
  split at hh
  · cases hh
  · rename_i hfits
    split at hh
    · dsimp only at hh
      split at hh
      · rw [← Option.some.inj hh] at hkind
        cases hkind
      · cases hh
    · rename_i hnone
      split at hh
      · rename_i hspans
        exact ⟨by rw [hfits]; rfl, hnone, hspans⟩
      · cases hh

theorem writeAddr_of_checkWriteBounds {allocs : HeapAllocTracker} {addr : UInt64} {size : UInt32}
    {stm : ShadowTypeMap} {h : HeapHazard}
    (hh : allocs.checkWriteBounds addr size stm = some h) : h.writeAddr = addr := by
  rw [HeapAllocTracker.checkWriteBounds] at hh
  split at hh
  · cases hh
  · split at hh
    · dsimp only at hh
      split at hh
      · rw [← Option.some.inj hh]
      · cases hh
    · split at hh
      · rw [← Option.some.inj hh]
      · cases hh

/-- The bounds check in states that agree but for the counters. -/
theorem bounds_of_uncounted {s t : State} (h : s.uncounted = t.uncounted)
    (hheap : s.heapOracle.isHeap ev.addr = true)
    (hgrace : FreshHole ev s → (graceOver s ↔ graceOver t)) :
    (bounds ev s).uncounted = (bounds ev t).uncounted := by
  have hstm : s.world.stm = t.world.stm := by
    rw [← stm_uncounted, ← world_uncounted, h]
    rfl
  have hallocs : s.world.heapAllocs = t.world.heapAllocs := by
    rw [← heapAllocs_uncounted, ← world_uncounted, h]
    rfl
  have hhazards : s.world.hazards.map HeapHazard.unsnapped =
    t.world.hazards.map HeapHazard.unsnapped := congrArg (fun u : State => u.world.hazards) h
  have hlen : s.world.hazards.length = t.world.hazards.length := by
    simpa using congrArg List.length hhazards
  have hany (x : State) (a : UInt64) : (x.world.hazards.any fun prev => prev.writeAddr == a) =
      (x.world.hazards.map HeapHazard.unsnapped).any fun prev => prev.writeAddr == a := by
    rw [List.any_map]
    rfl
  have hpush (x : State) (z : HeapHazard) (l : Line) :
      (({ x with world := { x.world with hazards := x.world.hazards ++ [z] } } : State).emit l).uncounted =
        ({ x.uncounted with world := { x.uncounted.world with
          hazards := x.uncounted.world.hazards ++ [z.unsnapped] } } : State).emit l := by
    simp only [State.uncounted, World.uncounted, List.map_append, State.emit]
    rfl
  rw [bounds, bounds, ← hlen, ← hstm, ← hallocs]
  split
  · rename_i hroom
    cases hcheck : s.world.heapAllocs.checkWriteBounds ev.addr ev.size s.world.stm with
    | none => exact h
    | some z =>
        have haddr := writeAddr_of_checkWriteBounds hcheck
        have hprev := (hany s z.writeAddr).trans ((congrArg (fun l : List HeapHazard =>
          l.any fun prev => prev.writeAddr == z.writeAddr) hhazards).trans (hany t z.writeAddr).symm)
        by_cases hold : (s.world.hazards.any fun prev => prev.writeAddr == z.writeAddr) = true
        · have hold' := hprev ▸ hold
          simp only [hold, hold', Bool.or_true, if_true]
          exact h
        · have hold' := hprev ▸ hold
          have hin : inGrace s.world z = inGrace t.world z := by
            cases hkind : z.kind with
            | outOfBounds =>
                rw [inGrace, inGrace, hkind]
                rfl
            | heapHole =>
                obtain ⟨hfits, hout, hspans⟩ := hole_of_checkWriteBounds hkind hcheck
                have hover := hgrace ⟨hheap, hroom, fun y hy hya => hold
                  (List.any_eq_true.mpr ⟨y, hy, by rw [hya, haddr]; exact beq_self_eq_true _⟩),
                  hfits, hout, hspans⟩
                simp only [graceOver] at hover
                simp only [inGrace, hkind, beq_self_eq_true, Bool.true_and, decide_eq_decide]
                omega
          simp only [hold, hold', hin, Bool.or_false]
          split
          · exact h
          · rw [hpush, hpush, h]
            rfl
  · exact h

theorem report_uncounted (newType newSource : String) (r : StampResult) :
    report ev newType newSource r s.uncounted = (report ev newType newSource r s).uncounted := by
  have hlog (old : OldStamp) (t : State) :
      logSchism ev old t.uncounted = (logSchism ev old t).uncounted := by
    dsimp only [logSchism, world_uncounted, heapAllocs_uncounted]
    split <;> rfl
  cases r <;> simp only [report, closeSchism, hlog, emit_uncounted]

theorem stampVariable_uncounted (name : String) (registry : Registry) (pointee : TypeInfo) :
    stampVariable host ev name registry pointee s.uncounted =
      (stampVariable host ev name registry pointee s).uncounted := by
  dsimp only [stampVariable, world_uncounted, stm_uncounted]
  rw [withStm_uncounted, report_uncounted]
  by_cases happlied : (s.world.stm.stampType ev.value pointee name (seqOf ev)).2.applied = true
  · simp only [happlied, if_true]
    rfl
  · simp only [happlied]
    rfl

theorem stampPointee_uncounted (name typeName : String) :
    stampPointee host ev name typeName s.uncounted =
      (stampPointee host ev name typeName s).uncounted := by
  dsimp only [stampPointee, dwarfInfo_uncounted]
  split
  · rfl
  · rename_i info _
    split
    · exact stampVariable_uncounted host ev
        { s with dwarfInfo := some (pointeeInfo host typeName info) } _ _ _
    · rfl

theorem pointer_uncounted (h : Interval) :
    pointer host ev h s.uncounted = (pointer host ev h s).uncounted := by
  have hedge : edge host ev h s.uncounted = (edge host ev h s).uncounted := rfl
  dsimp only [pointer]
  rw [hedge, heapOracle_uncounted, stampPointee_uncounted]
  split
  · rfl
  · split <;> rfl

theorem value_uncounted (h : Interval) :
    (value ev h s.uncounted).uncounted = (value ev h s).uncounted := by
  dsimp only [value, world_uncounted]
  rw [World.ensureNode_uncounted]
  exact congrArg (fun w : World => ({ s with
    world := w, shadowRegs := fun _ => none } : State)) (World.updateValue_uncounted _ _ _)

theorem node_uncounted : (node host ev s.uncounted).uncounted = (node host ev s).uncounted := by
  have hpointer (h : Interval) {x y : State} (hxy : x.uncounted = y.uncounted) :
      (pointer host ev h x).uncounted = (pointer host ev h y).uncounted := by
    rw [← pointer_uncounted, ← pointer_uncounted, hxy]
  dsimp only [node, addrIndex_uncounted]
  split
  · exact uncounted_idem { s with addrIndex := (s.addrIndex.lookup host.orders ev.addr).1 }
  · rename_i h _
    have hvalue := value_uncounted ev
      { s with addrIndex := (s.addrIndex.lookup host.orders ev.addr).1 } h
    split
    · exact hpointer h hvalue
    · exact hvalue

end Write

/-- The state in which a write to the heap is checked against the blocks. -/
def Write.beforeBounds (host : Host) (ev : Event) (s : State) : State :=
  Write.propagate host ev (Write.fields ev (Write.graph ev (Write.registered ev s)))

section Stages
variable (host : Host) (ev : Event) (s : State)

theorem Write.fixed_beforeBounds :
    (Write.beforeBounds host ev s).kept.fixed = s.kept.fixed := by
  simp only [beforeBounds, kept_propagate, kept_fields, kept_graph, fixed_registered]

theorem Write.hazards_beforeBounds :
    (Write.beforeBounds host ev s).world.hazards = s.world.hazards := by
  rw [beforeBounds, hazards_propagate, hazards_fields]
  exact hazards_registered

theorem processWrite_eq : processWrite host ev s = Write.node host ev
    (if s.heapOracle.isHeap ev.addr then Write.bounds ev (Write.beforeBounds host ev s)
      else Write.registered ev s) := by
  have horacle : (Write.registered ev s).heapOracle = s.heapOracle :=
    congrArg Kept.heapOracle (Write.fixed_registered ev s)
  show Write.node host ev (Write.heap host ev (Write.registered ev s)) = _
  rw [Write.heap, horacle]
  rfl

/-- A fresh hole is one still when the write is checked. -/
theorem Write.freshHole_beforeBounds (hheap : s.heapOracle.isHeap ev.addr = true) :
    Write.FreshHole ev (Write.beforeBounds host ev s) ↔ Write.FreshHole ev s := by
  have hkept := fixed_beforeBounds host ev s
  have hallocs : (beforeBounds host ev s).world.heapAllocs = s.world.heapAllocs :=
    congrArg Kept.heapAllocs hkept
  have horacle : (beforeBounds host ev s).heapOracle = s.heapOracle :=
    congrArg Kept.heapOracle hkept
  have hhazards := hazards_beforeBounds host ev s
  constructor
  · exact fun h => ⟨hheap, hhazards ▸ h.room, hhazards ▸ h.fresh, h.fits, hallocs ▸ h.outside,
      hallocs ▸ h.between⟩
  · exact fun h => ⟨horacle ▸ hheap, hhazards ▸ h.room, hhazards ▸ h.fresh, h.fits,
      hallocs ▸ h.outside, hallocs ▸ h.between⟩

theorem Write.graceOver_beforeBounds :
    Write.graceOver (Write.beforeBounds host ev s) ↔ Write.graceOver s := by
  have hkept := fixed_beforeBounds host ev s
  have htotal : (beforeBounds host ev s).world.totalEventCount = s.world.totalEventCount :=
    congrArg Kept.totalEventCount hkept
  have hlast : (beforeBounds host ev s).world.lastAllocEventCount = s.world.lastAllocEventCount :=
    congrArg Kept.lastAllocEventCount hkept
  rw [graceOver, graceOver, htotal, hlast]

end Stages

section Events
variable {host : Host} {ev : Event} {s t : State}

theorem processWrite_of_uncounted (h : s.uncounted = t.uncounted)
    (hgrace : Write.FreshHole ev s → (Write.graceOver s ↔ Write.graceOver t)) :
    (processWrite host ev s).uncounted = (processWrite host ev t).uncounted := by
  have hregistered (x : State) : (Write.registered ev x).uncounted = x.uncounted :=
    Write.uncounted_registers ev _ _
  have hbefore : (Write.beforeBounds host ev s).uncounted =
      (Write.beforeBounds host ev t).uncounted := by
    have hgraph (x : State) : Write.graph ev x.uncounted = (Write.graph ev x).uncounted := rfl
    simp only [Write.beforeBounds, ← Write.propagate_uncounted, ← Write.fields_uncounted, ← hgraph,
      hregistered, h]
  have hsame : s.heapOracle = t.heapOracle := by
    rw [← heapOracle_uncounted, h, heapOracle_uncounted]
  rw [processWrite_eq, processWrite_eq, ← Write.node_uncounted, ← hsame]
  split
  · rename_i hheap
    have hbounds := Write.bounds_of_uncounted ev hbefore
      ((congrArg (fun o : HeapOracle => o.isHeap ev.addr)
        (congrArg Kept.heapOracle (Write.fixed_beforeBounds host ev s))).trans hheap)
      fun hole => by
        rw [Write.graceOver_beforeBounds, Write.graceOver_beforeBounds]
        exact hgrace ((Write.freshHole_beforeBounds host ev s hheap).mp hole)
    rw [hbounds, Write.node_uncounted]
  · rw [hregistered, h, ← hregistered t, Write.node_uncounted]

theorem processCall_uncounted :
    (processCall host ev s.uncounted).uncounted = (processCall host ev s).uncounted := by
  have hcall (x : State) (addr : UInt64) : x.uncounted.callee addr = x.callee addr := rfl
  have hlocals (ls : List (LocalVar × ℕ)) (id : LocalVar × ℕ → NodeId)
      (addr : LocalVar × ℕ → UInt64) : ∀ w : World,
      ls.foldl (fun w l => w.ensureNode (id l) l.1.name l.1.typeInfo (addr l) l.1.size) w.uncounted =
        (ls.foldl (fun w l =>
          w.ensureNode (id l) l.1.name l.1.typeInfo (addr l) l.1.size) w).uncounted := by
    induction ls with
    | nil => exact fun _ => rfl
    | cons l ls ih =>
        intro w
        rw [List.foldl_cons, World.ensureNode_uncounted, ih]
        rfl
  have henter (f : FunctionMeta) (x : State) :
      Call.enter host ev f x.uncounted = (Call.enter host ev f x).uncounted := by
    rw [Call.enter, world_uncounted, hlocals]
    rfl
  have harrived : (Call.arrived ev s.uncounted).uncounted = (Call.arrived ev s).uncounted :=
    congrArg (fun w : World => ({ (Call.arrived ev s).uncounted with world := w } : State))
      (World.uncounted_uncounted _)
  rw [processCall_eq, processCall_eq, ← hcall, harrived, hcall]
  cases (Call.arrived ev s).callee ev.addr with
  | none => exact harrived
  | some f =>
      dsimp only [Option.elim]
      rw [← henter, harrived, henter]

theorem processReturn_uncounted :
    (processReturn ev s.uncounted).uncounted = (processReturn ev s).uncounted := by
  have hretire (fid : FrameId) (x : State) :
      retireFrame fid x.uncounted = (retireFrame fid x).uncounted := by
    have hframe (f : FrameId) : x.uncounted.world.removeFrameNodes f =
        (x.world.removeFrameNodes f).uncounted := World.removeFrameNodes_uncounted _ _
    dsimp only [retireFrame]
    rw [show x.uncounted.returnedFrames = x.returnedFrames from rfl]
    split
    · rw [hframe]
      split <;> rfl
    · rfl
  dsimp only [processReturn]
  rw [show (s.uncounted.withRegs ev.threadId
    (returnRegs ev s.uncounted.dwarfInfo)).threadStacks ev.threadId = s.threadStacks ev.threadId
    from rfl, show (s.withRegs ev.threadId (returnRegs ev s.dwarfInfo)).threadStacks ev.threadId =
    s.threadStacks ev.threadId from rfl]
  split
  · exact uncounted_idem s
  · rename_i stack _
    let popped : State := { s.withRegs ev.threadId (returnRegs ev s.dwarfInfo) with
      threadStacks := Function.update s.threadStacks ev.threadId (some stack.popReturn.1) }
    split
    · exact uncounted_idem popped
    · rename_i f _
      let removed : State := { popped with addrIndex := popped.addrIndex.removeFrame f.frameId }
      exact (hretire _ _).symm.trans
        ((congrArg (retireFrame f.frameId) (uncounted_idem removed)).trans (hretire _ removed))

theorem closeEpoch_uncounted (oldSize : UInt64) (reason : EpochClose) (line : CloseReason) :
    Alloc.closeEpoch ev oldSize reason line s.uncounted =
      (Alloc.closeEpoch ev oldSize reason line s).uncounted := by
  dsimp only [Alloc.closeEpoch, world_uncounted, stm_uncounted]
  split <;> rfl

theorem track_uncounted : (Alloc.track ev s.uncounted).uncounted = (Alloc.track ev s).uncounted := by
  have hretire (oldSize : UInt64) (x : State) :
      Alloc.retire ev oldSize x.uncounted = (Alloc.retire ev oldSize x).uncounted := by
    rw [Alloc.retire, closeEpoch_uncounted]
    rfl
  have hrecord : (Alloc.record ev s.uncounted).1.uncounted = (Alloc.record ev s).1.uncounted :=
    congrArg (fun w : World => ({ (Alloc.record ev s).1.uncounted with world := w } : State))
      (World.uncounted_uncounted { s.world with
        heapAllocs := (s.world.heapAllocs.onAlloc ev.addr (Alloc.size ev)).1 })
  have hrenew (old : Option UInt64) (x : State) :
      Alloc.renew ev old x.uncounted = (Alloc.renew ev old x).uncounted := by
    cases old with
    | some oldSize => exact hretire oldSize x
    | none => rfl
  have hold : (Alloc.record ev s.uncounted).2 = (Alloc.record ev s).2 := rfl
  rw [Alloc.track, Alloc.track, hold]
  split
  · exact hrecord
  · rw [← emit_uncounted, ← hrenew, hrecord, hrenew, emit_uncounted]

theorem stampBirth_uncounted :
    Alloc.stampBirth host ev s.uncounted = (Alloc.stampBirth host ev s).uncounted := by
  have hblock (source : String) (registry : Registry) (ti : TypeInfo) (x : State) :
      Alloc.stampBlock host ev source registry ti x.uncounted =
        (Alloc.stampBlock host ev source registry ti x).uncounted := by
    dsimp only [Alloc.stampBlock, world_uncounted, stm_uncounted]
    by_cases happlied : (x.world.stm.stampType ev.addr ti source (seqOf ev)).2.applied = true
    · simp only [happlied, if_true]
      rfl
    · simp only [happlied]
      rfl
  dsimp only [Alloc.stampBirth, dwarfInfo_uncounted, relocationDelta_uncounted]
  split
  · rename_i info delta _ _
    rw [show s.uncounted.framesOf ev.threadId = s.framesOf ev.threadId from rfl]
    split
    · rfl
    · rename_i ti _
      exact hblock _ _ _ { s with dwarfInfo := some (info.ensureType host.deep ti.name) }
  · rfl

theorem processFree_uncounted : processFree ev s.uncounted = (processFree ev s).uncounted := by
  have hpurge (addr size : UInt64) (x : State) :
      Free.purge addr size x.uncounted = (Free.purge addr size x).uncounted := rfl
  let untracked : State := { s with world := { s.world with
    heapAllocs := (s.world.heapAllocs.onFree ev.addr).1 } }
  have hclose (oldSize : UInt64) : Alloc.closeEpoch ev oldSize .free .free untracked.uncounted =
      (Alloc.closeEpoch ev oldSize .free .free untracked).uncounted :=
    closeEpoch_uncounted oldSize .free .free
  dsimp only [processFree, world_uncounted, stm_uncounted, heapAllocs_uncounted]
  split
  · rename_i oldSize _
    exact congrArg (fun x => (Free.purge ev.addr oldSize x).emit _) (hclose oldSize)
  · split
    · rename_i p _
      exact congrArg (Free.purge ev.addr p.typeInfo.byteSize) (hclose p.typeInfo.byteSize)
    · rfl

theorem processModuleLoad_uncounted :
    processModuleLoad host ev s.uncounted = (processModuleLoad host ev s).uncounted := by
  dsimp only [processModuleLoad, dwarfInfo_uncounted, relocationDelta_uncounted]
  split
  · rw [world_uncounted, populateGlobals_uncounted]
    rfl
  · rfl

/-- An event takes states that agree but for the counters to such states, where a
fresh hole is in or out of its grace in both. -/
theorem processEvent_of_uncounted (h : s.uncounted = t.uncounted)
    (hgrace : kindOf ev = .write → Write.FreshHole ev s →
      (Write.graceOver (countEvent s) ↔ Write.graceOver (countEvent t))) :
    (processEvent host ev s).uncounted = (processEvent host ev t).uncounted := by
  have hcount (x : State) : (countEvent x).uncounted = x.uncounted := rfl
  have hcounted : (countEvent s).uncounted = (countEvent t).uncounted := h
  have hboth {f : State → State} (hf : ∀ x, (f x.uncounted).uncounted = (f x).uncounted) :
      (f (countEvent s)).uncounted = (f (countEvent t)).uncounted := by
    rw [← hf, hcounted, hf]
  rw [processEvent, processEvent, processKind, processKind]
  cases hkind : kindOf ev with
  | write =>
      refine processWrite_of_uncounted hcounted fun hole => ?_
      exact hgrace hkind ⟨hole.heap, hole.room, hole.fresh, hole.fits, hole.outside, hole.between⟩
  | call => exact hboth fun _ => processCall_uncounted
  | ret => exact hboth fun _ => processReturn_uncounted
  | alloc =>
      refine hboth (f := processAlloc host ev) fun x => ?_
      rw [processAlloc, processAlloc, ← stampBirth_uncounted, track_uncounted, stampBirth_uncounted]
  | free => exact hboth fun x => by rw [processFree_uncounted, uncounted_idem]
  | moduleLoad => exact hboth fun x => by rw [processModuleLoad_uncounted, uncounted_idem]
  | reload => exact hcounted
  | read => exact hcounted
  | bbEntry => exact hcounted
  | tailCall => exact congrArg (fun x : State => { x with
      heapOracle := x.heapOracle.updateStack ev.threadId ev.value }) hcounted
  | cacheMiss => exact congrArg (fun x : State => { x with
      addrIndex := (x.addrIndex.lookup host.orders ev.addr).1 }) hcounted
  | regSnapshot => exact hcounted
  | processFork => exact hcounted
  | sharedMap => exact hcounted
  | unknown => exact congrArg (fun x : State => { x with world := { x.world with
      unknownEventKinds := x.world.unknownEventKinds + 1 } }) hcounted

end Events

end Rtmap.Engine
