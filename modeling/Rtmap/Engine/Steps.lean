import Rtmap.Engine.Reconciler
import Rtmap.Lib.Transition

/-!
# Steps of the engine

What every stage of a WRITE and of the birth stamp leaves alone, said once as
`State.kept`, and the engine as a transition system: events, register snapshots
and the merge of the libraries.
-/
namespace Rtmap.Engine
open Rtmap.Ring Transition

/-- The DWARF data apart from the type registry, which events extend. -/
def DwarfInfo.static (info : DwarfInfo) : DwarfInfo := { info with typeRegistry := fun _ => none }

@[simp] theorem DwarfInfo.static_ensureType (info : DwarfInfo)
    (deep : Registry → String → Option TypeInfo) (n : String) :
    (info.ensureType deep n).static = info.static := rfl

/-- The call stacks, the frames of the index and whether its statics are sorted, the
live blocks, the address classes, the counters of events, the fixed DWARF data and the
shadow registers. -/
structure Kept where
  threadStacks : UInt16 → Option ShadowStack
  nextFrameId : FrameId
  returnedFrames : List FrameId
  relocationDelta : Option UInt64
  heapOracle : HeapOracle
  dynamics : List (FrameId × List Interval)
  staticsSorted : Bool
  dwarf : Option DwarfInfo
  heapAllocs : HeapAllocTracker
  totalEventCount : ℕ
  lastAllocEventCount : ℕ
  insnCounter : ℕ
  shadowRegs : UInt16 → Option ShadowRegisterFile

/-- All of it but the shadow registers. -/
def Kept.fixed (k : Kept) : Kept := { k with shadowRegs := fun _ => none }

def State.kept (s : State) : Kept where
  threadStacks := s.threadStacks
  nextFrameId := s.nextFrameId
  returnedFrames := s.returnedFrames
  relocationDelta := s.relocationDelta
  heapOracle := s.heapOracle
  dynamics := s.addrIndex.dynamics
  staticsSorted := s.addrIndex.staticsSorted
  dwarf := s.dwarfInfo.map DwarfInfo.static
  heapAllocs := s.world.heapAllocs
  totalEventCount := s.world.totalEventCount
  lastAllocEventCount := s.world.lastAllocEventCount
  insnCounter := s.world.insnCounter
  shadowRegs := s.shadowRegs

section Kept
variable (s : State)

@[simp] theorem kept_emit (l : Line) : (s.emit l).kept = s.kept := rfl

@[simp] theorem kept_withStm (f : ShadowTypeMap → ShadowTypeMap) :
    (s.withStm f).kept = s.kept := rfl

@[simp] theorem fixed_withRegs (tid : UInt16) (f : ShadowRegisterFile → ShadowRegisterFile) :
    (s.withRegs tid f).kept.fixed = s.kept.fixed := rfl

theorem kept_withDwarf {info info' : DwarfInfo} (h : s.dwarfInfo = some info)
    (hstatic : info'.static = info.static) :
    ({ s with dwarfInfo := some info' } : State).kept = s.kept := by
  simp [State.kept, h, hstatic]

theorem kept_withAddrIndex {idx : AddressIndex} (h : idx.dynamics = s.addrIndex.dynamics)
    (hsorted : idx.staticsSorted = s.addrIndex.staticsSorted) :
    ({ s with addrIndex := idx } : State).kept = s.kept := by
  simp [State.kept, h, hsorted]

/-- What the lookup of a function reads. -/
def State.lookups (s : State) : Option UInt64 × Option DwarfInfo :=
  (s.relocationDelta, s.dwarfInfo.map DwarfInfo.static)

theorem callee_of_lookups {s t : State} (h : t.lookups = s.lookups) (addr : UInt64) :
    t.callee addr = s.callee addr := by
  have hcallee (x : State) : x.callee addr = (x.lookups.2.map DwarfInfo.functions).bind fun m =>
      m.get? (x.lookups.1.elim addr fun d => addr - d) := by
    have hpc : x.elfPc addr = x.lookups.1.elim addr fun d => addr - d := by
      rw [State.elfPc, State.lookups]
      cases x.relocationDelta <;> rfl
    simp only [State.callee, hpc, State.lookups, Option.bind_map]
    rfl
  rw [hcallee, hcallee, h]

/-- The state in which a CALL looks up its callee. -/
def Call.arrived (ev : Event) (s : State) : State :=
  let t := s.withRegs ev.threadId fun f => f.onCall ev.addr ev.value (seqOf ev)
  { t with heapOracle := t.heapOracle.updateStack ev.threadId ev.value }

theorem processCall_eq (host : Host) (ev : Event) (s : State) : processCall host ev s =
    ((Call.arrived ev s).callee ev.addr).elim (Call.arrived ev s) fun f =>
      Call.enter host ev f (Call.arrived ev s) := by
  unfold processCall Call.arrived
  dsimp only
  split <;> rename_i hcallee <;> rw [hcallee] <;> rfl

def Kept.lookups (k : Kept) : Option UInt64 × Option DwarfInfo := (k.relocationDelta, k.dwarf)

end Kept

namespace Write
variable (host : Host) (ev : Event) (s : State)

@[simp] theorem kept_recordLine : (recordLine ev s).1.kept = s.kept := rfl

@[simp] theorem fixed_observe : (observe ev s).kept.fixed = s.kept.fixed := by
  rw [observe]
  split
  · rfl
  · split <;> rfl

@[simp] theorem fixed_cohere (writers : UInt16) :
    (cohere ev writers s).kept.fixed = s.kept.fixed := by
  rw [cohere]
  split <;> rfl

/-- The state with the write's cache line and registers taken in. -/
def registered : State :=
  let r := recordLine ev s
  cohere ev r.2 (observe ev r.1)

@[simp] theorem fixed_registered : (registered ev s).kept.fixed = s.kept.fixed := by
  simp only [registered, fixed_cohere, fixed_observe, kept_recordLine]

@[simp] theorem kept_graph : (graph ev s).kept = s.kept := rfl

@[simp] theorem kept_checkFields (p : TypeProjection) : (checkFields ev p s).kept = s.kept := by
  rw [checkFields]
  split
  · rw [emitLastViolation]
    split <;> rfl
  · rfl

@[simp] theorem kept_linkField (p : TypeProjection) : (linkField ev p s).kept = s.kept := by
  rw [linkField]
  split
  · split <;> rfl
  · rfl

@[simp] theorem kept_fields : (fields ev s).kept = s.kept := by
  rw [fields]
  split
  · rfl
  · simp

theorem static_ensured (info : DwarfInfo) : (ensured host ev info s).static = info.static := by
  rw [ensured]
  split <;> rfl

/-- Deepening a projection touches the type map only. -/
theorem upgrade_eq (info : DwarfInfo) : ∃ f, upgrade ev info s = s.withStm f := by
  rw [upgrade]
  split
  · exact ⟨id, rfl⟩
  · split
    · split
      · exact ⟨_, rfl⟩
      · exact ⟨id, rfl⟩
    · exact ⟨id, rfl⟩

@[simp] theorem kept_emitStamp (seq : ℕ) (addr : UInt64) : (emitStamp seq addr s).kept = s.kept := by
  rw [emitStamp]
  split <;> rfl

theorem kept_deepen {info : DwarfInfo} (h : s.dwarfInfo = some info) :
    (deepen host ev info s).kept = s.kept := by
  obtain ⟨f, hf⟩ := upgrade_eq ev s (ensured host ev info s)
  rw [deepen, kept_emitStamp, kept_withDwarf _ _ (static_ensured host ev s info)]
  · rw [kept_withStm, hf, kept_withStm]
  · rw [hf]
    exact h

@[simp] theorem kept_propagate : (propagate host ev s).kept = s.kept := by
  rw [propagate]
  split
  · rfl
  · rename_i info hinfo
    dsimp only
    split
    · rw [kept_deepen host ev _ (by exact hinfo), kept_withStm]
    · split <;> rfl

@[simp] theorem kept_bounds : (bounds ev s).kept = s.kept := by
  rw [bounds]
  split
  · split
    · rfl
    · split <;> rfl
  · rfl

@[simp] theorem kept_heap : (heap host ev s).kept = s.kept := by
  rw [heap]
  split
  · simp
  · rfl

@[simp] theorem kept_report (newType newSource : String) (r : StampResult) :
    (report ev newType newSource r s).kept = s.kept := by
  have hlog (old : OldStamp) : (logSchism ev old s).kept = s.kept := by
    rw [logSchism]
    split <;> rfl
  cases r <;> simp [report, closeSchism, hlog]

@[simp] theorem kept_spread (registry : Registry) (addr : UInt64) (seq : ℕ) :
    (spread host registry addr seq s).kept = s.kept := rfl

@[simp] theorem kept_stampVariable (name : String) (registry : Registry) (pointee : TypeInfo) :
    (stampVariable host ev name registry pointee s).kept = s.kept := by
  rw [stampVariable]
  split <;> simp

@[simp] theorem kept_stampPointee (name typeName : String) :
    (stampPointee host ev name typeName s).kept = s.kept := by
  rw [stampPointee]
  split
  · rfl
  · rename_i info hinfo
    have hstatic : (pointeeInfo host typeName info).static = info.static := rfl
    have hdwarf := kept_withDwarf s hinfo hstatic
    dsimp only
    split
    · rw [kept_stampVariable, hdwarf]
    · exact hdwarf

@[simp] theorem kept_edge (h : Interval) : (edge host ev h s).kept = s.kept := by
  have hidx : (target host ev s).1.dynamics = s.addrIndex.dynamics ∧
      (target host ev s).1.staticsSorted = s.addrIndex.staticsSorted := by
    rw [target]
    split
    · exact ⟨rfl, rfl⟩
    · exact ⟨AddressIndex.lookup_dynamics _, AddressIndex.lookup_staticsSorted _⟩
  simp only [edge, State.kept, hidx]
  rfl

@[simp] theorem kept_pointer (h : Interval) : (pointer host ev h s).kept = s.kept := by
  rw [pointer]
  dsimp only
  split
  · simp
  · split <;> simp

@[simp] theorem kept_value (h : Interval) : (value ev h s).kept = s.kept := by
  have hnode : (s.world.ensureNode h.nodeId h.name h.typeInfo ev.addr ev.size.toUInt64) = s.world ∨
      ∃ n, (s.world.ensureNode h.nodeId h.name h.typeInfo ev.addr ev.size.toUInt64) =
        { s.world with nodes := n } := by
    rw [World.ensureNode]
    split
    · exact .inl rfl
    · exact .inr ⟨_, rfl⟩
  rw [value]
  rcases hnode with h' | ⟨n, h'⟩ <;> rw [h', World.updateValue] <;> split <;> rfl

@[simp] theorem kept_node : (node host ev s).kept = s.kept := by
  have hdyn : (s.addrIndex.lookup host.orders ev.addr).1.dynamics = s.addrIndex.dynamics :=
    AddressIndex.lookup_dynamics _
  have hidx := kept_withAddrIndex s hdyn (AddressIndex.lookup_staticsSorted _)
  rw [node]
  split
  · exact hidx
  · split
    · rw [kept_pointer, kept_value, hidx]
    · rw [kept_value, hidx]

end Write

section Stages
variable (host : Host) (ev : Event) (s : State)

namespace Write

/-- Up to the heap graph a write touches the line's writers and the registers. -/
theorem registered_eq : ∃ regs, registered ev s = { s with
    world := { s.world with
      clTracker := (ClTracker.recordWrite s.world.clTracker ev.addr ev.threadId).1 }
    shadowRegs := regs } := by
  have hobserve (t : State) : ∃ regs, observe ev t = { t with shadowRegs := regs } := by
    rw [observe]
    split
    · exact ⟨_, rfl⟩
    · split <;> exact ⟨_, rfl⟩
  have hcohere (writers : UInt16) (t : State) :
      ∃ regs, cohere ev writers t = { t with shadowRegs := regs } := by
    rw [cohere]
    split <;> exact ⟨_, rfl⟩
  obtain ⟨regs, h⟩ := hobserve (recordLine ev s).1
  obtain ⟨regs', h'⟩ := hcohere (recordLine ev s).2 (observe ev (recordLine ev s).1)
  exact ⟨regs', by rw [registered, h', h]; rfl⟩

theorem fields_eq : ∃ vs topo, fields ev s =
    { s with world := { s.world with violations := vs }, topo := topo } := by
  have hcheck (p : TypeProjection) : ∃ vs topo, checkFields ev p s =
      { s with world := { s.world with violations := vs }, topo := topo } := by
    rw [checkFields]
    split
    · rw [emitLastViolation]
      split <;> exact ⟨_, _, rfl⟩
    · exact ⟨_, _, rfl⟩
  have hlink (p : TypeProjection) (t : State) :
      ∃ topo, linkField ev p t = { t with topo := topo } := by
    rw [linkField]
    split
    · split <;> exact ⟨_, rfl⟩
    · exact ⟨_, rfl⟩
  rw [fields]
  split
  · exact ⟨_, _, rfl⟩
  · rename_i p _
    obtain ⟨vs, topo, h⟩ := hcheck p
    obtain ⟨topo', h'⟩ := hlink p (checkFields ev p s)
    exact ⟨vs, topo', by rw [h', h]⟩

theorem propagate_eq : ∃ m info topo, propagate host ev s =
    { s with world := { s.world with stm := m }, dwarfInfo := info, topo := topo } := by
  have hstamp (seq : ℕ) (addr : UInt64) (t : State) :
      ∃ topo, emitStamp seq addr t = { t with topo := topo } := by
    rw [emitStamp]
    split <;> exact ⟨_, rfl⟩
  have hdeepen (info : DwarfInfo) (t : State) : ∃ m info' topo, deepen host ev info t =
      { t with world := { t.world with stm := m }, dwarfInfo := info', topo := topo } := by
    obtain ⟨f, hf⟩ := upgrade_eq ev t (ensured host ev info t)
    rw [deepen, hf]
    obtain ⟨topo, h⟩ := hstamp (seqOf ev) (writeValue ev) { (t.withStm f).withStm (fun m =>
      m.retrospectiveScan ((t.withStm f).scanSource host (ensured host ev info t).typeRegistry)
        (writeValue ev) (seqOf ev)) with dwarfInfo := some (ensured host ev info t) }
    exact ⟨_, _, topo, h⟩
  rw [propagate]
  split
  · exact ⟨_, _, _, rfl⟩
  · dsimp only
    split
    · obtain ⟨m, info', topo, h⟩ := hdeepen _ (s.withStm _)
      exact ⟨m, info', topo, h⟩
    · split <;> exact ⟨_, _, _, rfl⟩

theorem spread_eq (registry : Registry) (addr : UInt64) (seq : ℕ) :
    ∃ m, spread host registry addr seq s = { s with world := { s.world with stm := m } } :=
  ⟨_, rfl⟩

theorem bounds_eq : ∃ hs topo, bounds ev s =
    { s with world := { s.world with hazards := hs }, topo := topo } := by
  rw [bounds]
  split
  · split
    · exact ⟨_, _, rfl⟩
    · dsimp only
      split <;> exact ⟨_, _, rfl⟩
  · exact ⟨_, _, rfl⟩

/-- The stages of a heap write touch the heap graph, the type map with its registry and
what is reported of it. -/
theorem heap_eq : ∃ g m hs vs info topo, heap host ev s = { s with
    world := { s.world with stm := m, hazards := hs, violations := vs }
    heapGraph := g, dwarfInfo := info, topo := topo } := by
  rw [heap]
  split
  · obtain ⟨vs, topo, hfields⟩ := fields_eq ev (graph ev s)
    obtain ⟨m, info, topo', hpropagate⟩ := propagate_eq host ev (fields ev (graph ev s))
    obtain ⟨hs, topo'', hbounds⟩ := bounds_eq ev (propagate host ev (fields ev (graph ev s)))
    exact ⟨_, m, hs, vs, info, topo'', by rw [hbounds, hpropagate, hfields]; rfl⟩
  · exact ⟨_, _, _, _, _, _, rfl⟩

/-- The stamp of a pointee touches the type map with its registry, the closed epochs and
the lines. -/
theorem stampPointee_eq (name typeName : String) :
    ∃ m log info topo, stampPointee host ev name typeName s = { s with
      world := { s.world with stm := m, typeEpochs := log }, dwarfInfo := info, topo := topo } := by
  have hlog (old : OldStamp) (t : State) : ∃ log, logSchism ev old t =
      { t with world := { t.world with typeEpochs := log } } := by
    rw [logSchism]
    split <;> exact ⟨_, rfl⟩
  have hclose (newType newSource : String) (reason : CloseReason) (old : OldStamp) (t : State) :
      ∃ log topo, closeSchism ev newType newSource reason old t =
        { t with world := { t.world with typeEpochs := log }, topo := topo } := by
    obtain ⟨log, h⟩ := hlog old t
    rw [closeSchism, h]
    exact ⟨log, _, rfl⟩
  have hreport (newType newSource : String) (r : StampResult) (t : State) :
      ∃ log topo, report ev newType newSource r t =
        { t with world := { t.world with typeEpochs := log }, topo := topo } := by
    cases r with
    | schism old => exact hclose _ _ _ old t
    | poolReuse old => exact hclose _ _ _ old t
    | _ => exact ⟨_, _, rfl⟩
  have hvariable (registry : Registry) (pointee : TypeInfo) (t : State) :
      ∃ m log topo, stampVariable host ev name registry pointee t = { t with
        world := { t.world with stm := m, typeEpochs := log }, topo := topo } := by
    obtain ⟨r, hr⟩ : ∃ r, t.world.stm.stampType ev.value pointee name (seqOf ev) = r := ⟨_, rfl⟩
    obtain ⟨log, topo, h⟩ := hreport pointee.name name r.2 (t.withStm fun _ => r.1)
    rw [stampVariable, hr]
    dsimp only
    rw [h]
    split
    · obtain ⟨m, hm⟩ := spread_eq host { t.withStm fun _ => r.1 with
        world := { (t.withStm fun _ => r.1).world with typeEpochs := log }, topo := topo }
        registry ev.value (seqOf ev)
      rw [hm]
      exact ⟨m, log, _, rfl⟩
    · exact ⟨r.1, log, topo, rfl⟩
  rw [stampPointee]
  split
  · exact ⟨_, _, _, _, rfl⟩
  · rename_i info _
    dsimp only
    split
    · rename_i pointee _
      obtain ⟨m, log, topo, h⟩ := hvariable (pointeeInfo host typeName info).typeRegistry pointee
        { s with dwarfInfo := some (pointeeInfo host typeName info) }
      exact ⟨m, log, _, topo, h⟩
    · exact ⟨_, _, _, _, rfl⟩

end Write

/-- The state in which the written variable is looked up. -/
def beforeNode (host : Host) (ev : Event) (s : State) : State :=
  let r := Write.recordLine ev (countEvent s)
  Write.heap host ev (Write.cohere ev r.2 (Write.observe ev r.1))

/-- Up to the lookup, a write leaves the index, the nodes, the edges, the live blocks and
the closed epochs as they are. -/
theorem beforeNode_eq : ∃ g m hs vs info regs topo, beforeNode host ev s = { countEvent s with
    world := { (countEvent s).world with
      clTracker := (ClTracker.recordWrite s.world.clTracker ev.addr ev.threadId).1
      stm := m
      hazards := hs
      violations := vs }
    heapGraph := g, dwarfInfo := info, shadowRegs := regs, topo := topo } := by
  obtain ⟨regs, hregistered⟩ := Write.registered_eq ev (countEvent s)
  obtain ⟨g, m, hs, vs, info, topo, hheap⟩ :=
    Write.heap_eq host ev (Write.registered ev (countEvent s))
  refine ⟨g, m, hs, vs, info, regs, topo, ?_⟩
  have hbefore : beforeNode host ev s = Write.heap host ev (Write.registered ev (countEvent s)) :=
    rfl
  rw [hbefore, hheap, hregistered]
  rfl

theorem processWrite_countEvent :
    processWrite host ev (countEvent s) = Write.node host ev (beforeNode host ev s) := rfl

theorem processEvent_write (hkind : kindOf ev = .write) :
    processEvent host ev s = Write.node host ev (beforeNode host ev s) := by
  simp only [processEvent, processKind, hkind, processWrite_countEvent]

end Stages

/-- A WRITE keeps them all but the registers. -/
theorem fixed_processWrite (host : Host) (ev : Event) (s : State) :
    (processWrite host ev s).kept.fixed = s.kept.fixed := by
  simp [processWrite]

namespace Alloc
variable (host : Host) (ev : Event) (s : State)

/-- Closing an epoch touches the log of epochs and the lines only. -/
theorem closeEpoch_eq (oldSize : UInt64) (reason : EpochClose) (line : CloseReason) :
    ∃ epochs topo, closeEpoch ev oldSize reason line s =
      { s with world := { s.world with typeEpochs := epochs }, topo := topo } := by
  rw [closeEpoch]
  split
  · exact ⟨s.world.typeEpochs, s.topo, rfl⟩
  · exact ⟨_, _, rfl⟩

@[simp] theorem kept_closeEpoch (oldSize : UInt64) (reason : EpochClose) (line : CloseReason) :
    (closeEpoch ev oldSize reason line s).kept = s.kept := by
  obtain ⟨epochs, topo, h⟩ := closeEpoch_eq ev s oldSize reason line
  rw [h]
  rfl

@[simp] theorem kept_renew (old : Option UInt64) : (renew ev old s).kept = s.kept := by
  cases old with
  | some oldSize => exact kept_closeEpoch ev s oldSize .realloc .realloc
  | none => rfl

/-- Tracking a block moves the live blocks and the mark of the last ALLOC. -/
theorem kept_track : (track ev s).kept = { s.kept with
    heapAllocs := (s.world.heapAllocs.onAlloc ev.addr (size ev)).1
    lastAllocEventCount := s.world.totalEventCount } := by
  rw [track]
  split
  · rfl
  · rw [kept_emit, kept_renew]
    rfl

@[simp] theorem kept_stampBlock (source : String) (registry : Registry) (ti : TypeInfo) :
    (stampBlock host ev source registry ti s).kept = s.kept := by
  rw [stampBlock]
  split <;> simp

/-- A birth stamp keeps them too. -/
@[simp] theorem kept_stampBirth : (stampBirth host ev s).kept = s.kept := by
  rw [stampBirth]
  split
  · rename_i info delta hinfo hdelta
    dsimp only
    split
    · rfl
    · rename_i ti _
      rw [kept_stampBlock]
      exact kept_withDwarf s hinfo rfl
  · rfl

end Alloc

section Blocks
variable (host : Host) (ev : Event) (s : State)

theorem Alloc.stampBirth_eq : ∃ m info topo, stampBirth host ev s =
    { s with world := { s.world with stm := m }, dwarfInfo := info, topo := topo } := by
  have hblock (source : String) (registry : Registry) (ti : TypeInfo) (t : State) :
      ∃ m topo, stampBlock host ev source registry ti t =
        { t with world := { t.world with stm := m }, topo := topo } := by
    obtain ⟨r, hr⟩ : ∃ r, t.world.stm.stampType ev.addr ti source (seqOf ev) = r := ⟨_, rfl⟩
    rw [stampBlock, hr]
    dsimp only
    split
    · obtain ⟨m, hm⟩ := Write.spread_eq host (t.withStm fun _ => r.1) registry ev.addr (seqOf ev)
      rw [hm]
      exact ⟨m, _, rfl⟩
    · exact ⟨r.1, t.topo, rfl⟩
  rw [stampBirth]
  split
  · dsimp only
    split
    · exact ⟨_, _, _, rfl⟩
    · rename_i info delta _ _ _ ti _
      obtain ⟨m, topo, h⟩ := hblock (sourceName (callerPcs ev info delta (s.framesOf ev.threadId)))
        (info.ensureType host.deep ti.name).typeRegistry
        (birthType host (info.ensureType host.deep ti.name) ti)
        { s with dwarfInfo := some (info.ensureType host.deep ti.name) }
      exact ⟨m, _, topo, h⟩
  · exact ⟨_, _, _, rfl⟩

theorem Alloc.track_eq : ∃ m allocs log g topo, track ev s = { s with
    world := { s.world with
      stm := m
      heapAllocs := allocs
      typeEpochs := log
      lastAllocEventCount := s.world.totalEventCount }
    heapGraph := g, topo := topo } := by
  have hrenew (old : Option UInt64) (t : State) : ∃ m log g topo, renew ev old t = { t with
      world := { t.world with stm := m, typeEpochs := log }, heapGraph := g, topo := topo } := by
    cases old with
    | none => exact ⟨_, _, _, _, rfl⟩
    | some size =>
        obtain ⟨log, topo, h⟩ := closeEpoch_eq ev t size .realloc .realloc
        rw [renew, retire, h]
        exact ⟨_, log, _, topo, rfl⟩
  rw [track]
  split
  · exact ⟨_, _, _, _, _, rfl⟩
  · obtain ⟨m, log, g, topo, h⟩ := hrenew (record ev s).2 (record ev s).1
    rw [h]
    exact ⟨m, _, log, g, _, rfl⟩

/-- An ALLOC touches the live blocks, the type map with its registry, the closed epochs
and the heap graph. -/
theorem processAlloc_eq : ∃ m allocs log g info topo, processAlloc host ev s = { s with
    world := { s.world with
      stm := m
      heapAllocs := allocs
      typeEpochs := log
      lastAllocEventCount := s.world.totalEventCount }
    heapGraph := g, dwarfInfo := info, topo := topo } := by
  obtain ⟨m, allocs, log, g, topo, htrack⟩ := Alloc.track_eq ev s
  obtain ⟨m', info, topo', hbirth⟩ := Alloc.stampBirth_eq host ev (Alloc.track ev s)
  rw [processAlloc, hbirth, htrack]
  exact ⟨m', allocs, log, g, info, topo', rfl⟩

theorem processFree_eq : ∃ m allocs log g topo, processFree ev s = { s with
    world := { s.world with stm := m, heapAllocs := allocs, typeEpochs := log }
    heapGraph := g, topo := topo } := by
  have hclose (size : UInt64) (t : State) := Alloc.closeEpoch_eq ev t size .free .free
  rw [processFree]
  dsimp only
  split
  · rename_i size _
    obtain ⟨log, topo, h⟩ := hclose size { s with
      world := { s.world with heapAllocs := (s.world.heapAllocs.onFree ev.addr).1 } }
    rw [h]
    exact ⟨_, _, log, _, _, rfl⟩
  · split
    · rename_i p _
      obtain ⟨log, topo, h⟩ := hclose p.typeInfo.byteSize { s with
        world := { s.world with heapAllocs := (s.world.heapAllocs.onFree ev.addr).1 } }
      rw [h]
      exact ⟨_, _, log, _, topo, rfl⟩
    · exact ⟨_, _, _, _, _, rfl⟩

end Blocks

theorem kept_processAlloc (host : Host) (ev : Event) (s : State) :
    (processAlloc host ev s).kept = { s.kept with
      heapAllocs := (s.world.heapAllocs.onAlloc ev.addr (Alloc.size ev)).1
      lastAllocEventCount := s.world.totalEventCount } := by
  rw [processAlloc, Alloc.kept_stampBirth, Alloc.kept_track]

/-- A FREE moves the live blocks only. -/
theorem kept_processFree (ev : Event) (s : State) :
    (processFree ev s).kept = { s.kept with heapAllocs := (s.world.heapAllocs.onFree ev.addr).1 } := by
  have hpurge (addr size : UInt64) (t : State) : (Free.purge addr size t).kept = t.kept := rfl
  rw [processFree]
  dsimp only
  split
  · rw [kept_emit, hpurge, Alloc.kept_closeEpoch]
    rfl
  · split
    · rw [hpurge, Alloc.kept_closeEpoch]
      rfl
    · rfl

/-- What each variable's registration keeps of the index and the world: its interval
goes in and its node is there, a new one if it replaces another. -/
structure Populates (P : AddressIndex → World → Prop) : Prop where
  register : ∀ (replace : Bool) idx w addr size name ti id, (∀ fid li, id ≠ NodeId.local fid li) →
    P idx w → P (idx.insertStatic addr size name ti id)
      ((if replace then w.removeNode id else w).ensureNode id name ti addr size)
  types : ∀ idx (w : World) m, P idx w → P idx { w with stm := m }
  sort : ∀ orders idx w, P idx w → P (idx.finalize orders) w

namespace Populates
variable {P : AddressIndex → World → Prop}

theorem fields (h : Populates P) (gi : UInt32) (levels : ℕ) : ∀ name base fields acc,
    P acc.addrIndex acc.world → P (registerFields gi levels name base fields acc).addrIndex
      (registerFields gi levels name base fields acc).world := by
  induction levels with
  | zero => exact fun _ _ _ _ hP => hP
  | succ levels ih =>
      intro name base fields acc hP
      rw [registerFields]
      induction fields generalizing acc with
      | nil => exact hP
      | cons f fields ihf =>
          rw [List.foldl_cons]
          apply ihf
          split
          · exact hP
          · have hreg := h.register true acc.addrIndex acc.world (base + f.byteOffset) f.byteSize
              (name ++ "." ++ f.name) f.typeInfo (.field gi acc.nextField) (by simp) hP
            dsimp only
            split
            · exact ih _ _ _ _ hreg
            · exact hreg

theorem global (h : Populates P) (replace : Bool) (g : GlobalVar) (delta : UInt64) (gi : UInt32)
    {idx : AddressIndex} {w : World} (hP : P idx w) :
    P (populateGlobal replace g delta gi idx w).1 (populateGlobal replace g delta gi idx w).2 := by
  have hreg := h.register replace idx w (g.addr + delta) g.size g.name g.typeInfo (.global gi)
    (by simp) hP
  rw [populateGlobal]
  dsimp only
  split
  · split
    · exact h.types _ _ _ hreg
    · exact hreg
  · apply h.fields
    split
    · exact h.types _ _ _ hreg
    · exact hreg

theorem globals (h : Populates P) (host : Host) (info : DwarfInfo) (delta : UInt64)
    {idx : AddressIndex} {w : World} (hP : P idx w) :
    P (populateGlobals host info delta idx w).1 (populateGlobals host info delta idx w).2 := by
  have hfold (gs : List (GlobalVar × ℕ)) : ∀ r : AddressIndex × World, P r.1 r.2 →
      P (gs.foldl (fun r g => populateGlobal true g.1 delta (UInt32.ofNat g.2) r.1 r.2) r).1
        (gs.foldl (fun r g => populateGlobal true g.1 delta (UInt32.ofNat g.2) r.1 r.2) r).2 := by
    induction gs with
    | nil => exact fun _ hr => hr
    | cons g gs ih => exact fun r hr => ih _ (h.global true g.1 delta _ hr)
  exact h.sort _ _ _ (hfold _ (idx, w) hP)

theorem libs (h : Populates P) (deltas : List (LibDwarf × UInt64)) (firstGi : ℕ)
    {idx : AddressIndex} {w : World} (hP : P idx w) :
    P (populateLibs deltas firstGi idx w).1 (populateLibs deltas firstGi idx w).2 := by
  have hfold (gs : List ((GlobalVar × UInt64) × ℕ)) : ∀ r : AddressIndex × World, P r.1 r.2 →
      P (gs.foldl (fun r g => populateGlobal false g.1.1 g.1.2 (UInt32.ofNat g.2) r.1 r.2) r).1
        (gs.foldl (fun r g => populateGlobal false g.1.1 g.1.2 (UInt32.ofNat g.2) r.1 r.2) r).2 := by
    induction gs with
    | nil => exact fun _ hr => hr
    | cons g gs ih => exact fun r hr => ih _ (h.global false g.1.1 g.1.2 _ hr)
  exact hfold _ (idx, w) hP

end Populates

/-- Of a state, what the merge of the libraries keeps. -/
theorem Populates.libGlobals {P : AddressIndex → World → Prop} (h : Populates P) (host : Host)
    (modtab : List Module) {s : State} (hP : P s.addrIndex s.world) :
    P (populateLibGlobals host modtab s).1.addrIndex (populateLibGlobals host modtab s).1.world := by
  rw [populateLibGlobals]
  split
  · exact hP
  · split
    · exact hP
    · split
      · exact hP
      · have hlibs (libs : List (LibDwarf × UInt64)) (n : ℕ) := h.libs libs n hP
        dsimp only
        split
        · exact h.sort _ _ _ (hlibs _ _)
        · exact hlibs _ _

section Frames
variable {host : Host}

theorem populates_dynamics (frames : List (FrameId × List Interval)) :
    Populates fun idx _ => idx.dynamics = frames where
  register _ idx _ addr size name ti id _ h :=
    (@AddressIndex.insertStatic_dynamics idx addr size name ti id).trans h
  types _ _ _ h := h
  sort _ _ _ h := AddressIndex.finalize_dynamics.trans h

theorem populateGlobals_dynamics (info : DwarfInfo) (delta : UInt64) (idx : AddressIndex)
    (w : World) : (populateGlobals host info delta idx w).1.dynamics = idx.dynamics :=
  (populates_dynamics idx.dynamics).globals host info delta rfl

theorem populateLibs_dynamics (libs : List (LibDwarf × UInt64)) (firstGi : ℕ) (idx : AddressIndex)
    (w : World) : (populateLibs libs firstGi idx w).1.dynamics = idx.dynamics :=
  (populates_dynamics idx.dynamics).libs libs firstGi (w := w) rfl

end Frames

section Core

/-- The world apart from the variables' nodes and edges. -/
def World.core (w : World) : World := { w with nodes := fun _ => none, edges := fun _ => none }

/-- What does not look at nodes and edges agrees on worlds of one core. -/
theorem of_core {α : Type} (f : World → α) {w v : World} (h : w.core = v.core)
    (hf : ∀ w, f w.core = f w := by exact fun _ => rfl) : f w = f v := by
  rw [← hf w, h, hf v]

@[simp] theorem core_ensureNode (w : World) (id : NodeId) (name : String) (ti : TypeInfo)
    (addr size : UInt64) : (w.ensureNode id name ti addr size).core = w.core := by
  rw [World.ensureNode]
  split <;> rfl

@[simp] theorem core_removeNode (w : World) (id : NodeId) : (w.removeNode id).core = w.core := rfl

@[simp] theorem core_updateValue (w : World) (id : NodeId) (v : UInt64) :
    (w.updateValue id v).core = w.core := by
  rw [World.updateValue]
  split <;> rfl

theorem core_registerFields (gi : UInt32) (levels : ℕ) : ∀ name base fields acc,
    (registerFields gi levels name base fields acc).world.core = acc.world.core := by
  induction levels with
  | zero => exact fun _ _ _ _ => rfl
  | succ levels ih =>
      intro name base fields acc
      rw [registerFields]
      induction fields generalizing acc with
      | nil => rfl
      | cons f fields ihf =>
          rw [List.foldl_cons, ihf]
          split
          · rfl
          · dsimp only
            split
            · rw [ih, core_ensureNode, core_removeNode]
            · rw [core_ensureNode, core_removeNode]

/-- A global touches the type map only, where it stamps its own address with number 0. -/
theorem core_populateGlobal (replace : Bool) (g : GlobalVar) (delta : UInt64) (gi : UInt32)
    (idx : AddressIndex) (w : World) :
    ∃ m, (populateGlobal replace g delta gi idx w).2.core = { w.core with stm := m } ∧
      (m = w.stm ∨ m = (w.stm.stampType (g.addr + delta) g.typeInfo g.name 0).1) := by
  have hnodes : ((if replace then w.removeNode (.global gi) else w).ensureNode (.global gi) g.name
      g.typeInfo (g.addr + delta) g.size).core = w.core := by
    rw [core_ensureNode]
    split <;> rfl
  have hstm := congrArg World.stm hnodes
  have hstamp (v : World) (h : v.core = w.core) (m : ShadowTypeMap) :
      ({ v with stm := m } : World).core = { w.core with stm := m } :=
    congrArg (fun c : World => { c with stm := m }) h
  simp only [World.core] at hstm
  simp only [populateGlobal]
  split
  · split
    · exact ⟨_, hstamp _ hnodes _, .inr (by rw [hstm])⟩
    · exact ⟨_, hnodes, .inl rfl⟩
  · rw [core_registerFields]
    split
    · exact ⟨_, hstamp _ hnodes _, .inr (by rw [hstm])⟩
    · exact ⟨_, hnodes, .inl rfl⟩

theorem core_populateGlobals (host : Host) (info : DwarfInfo) (delta : UInt64)
    (idx : AddressIndex) (w : World) :
    ∃ m, (populateGlobals host info delta idx w).2.core = { w.core with stm := m } := by
  have hfold (gs : List (GlobalVar × ℕ)) : ∀ r : AddressIndex × World,
      ∃ m, (gs.foldl (fun r g => populateGlobal true g.1 delta (UInt32.ofNat g.2) r.1 r.2) r).2.core =
        { r.2.core with stm := m } := by
    induction gs with
    | nil => exact fun r => ⟨r.2.stm, rfl⟩
    | cons g gs ih =>
        intro r
        obtain ⟨m, hm, -⟩ := core_populateGlobal true g.1 delta (UInt32.ofNat g.2) r.1 r.2
        obtain ⟨m', hm'⟩ := ih (populateGlobal true g.1 delta (UInt32.ofNat g.2) r.1 r.2)
        exact ⟨m', hm'.trans (by rw [hm])⟩
  exact hfold _ _

theorem core_processCall (host : Host) (ev : Event) (s : State) :
    (processCall host ev s).world.core = s.world.core := by
  have hfold (ls : List (LocalVar × ℕ)) (id : LocalVar × ℕ → NodeId)
      (addr : LocalVar × ℕ → UInt64) : ∀ w : World, (ls.foldl (fun w l =>
        w.ensureNode (id l) l.1.name l.1.typeInfo (addr l) l.1.size) w).core = w.core := by
    induction ls with
    | nil => exact fun _ => rfl
    | cons l ls ih =>
        intro w
        rw [List.foldl_cons, ih, core_ensureNode]
  rw [processCall]
  split
  · exact hfold _ _ _ _
  · rfl

theorem core_processReturn (ev : Event) (s : State) :
    (processReturn ev s).world.core = s.world.core := by
  rw [processReturn]
  split
  · rfl
  · dsimp only
    split
    · rfl
    · rw [retireFrame]
      split
      · split <;> rfl
      · rfl

end Core

/-- Insertion orders throughout. -/
def IndexOrders.plain : IndexOrders where
  iterate := id
  iterate_perm := fun _ => .refl _
  sortByLo := List.insertionSort fun a b => a.lo ≤ b.lo
  sortByLo_perm := fun l => List.perm_insertionSort _ l
  sortByLo_sorted := fun l => List.pairwise_insertionSort _ l

/-- No DWARF to read on demand and no access to the target's memory. -/
def Host.plain : Host where
  orders := .plain
  resolveExpr _ _ _ _ := none
  deep _ _ := none
  patch _ ti := ti
  mem := none

/-- An event of a kind on thread 1. -/
def plainEvent (kind : UInt8) (addr value : UInt64) : Event :=
  ⟨addr, 8, 1, 0, value, makeKf kind 0 0, 0⟩

/-- The event as thread `tid`'s with this number. -/
def numbered (tid seq : UInt16) (ev : Event) : Event := { ev with threadId := tid, seq := seq }

/-- What the engine is fed: an event, a decoded register snapshot, the module
table for the libraries. -/
inductive Input where
  | event (host : Host) (ev : Event)
  | snapshot (u : SnapshotUpdate)
  | libraries (host : Host) (modtab : List Module)

def Input.apply : Input → State → State
  | .event host ev, s => processEvent host ev s
  | .snapshot u, s => applySnapshotUpdate u s
  | .libraries host modtab, s => (populateLibGlobals host modtab s).1

end Rtmap.Engine
