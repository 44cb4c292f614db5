import Rtmap.Engine.FinalSweep

/-!
# What types decide

The type map with its registry, what is reported of it, the heap graph, the cache lines
and the shadow registers decide nothing of the nodes, the edges, the register file and
the live blocks: events take states that agree on everything else to such states.
-/
namespace Rtmap.Engine
open Rtmap.Ring

/-- The world without its types and what is reported of them, and without its cache
lines. -/
def World.untyped (w : World) : World :=
  { w with
    clTracker := fun _ => {}
    stm := {}
    hazards := []
    violations := []
    typeEpochs := {} }

/-- The state without them, and without the registry, the heap graph, the shadow
registers and the stream. -/
def State.untyped (s : State) : State :=
  { s with
    world := s.world.untyped
    dwarfInfo := s.dwarfInfo.map DwarfInfo.static
    heapGraph := {}
    shadowRegs := fun _ => none
    topo := none }

namespace World
variable (w : World)

theorem ensureNode_untyped (id : NodeId) (name : String) (ti : TypeInfo) (addr size : UInt64) :
    w.untyped.ensureNode id name ti addr size = (w.ensureNode id name ti addr size).untyped := by
  have hexists : w.untyped.nodeExists id = w.nodeExists id := rfl
  rw [ensureNode, ensureNode, hexists]
  split <;> rfl

theorem updateValue_untyped (id : NodeId) (v : UInt64) :
    w.untyped.updateValue id v = (w.updateValue id v).untyped := by
  have hnode : w.untyped.nodes id = w.nodes id := rfl
  rw [updateValue, updateValue, hnode]
  split <;> rfl

end World

section Globals

/-- The index under population with its world untyped. -/
def Populating.untyped (acc : Populating) : Populating :=
  { acc with world := acc.world.untyped }

theorem registerFields_untyped (gi : UInt32) (levels : ℕ) : ∀ name base fields acc,
    registerFields gi levels name base fields acc.untyped =
      (registerFields gi levels name base fields acc).untyped := by
  induction levels with
  | zero => exact fun _ _ _ _ => rfl
  | succ levels ih =>
      intro name base fields acc
      rw [registerFields, registerFields]
      induction fields generalizing acc with
      | nil => rfl
      | cons f fields ihf =>
          have hremove (id : NodeId) : acc.world.untyped.removeNode id =
              (acc.world.removeNode id).untyped := rfl
          rw [List.foldl_cons, List.foldl_cons, ← ihf]
          congr 1
          simp only [Populating.untyped, hremove, World.ensureNode_untyped]
          split
          · rfl
          · split
            · exact ih _ _ _ ⟨_, _, _⟩
            · rfl

theorem populateGlobal_untyped (replace : Bool) (g : GlobalVar) (delta : UInt64) (gi : UInt32)
    (idx : AddressIndex) {v w : World} (h : v.untyped = w.untyped) :
    (populateGlobal replace g delta gi idx v).1 = (populateGlobal replace g delta gi idx w).1 ∧
      (populateGlobal replace g delta gi idx v).2.untyped =
        (populateGlobal replace g delta gi idx w).2.untyped := by
  let named (x : World) : World :=
    (if replace then x.removeNode (.global gi) else x).ensureNode (.global gi) g.name g.typeInfo
      (g.addr + delta) g.size
  let stamped (x : World) : World :=
    if !g.typeInfo.fields.isEmpty && g.typeInfo.byteSize > 0 then
      { named x with stm := ((named x).stm.stampType (g.addr + delta) g.typeInfo g.name 0).1 }
    else named x
  have hnamed (x : World) : (stamped x).untyped = named x.untyped := by
    have hstamped : (stamped x).untyped = (named x).untyped := by
      dsimp only [stamped]
      split <;> rfl
    rw [hstamped]
    dsimp only [named]
    rw [← World.ensureNode_untyped]
    split <;> rfl
  have hsame : (stamped v).untyped = (stamped w).untyped := by
    rw [hnamed, hnamed, h]
  have hfields (idx : AddressIndex) (x : World) :
      (registerFields gi 7 g.name (g.addr + delta) g.typeInfo.fields ⟨idx, x, 0⟩).untyped =
        registerFields gi 7 g.name (g.addr + delta) g.typeInfo.fields ⟨idx, x.untyped, 0⟩ :=
    (registerFields_untyped gi 7 _ _ _ ⟨idx, x, 0⟩).symm
  have hpopulate (x : World) : populateGlobal replace g delta gi idx x =
      if g.typeInfo.isPointer then
        (idx.insertGlobal (g.addr + delta) g.size g.name g.typeInfo gi, stamped x)
      else
        let r := registerFields gi 7 g.name (g.addr + delta) g.typeInfo.fields
          ⟨idx.insertGlobal (g.addr + delta) g.size g.name g.typeInfo gi, stamped x, 0⟩
        (r.addrIndex, r.world) := rfl
  rw [hpopulate, hpopulate]
  split
  · exact ⟨rfl, hsame⟩
  · have hboth := hfields (idx.insertGlobal (g.addr + delta) g.size g.name g.typeInfo gi) (stamped v)
    rw [hsame, ← hfields] at hboth
    have hidx := congrArg Populating.addrIndex hboth
    have hworld := congrArg Populating.world hboth
    exact ⟨hidx, hworld⟩

theorem populateGlobals_untyped (host : Host) (info : DwarfInfo) (delta : UInt64)
    (idx : AddressIndex) {v w : World} (h : v.untyped = w.untyped) :
    (populateGlobals host info delta idx v).1 = (populateGlobals host info delta idx w).1 ∧
      (populateGlobals host info delta idx v).2.untyped =
        (populateGlobals host info delta idx w).2.untyped := by
  let place (r : AddressIndex × World) (g : GlobalVar × ℕ) : AddressIndex × World :=
    populateGlobal true g.1 delta (UInt32.ofNat g.2) r.1 r.2
  have hfold (gs : List (GlobalVar × ℕ)) : ∀ q r : AddressIndex × World, q.1 = r.1 →
      q.2.untyped = r.2.untyped → (gs.foldl place q).1 = (gs.foldl place r).1 ∧
        (gs.foldl place q).2.untyped = (gs.foldl place r).2.untyped := by
    induction gs with
    | nil => exact fun _ _ hidx hworld => ⟨hidx, hworld⟩
    | cons g gs ih =>
        intro q r hidx hworld
        obtain ⟨hidx', hworld'⟩ :=
          populateGlobal_untyped true g.1 delta (UInt32.ofNat g.2) r.1 hworld
        rw [List.foldl_cons, List.foldl_cons]
        refine ih _ _ ?_ ?_
        · dsimp only [place]
          rw [hidx]
          exact hidx'
        · dsimp only [place]
          rw [hidx]
          exact hworld'
  obtain ⟨hidx, hworld⟩ := hfold info.globals.zipIdx (idx, v) (idx, w) rfl h
  exact ⟨congrArg (AddressIndex.finalize host.orders) hidx, hworld⟩

end Globals

section Events
variable {host : Host} {ev : Event} {s t : State}

/-- The registry of the DWARF data is not part of it. -/
theorem untyped_of_static {info : Option DwarfInfo}
    (h : info.map DwarfInfo.static = s.dwarfInfo.map DwarfInfo.static) :
    ({ s with dwarfInfo := info } : State).untyped = s.untyped := by
  simp only [State.untyped, h]

theorem untyped_beforeNode : (beforeNode host ev s).untyped = (countEvent s).untyped := by
  have hdwarf : (beforeNode host ev s).dwarfInfo.map DwarfInfo.static =
      (countEvent s).dwarfInfo.map DwarfInfo.static := by
    have hfixed : (beforeNode host ev s).kept.fixed = (countEvent s).kept.fixed := by
      simp [beforeNode]
    exact congrArg Kept.dwarf hfixed
  obtain ⟨g, m, hs, vs, info, regs, topo, h⟩ := beforeNode_eq host ev s
  rw [h] at hdwarf ⊢
  simp only [State.untyped, hdwarf]
  rfl

theorem untyped_node (h : s.untyped = t.untyped) :
    (Write.node host ev s).untyped = (Write.node host ev t).untyped := by
  have hidx := congrArg State.addrIndex h
  have hlooked (idx : AddressIndex) : ({ s with addrIndex := idx } : State).untyped =
      ({ t with addrIndex := idx } : State).untyped :=
    congrArg (fun x : State => { x with addrIndex := idx }) h
  have hvalue (i : Interval) (x : State) : (Write.value ev i x).untyped =
      Write.value ev i x.untyped := by
    dsimp only [Write.value]
    rw [show x.untyped.world = x.world.untyped from rfl, World.ensureNode_untyped,
      World.updateValue_untyped]
    rfl
  have hpointee (name typeName : String) (x : State) :
      (Write.stampPointee host ev name typeName x).untyped = x.untyped := by
    have hkept := congrArg Kept.dwarf (Write.kept_stampPointee host ev x name typeName)
    obtain ⟨m, log, info, topo, heq⟩ := Write.stampPointee_eq host ev x name typeName
    rw [heq] at hkept ⊢
    exact untyped_of_static (s := { x with
      world := { x.world with stm := m, typeEpochs := log }, topo := topo }) hkept
  have hpointer (i : Interval) (x : State) : (Write.pointer host ev i x).untyped =
      Write.edge host ev i x.untyped := by
    have hedge : (Write.edge host ev i x).untyped = Write.edge host ev i x.untyped := rfl
    rw [← hedge, Write.pointer]
    dsimp only
    split
    · rfl
    · split
      · exact hpointee _ _ _
      · rfl
  dsimp only [Write.node]
  rw [show s.addrIndex = t.addrIndex from hidx]
  split
  · exact hlooked _
  · rename_i i _
    split
    · rw [hpointer, hpointer, hvalue, hvalue, hlooked]
    · rw [hvalue, hvalue, hlooked]

theorem untyped_processCall (h : s.untyped = t.untyped) :
    (processCall host ev s).untyped = (processCall host ev t).untyped := by
  have hlocals (ls : List (LocalVar × ℕ)) (id : LocalVar × ℕ → NodeId)
      (addr : LocalVar × ℕ → UInt64) : ∀ w : World,
      ls.foldl (fun w l => w.ensureNode (id l) l.1.name l.1.typeInfo (addr l) l.1.size) w.untyped =
        (ls.foldl (fun w l =>
          w.ensureNode (id l) l.1.name l.1.typeInfo (addr l) l.1.size) w).untyped := by
    induction ls with
    | nil => exact fun _ => rfl
    | cons l ls ih =>
        intro w
        rw [List.foldl_cons, World.ensureNode_untyped, ih]
        rfl
  have henter (f : FunctionMeta) (x : State) :
      Call.enter host ev f x.untyped = (Call.enter host ev f x).untyped := by
    rw [Call.enter, show x.untyped.world = x.world.untyped from rfl, hlocals]
    rfl
  have harrived : (Call.arrived ev s).untyped = (Call.arrived ev t).untyped :=
    congrArg (fun x : State => { x with
      heapOracle := x.heapOracle.updateStack ev.threadId ev.value }) h
  have hlookups : (Call.arrived ev t).lookups = (Call.arrived ev s).lookups :=
    congrArg (fun x : State => (x.relocationDelta, x.dwarfInfo)) harrived.symm
  rw [processCall_eq, processCall_eq, callee_of_lookups hlookups]
  cases (Call.arrived ev s).callee ev.addr with
  | none => exact harrived
  | some f =>
      dsimp only [Option.elim]
      rw [← henter, ← henter, harrived]

theorem untyped_processReturn (h : s.untyped = t.untyped) :
    (processReturn ev s).untyped = (processReturn ev t).untyped := by
  have hretire (fid : FrameId) (x : State) :
      retireFrame fid x.untyped = (retireFrame fid x).untyped := by
    dsimp only [retireFrame]
    rw [show x.untyped.returnedFrames = x.returnedFrames from rfl]
    split
    · split <;> rfl
    · rfl
  let pop (left : UInt16 → Option ShadowStack) (x : State) : State := { x with threadStacks := left }
  have hpop (left : UInt16 → Option ShadowStack) : (pop left s).untyped = (pop left t).untyped :=
    congrArg (pop left) h
  have hreturn (x : State) : (processReturn ev x).untyped =
      (x.threadStacks ev.threadId).elim x.untyped fun stack =>
        let left := Function.update x.threadStacks ev.threadId (some stack.popReturn.1)
        stack.popReturn.2.elim (pop left x).untyped fun f =>
          retireFrame f.frameId { (pop left x).untyped with
            addrIndex := (pop left x).untyped.addrIndex.removeFrame f.frameId } := by
    rw [processReturn]
    dsimp only
    rw [show (x.withRegs ev.threadId (returnRegs ev x.dwarfInfo)).threadStacks = x.threadStacks
      from rfl]
    cases x.threadStacks ev.threadId with
    | none => rfl
    | some stack =>
        dsimp only [Option.elim]
        cases stack.popReturn.2 with
        | none => rfl
        | some f =>
            dsimp only
            rw [← hretire]
            rfl
  have hstacks := congrArg State.threadStacks h
  rw [hreturn, hreturn, show s.threadStacks = t.threadStacks from hstacks]
  cases t.threadStacks ev.threadId with
  | none => exact h
  | some stack =>
      dsimp only [Option.elim]
      rw [hpop]

/-- An ALLOC gives the tracker a block. -/
theorem untyped_processAlloc (host : Host) (ev : Event) (s : State) :
    (processAlloc host ev s).untyped = { s.untyped with
      world := { s.untyped.world with
        heapAllocs := (s.world.heapAllocs.onAlloc ev.addr (Alloc.size ev)).1
        lastAllocEventCount := s.world.totalEventCount } } := by
  have hkept := kept_processAlloc host ev s
  obtain ⟨m, allocs, log, g, info, topo, h⟩ := processAlloc_eq host ev s
  rw [h] at hkept ⊢
  have hallocs := congrArg Kept.heapAllocs hkept
  have hdwarf := congrArg Kept.dwarf hkept
  dsimp only [State.kept] at hallocs hdwarf
  simp only [State.untyped, hdwarf, hallocs]
  rfl

theorem untyped_processFree (ev : Event) (s : State) :
    (processFree ev s).untyped = { s.untyped with
      world := { s.untyped.world with heapAllocs := (s.world.heapAllocs.onFree ev.addr).1 } } := by
  have hkept := kept_processFree ev s
  obtain ⟨m, allocs, log, g, topo, h⟩ := processFree_eq ev s
  rw [h] at hkept ⊢
  have hallocs := congrArg Kept.heapAllocs hkept
  dsimp only [State.kept] at hallocs
  simp only [State.untyped, hallocs]
  rfl

theorem untyped_processModuleLoad (h : s.untyped = t.untyped) :
    (processModuleLoad host ev s).untyped = (processModuleLoad host ev t).untyped := by
  let loaded (x : State) : State := { x with heapOracle := x.heapOracle.addModule ev.addr ev.value }
  have hloaded : (loaded s).untyped = (loaded t).untyped := congrArg loaded h
  have hload (x : State) : processModuleLoad host ev x = x.relocationDelta.elim
      (x.dwarfInfo.elim (loaded x) fun info =>
        let r := populateGlobals host info (ev.addr - info.elfBaseVaddr) {} x.world
        { loaded x with
          relocationDelta := some (ev.addr - info.elfBaseVaddr), addrIndex := r.1, world := r.2 })
      fun _ => loaded x := by
    obtain ⟨world, idx, dwarf, threads, next, delta, frames, regs, g, oracle, topo⟩ := x
    cases delta with
    | some delta => rfl
    | none => cases dwarf <;> rfl
  have hdelta := congrArg State.relocationDelta h
  have hworld := congrArg State.world h
  have hdwarf : s.dwarfInfo.map DwarfInfo.static = t.dwarfInfo.map DwarfInfo.static :=
    congrArg State.dwarfInfo h
  rw [hload, hload, show s.relocationDelta = t.relocationDelta from hdelta]
  cases t.relocationDelta with
  | some delta => exact hloaded
  | none =>
      cases hs : s.dwarfInfo with
      | none =>
          rw [hs] at hdwarf
          rw [show t.dwarfInfo = none from Option.map_eq_none_iff.mp hdwarf.symm]
          exact hloaded
      | some info =>
          rw [hs] at hdwarf
          obtain ⟨info', ht, hstatic⟩ := Option.map_eq_some_iff.mp hdwarf.symm
          have hbase := congrArg DwarfInfo.elfBaseVaddr hstatic
          have hglobals := congrArg DwarfInfo.globals hstatic
          have hpopulated (idx : AddressIndex) (w : World) :
              populateGlobals host info' (ev.addr - info.elfBaseVaddr) idx w =
                populateGlobals host info (ev.addr - info.elfBaseVaddr) idx w := by
            rw [populateGlobals, populateGlobals, show info'.globals = info.globals from hglobals]
          rw [ht]
          dsimp only [Option.elim]
          rw [show info'.elfBaseVaddr = info.elfBaseVaddr from hbase, hpopulated]
          obtain ⟨hidx, hnodes⟩ := populateGlobals_untyped host info
            (ev.addr - info.elfBaseVaddr) {} hworld
          rw [hidx]
          have hrest := congrArg (fun x : State => { x with
            relocationDelta := some (ev.addr - info.elfBaseVaddr)
            addrIndex := (populateGlobals host info (ev.addr - info.elfBaseVaddr) {} t.world).1
            world := (populateGlobals host info (ev.addr - info.elfBaseVaddr) {} s.world).2.untyped })
            hloaded
          simp only [State.untyped]
          rw [← hnodes]
          exact hrest

/-- An event takes states that agree but for their types to such states. -/
theorem untyped_processEvent (h : s.untyped = t.untyped) :
    (processEvent host ev s).untyped = (processEvent host ev t).untyped := by
  have hcounted : (countEvent s).untyped = (countEvent t).untyped :=
    congrArg countEvent h
  cases hkind : kindOf ev with
  | write =>
      rw [processEvent_write _ _ _ hkind, processEvent_write _ _ _ hkind]
      refine untyped_node ?_
      rw [untyped_beforeNode, untyped_beforeNode, hcounted]
  | call =>
      simp only [processEvent, processKind, hkind]
      exact untyped_processCall hcounted
  | ret =>
      simp only [processEvent, processKind, hkind]
      exact untyped_processReturn hcounted
  | alloc =>
      simp only [processEvent, processKind, hkind, untyped_processAlloc]
      exact congrArg (fun x : State => { x with
        world := { x.world with
          heapAllocs := (x.world.heapAllocs.onAlloc ev.addr (Alloc.size ev)).1
          lastAllocEventCount := x.world.totalEventCount } }) hcounted
  | free =>
      simp only [processEvent, processKind, hkind, untyped_processFree]
      exact congrArg (fun x : State => { x with
        world := { x.world with heapAllocs := (x.world.heapAllocs.onFree ev.addr).1 } }) hcounted
  | moduleLoad =>
      simp only [processEvent, processKind, hkind]
      exact untyped_processModuleLoad hcounted
  | tailCall =>
      simp only [processEvent, processKind, hkind]
      exact congrArg (fun x : State => { x with
        heapOracle := x.heapOracle.updateStack ev.threadId ev.value }) hcounted
  | cacheMiss =>
      simp only [processEvent, processKind, hkind]
      exact congrArg (fun x : State => { x with
        addrIndex := (x.addrIndex.lookup host.orders ev.addr).1 }) hcounted
  | read | bbEntry =>
      simp only [processEvent, processKind, hkind]
      exact congrArg tickInsn hcounted
  | reload | regSnapshot | processFork | sharedMap =>
      simp only [processEvent, processKind, hkind]
      exact hcounted
  | unknown =>
      simp only [processEvent, processKind, hkind]
      exact congrArg (fun x : State => { x with
        world := { x.world with unknownEventKinds := x.world.unknownEventKinds + 1 } }) hcounted

end Events

end Rtmap.Engine
