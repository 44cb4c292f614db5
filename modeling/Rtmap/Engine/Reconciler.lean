import Rtmap.Engine.Snapshots
import Rtmap.Engine.Topology

/-!
# The reconciler

`process_event` over the whole engine state, one definition for each event kind
and for each stage of a WRITE; the population of the address index from the
DWARF globals and from the libraries' functions; register snapshots. What lies
outside the engine is a `Host`.
-/
namespace Rtmap.Engine
open Rtmap.Ring

def EVENT_CACHE_MISS : UInt8 := 6

inductive EventKind where
  | write | read | call | ret | regSnapshot | cacheMiss | moduleLoad | tailCall | alloc | free
  | bbEntry | reload | processFork | sharedMap | unknown
deriving DecidableEq, Repr

/-- The arm of `process_event` that a kind takes. -/
def kindOf (ev : Event) : EventKind :=
  if ev.kind = EVENT_WRITE then .write
  else if ev.kind = EVENT_READ then .read
  else if ev.kind = EVENT_CALL then .call
  else if ev.kind = EVENT_RETURN then .ret
  else if ev.kind = EVENT_REG_SNAPSHOT then .regSnapshot
  else if ev.kind = EVENT_CACHE_MISS then .cacheMiss
  else if ev.kind = EVENT_MODULE_LOAD then .moduleLoad
  else if ev.kind = EVENT_TAIL_CALL then .tailCall
  else if ev.kind = EVENT_ALLOC then .alloc
  else if ev.kind = EVENT_FREE then .free
  else if ev.kind = EVENT_BB_ENTRY then .bbEntry
  else if ev.kind = EVENT_RELOAD then .reload
  else if ev.kind = EVENT_PROCESS_FORK then .processFork
  else if ev.kind = EVENT_SHARED_MAP then .sharedMap
  else .unknown

/-- What the engine asks of its surroundings: orders it leaves open, the DWARF
reader and the target's memory. -/
structure Host where
  orders : IndexOrders
  resolveExpr : DwarfExprOp → (RegIdx → UInt64) → UInt64 → Bool → Option UInt64
  /-- what `resolve_deep` finds for a name -/
  deep : Registry → String → Option TypeInfo
  /-- `patch_shallow_fields` -/
  patch : Registry → TypeInfo → TypeInfo
  mem : Option ShadowTypeMap.Memory

structure ShadowFrame where
  frameId : FrameId
  calleePc : UInt64
  name : String
deriving DecidableEq, Repr

/-- The frames of a thread, the innermost first. -/
structure ShadowStack where
  frames : List ShadowFrame := []
  mismatches : ℕ := 0
  maxDepth : ℕ := 0

namespace ShadowStack

def pushCall (st : ShadowStack) (f : ShadowFrame) : ShadowStack :=
  { st with
    frames := f :: st.frames
    maxDepth := max st.maxDepth (st.frames.length + 1) }

/-- `pop_return`: an empty stack counts a mismatch. -/
def popReturn (st : ShadowStack) : ShadowStack × Option ShadowFrame :=
  match st.frames with
  | f :: rest => ({ st with frames := rest }, some f)
  | [] => ({ st with mismatches := st.mismatches + 1 }, none)

theorem popReturn_cons {st : ShadowStack} {f : ShadowFrame} {rest : List ShadowFrame}
    (h : st.frames = f :: rest) : st.popReturn = ({ st with frames := rest }, some f) := by
  rw [popReturn, h]

theorem popReturn_nil {st : ShadowStack} (h : st.frames = []) :
    st.popReturn = ({ st with mismatches := st.mismatches + 1 }, none) := by
  rw [popReturn, h]

end ShadowStack

structure State where
  world : World := {}
  addrIndex : AddressIndex := {}
  dwarfInfo : Option DwarfInfo := none
  threadStacks : UInt16 → Option ShadowStack := fun _ => none
  nextFrameId : FrameId := 1
  relocationDelta : Option UInt64 := none
  returnedFrames : List FrameId := []
  shadowRegs : UInt16 → Option ShadowRegisterFile := fun _ => none
  heapGraph : HeapGraph := {}
  heapOracle : HeapOracle := {}
  topo : Topology := none

def computeCfa (regs : RegIdx → UInt64) : UInt64 := regs 7 + 8

/-- `resolve_location`. -/
def resolveLocation (host : Host) (piece : LocationPiece) (regs : RegIdx → UInt64)
    (frameBase : UInt64) (cfa : Bool) : Option UInt64 :=
  match piece with
  | .address a => some a
  | .frameBaseOffset off => some ((if cfa then computeCfa regs else frameBase) + off.toUInt64)
  | .register r => (dwarfRegToIdx r).map regs
  | .registerOffset r off => (dwarfRegToIdx r).map fun i => regs i + off.toUInt64
  | .implicitValue _ => none
  | .cfa => some (computeCfa regs)
  | .expr op => host.resolveExpr op regs frameBase cfa

section Globals

/-- The index and the world under population, with the next field number. -/
structure Populating where
  addrIndex : AddressIndex
  world : World
  nextField : UInt16

/-- `register_fields_recursive`, with `levels` left of the seven (`depth` 0 to 6);
the field numbers of a global stop at the largest one. -/
def registerFields (gi : UInt32) :
    ℕ → String → UInt64 → List FieldInfo → Populating → Populating
  | 0, _, _, _, acc => acc
  | levels + 1, parentName, parentBase, fields, acc =>
      fields.foldl (fun acc f =>
        if f.byteSize = 0 ∨ f.name = "<pointee>" ∨ acc.nextField = -1 then acc
        else
          let addr := parentBase + f.byteOffset
          let qualified := parentName ++ "." ++ f.name
          let id := NodeId.field gi acc.nextField
          let acc : Populating := {
            addrIndex :=
              acc.addrIndex.insertField addr f.byteSize qualified f.typeInfo gi acc.nextField
            world := (acc.world.removeNode id).ensureNode id qualified f.typeInfo addr f.byteSize
            nextField := acc.nextField + 1 }
          if !f.typeInfo.isPointer && !f.typeInfo.fields.isEmpty && f.byteSize > 8 then
            registerFields gi levels qualified addr f.typeInfo.fields acc
          else acc) acc

/-- A global at its run-time address: its interval, its node, a projection where
its type has fields, and its fields. `replace` removes the node that was there. -/
def populateGlobal (replace : Bool) (g : GlobalVar) (delta : UInt64) (gi : UInt32)
    (idx : AddressIndex) (w : World) : AddressIndex × World :=
  let base := g.addr + delta
  let idx := idx.insertGlobal base g.size g.name g.typeInfo gi
  let w := if replace then w.removeNode (.global gi) else w
  let w := w.ensureNode (.global gi) g.name g.typeInfo base g.size
  let w :=
    if !g.typeInfo.fields.isEmpty && g.typeInfo.byteSize > 0 then
      { w with stm := (w.stm.stampType base g.typeInfo g.name 0).1 }
    else w
  if g.typeInfo.isPointer then (idx, w)
  else
    let r := registerFields gi 7 g.name base g.typeInfo.fields ⟨idx, w, 0⟩
    (r.addrIndex, r.world)

/-- `populate_globals`. -/
def populateGlobals (host : Host) (info : DwarfInfo) (delta : UInt64) (idx : AddressIndex)
    (w : World) : AddressIndex × World :=
  let r := info.globals.zipIdx.foldl (fun r g =>
    populateGlobal true g.1 delta (UInt32.ofNat g.2) r.1 r.2) (idx, w)
  (r.1.finalize host.orders, r.2)

/-- The part of a path after its last slash. -/
def basename (path : String) : String :=
  String.ofList (path.toList.reverse.takeWhile (· ≠ '/')).reverse

/-- A line of the tracer's module table. -/
structure Module where
  base : UInt64
  path : String

/-- The load delta of a library: the first module of its path or its base name. -/
def libDelta (modtab : List Module) (lib : LibDwarf) : Option UInt64 :=
  (modtab.find? fun m => m.path == lib.libPath || basename m.path == basename lib.libPath).map
    fun m => m.base - lib.elfBaseVaddr

/-- A library function at its run-time address. -/
def relocateFunction (delta pc : UInt64) (f : FunctionMeta) : FunctionMeta :=
  { f with lowPc := pc + delta, highPc := f.highPc + delta }

/-- The functions of a library merged into the main table under their run-time addresses. -/
def mergeFunctions (delta : UInt64) (lib : LibDwarf) (functions : FunctionMap) : FunctionMap :=
  lib.functions.entries.foldl (fun m e => m.add (relocateFunction delta e.1 e.2)) functions

/-- The globals of the libraries, numbered after the main module's. -/
def populateLibs (deltas : List (LibDwarf × UInt64)) (firstGi : ℕ) (idx : AddressIndex)
    (w : World) : AddressIndex × World :=
  ((deltas.flatMap fun d => d.1.globals.map fun g => (g, d.2)).zipIdx firstGi).foldl
    (fun r g => populateGlobal false g.1.1 g.1.2 (UInt32.ofNat g.2) r.1 r.2) (idx, w)

/-- `populate_lib_globals`: nothing until the module table places every library. -/
def populateLibGlobals (host : Host) (modtab : List Module) (s : State) : State × ℕ × ℕ :=
  match s.dwarfInfo with
  | none => (s, 0, 0)
  | some info =>
      if modtab.isEmpty then (s, 0, 0)
      else
        match info.libGlobals.mapM (libDelta modtab) with
        | none => (s, 0, 0)
        | some deltas =>
            let libs := info.libGlobals.zip deltas
            let totalG := (info.libGlobals.map fun l => l.globals.length).sum
            let totalF := (info.libGlobals.map fun l => l.functions.entries.length).sum
            let r := populateLibs libs info.globals.length s.addrIndex s.world
            let functions := libs.foldl (fun m l => mergeFunctions l.2 l.1 m) info.functions
            ({ s with
                addrIndex := if totalG > 0 then r.1.finalize host.orders else r.1
                world := r.2
                dwarfInfo := some { info with functions := functions } }, totalG, totalF)

end Globals

namespace State

def emit (s : State) (l : Line) : State := { s with topo := s.topo.emit l }

/-- The frames of a thread, the innermost first. -/
def framesOf (s : State) (tid : UInt16) : List ShadowFrame :=
  ((s.threadStacks tid).map ShadowStack.frames).getD []

/-- A run-time address as an address of the main ELF file. -/
def elfPc (s : State) (addr : UInt64) : UInt64 :=
  match s.relocationDelta with
  | some d => addr - d
  | none => addr

/-- Change the thread's register file, which a first use creates. -/
def withRegs (s : State) (tid : UInt16) (f : ShadowRegisterFile → ShadowRegisterFile) : State :=
  { s with shadowRegs :=
      Function.update s.shadowRegs tid (some (f ((s.shadowRegs tid).getD {}))) }

/-- What a scan reads in this state. -/
def scanSource (host : Host) (s : State) (registry : Registry) : ShadowTypeMap.ScanSource :=
  ⟨s.heapGraph, s.world.heapAllocs, registry, host.mem⟩

def withStm (s : State) (f : ShadowTypeMap → ShadowTypeMap) : State :=
  { s with world := { s.world with stm := f s.world.stm } }

end State

/-- The value of a WRITE: a truncated one carries none. -/
def writeValue (ev : Event) : UInt64 := if ev.isTruncated then 0 else ev.value

def seqOf (ev : Event) : ℕ := ev.seq32.toNat

namespace Write

/-- The line's writers are recorded. -/
def recordLine (ev : Event) (s : State) : State × UInt16 :=
  let r := ClTracker.recordWrite s.world.clTracker ev.addr ev.threadId
  ({ s with world := { s.world with clTracker := r.1 } }, r.2)

/-- A write inside the indexed range goes to the writing thread's registers. -/
def observe (ev : Event) (s : State) : State :=
  match s.dwarfInfo with
  | none => s
  | some info =>
      if !ev.isContinuation && s.addrIndex.inUniverse ev.addr then
        s.withRegs ev.threadId fun f =>
          f.observeWrite (writeValue ev) (s.elfPc ev.addr) (seqOf ev)
            (info.funcContaining (s.elfPc ev.addr))
      else s

/-- A line of several writers: the other threads' registers are checked. -/
def cohere (ev : Event) (writers : UInt16) (s : State) : State :=
  if !ev.isTruncated && !ev.isContinuation && countOnes writers > 1 then
    { s with shadowRegs := fun tid =>
        if tid = ev.threadId then s.shadowRegs tid
        else (s.shadowRegs tid).map fun f => f.checkCoherence ev.addr (writeValue ev) ev.size }
  else s

/-- The heap graph takes the write. -/
def graph (ev : Event) (s : State) : State :=
  { s with heapGraph :=
      s.heapGraph.processWrite ⟨ev.addr, ev.size, writeValue ev, seqOf ev⟩ }

/-- The line of a violation: of the last one kept. -/
def violationLine (ev : Event) (v : TypeViolation) : Line :=
  .typeViolation (seqOf ev) v.kind v.writeAddr v.writeSize v.baseAddr v.offset v.typeName
    (v.expectedField.getD "") v.pc

def emitLastViolation (ev : Event) (s : State) : State :=
  match s.world.violations.getLast? with
  | some v => s.emit (violationLine ev v)
  | none => s

/-- The write against the field boundaries of the covering projection. -/
def checkFields (ev : Event) (p : TypeProjection) (s : State) : State :=
  match checkWrite ev.addr ev.size p ev.ripLo.toUInt64 with
  | some v => emitLastViolation ev { s with world := s.world.recordViolation v }
  | none => s

/-- The link of a pointer stored in a pointer field of the covering projection. -/
def linkField (ev : Event) (p : TypeProjection) (s : State) : State :=
  if ev.size = 8 ∧ writeValue ev ≠ 0 then
    match p.typeInfo.fields.find? fun f =>
        f.byteOffset == ev.addr - p.baseAddr && f.typeInfo.isPointer with
    | some f =>
        s.emit (.link (seqOf ev) p.typeInfo.name ev.addr (writeValue ev)
          ((stripPointer f.typeInfo.name).getD f.typeInfo.name) f.name)
    | none => s
  else s

/-- What the covering projection says about the write. -/
def fields (ev : Event) (s : State) : State :=
  match s.world.stm.covering ev.addr with
  | none => s
  | some p => linkField ev p (checkFields ev p s)

/-- An eight-byte write of a plausible pointer that found no use. -/
def defers (ev : Event) (s : State) : Bool :=
  ev.size == 8 && writeValue ev != 0 && writeValue ev % 8 == 0 && s.heapOracle.isHeap (writeValue ev)

/-- The DWARF data with the type of the projection at the written value materialized. -/
def ensured (host : Host) (ev : Event) (info : DwarfInfo) (s : State) : DwarfInfo :=
  match s.world.stm.lookup (writeValue ev) with
  | some p => info.ensureType host.deep p.typeInfo.name
  | none => info

/-- A shallow projection at the written value is stamped again with the deep type. -/
def upgrade (ev : Event) (info : DwarfInfo) (s : State) : State :=
  match s.world.stm.lookup (writeValue ev) with
  | none => s
  | some p =>
      match info.typeRegistry p.typeInfo.name with
      | some deep =>
          if p.typeInfo.shallow && !deep.shallow then
            s.withStm fun m => (m.stampType (writeValue ev) deep p.sourceName (seqOf ev)).1
          else s
      | none => s

/-- The line of the projection at an address. -/
def emitStamp (seq : ℕ) (addr : UInt64) (s : State) : State :=
  match s.world.stm.lookup addr with
  | some p =>
      s.emit (.stamp seq addr p.typeInfo.name p.typeInfo.byteSize p.sourceName
        p.typeInfo.fields.length)
  | none => s

/-- After a stamp: deepen a shallow projection, then scan from it. -/
def deepen (host : Host) (ev : Event) (info : DwarfInfo) (s : State) : State :=
  let info := ensured host ev info s
  let s := upgrade ev info s
  let s := s.withStm fun m =>
    m.retrospectiveScan (s.scanSource host info.typeRegistry) (writeValue ev) (seqOf ev)
  emitStamp (seqOf ev) (writeValue ev) { s with dwarfInfo := some info }

/-- The written pointer is propagated through the covering projection, else deferred. -/
def propagate (host : Host) (ev : Event) (s : State) : State :=
  match s.dwarfInfo with
  | none => s
  | some info =>
      let r := s.world.stm.propagateFieldWrite ev.addr (writeValue ev) ev.size (seqOf ev)
        info.typeRegistry s.world.heapAllocs
      let s := s.withStm fun _ => r.1
      if r.2 then deepen host ev info s
      else if defers ev s then s.withStm fun m => m.deferWrite ⟨ev.addr, writeValue ev, seqOf ev⟩
      else s

def HEAP_HOLE_GRACE : ℕ := 256

/-- A hole right after an ALLOC may be due to the order of the rings. -/
def inGrace (w : World) (h : HeapHazard) : Bool :=
  h.kind == .heapHole && w.totalEventCount - w.lastAllocEventCount < HEAP_HOLE_GRACE

def hazardLine (ev : Event) (h : HeapHazard) : Line :=
  .hazard (seqOf ev) h.kind h.writeAddr h.writeSize h.allocBase h.allocSize h.overflowBytes
    (h.typeName.getD "") (h.fieldName.getD "")

/-- The bounds of the write, while fewer than 64 hazards are recorded. -/
def bounds (ev : Event) (s : State) : State :=
  if s.world.hazards.length < 64 then
    match s.world.heapAllocs.checkWriteBounds ev.addr ev.size s.world.stm with
    | none => s
    | some h =>
        if inGrace s.world h || s.world.hazards.any fun prev => prev.writeAddr == h.writeAddr then s
        else
          let h : HeapHazard := { h with
            pc := ev.ripLo.toUInt64
            regSnapshot := (s.shadowRegs ev.threadId).map ShadowRegisterFile.values }
          let s := { s with world := { s.world with hazards := s.world.hazards ++ [h] } }
          s.emit (hazardLine ev h)
  else s

/-- The stages of a write to a heap address. -/
def heap (host : Host) (ev : Event) (s : State) : State :=
  if s.heapOracle.isHeap ev.addr then bounds ev (propagate host ev (fields ev (graph ev s)))
  else s

/-- The epoch of a displaced projection is closed where a block is tracked. -/
def logSchism (ev : Event) (old : OldStamp) (s : State) : State :=
  match s.world.heapAllocs.allocSize ev.value with
  | some size =>
      let epoch : TypeEpoch :=
        ⟨ev.value, size, old.type, old.source, old.stampSeq, seqOf ev, .schism⟩
      { s with world := { s.world with typeEpochs := s.world.typeEpochs.closeEpoch epoch } }
  | none => s

/-- What a displaced projection leaves behind: a closed epoch and two lines. -/
def closeSchism (ev : Event) (newType newSource : String) (reason : CloseReason) (old : OldStamp)
    (s : State) : State :=
  ((logSchism ev old s).emit
    (.typeSchism (seqOf ev) ev.value old.type newType old.source newSource)).emit
    (.typeEpochClose (seqOf ev) ev.value old.type old.source old.stampSeq (seqOf ev) reason)

/-- What a stamp's result reports. -/
def report (ev : Event) (newType newSource : String) (r : StampResult) (s : State) : State :=
  match r with
  | .schism old => closeSchism ev newType newSource .schism old s
  | .poolReuse old => closeSchism ev newType newSource .poolReuse old s
  | _ => s

/-- After an applied stamp: replay the deferred writes and scan from the address. -/
def spread (host : Host) (registry : Registry) (addr : UInt64) (seq : ℕ) (s : State) : State :=
  s.withStm fun m =>
    (m.replayDeferred registry s.world.heapAllocs).retrospectiveScan (s.scanSource host registry)
      addr seq

/-- The DWARF data with the pointee type of a pointer variable materialized. -/
def pointeeInfo (host : Host) (typeName : String) (info : DwarfInfo) : DwarfInfo :=
  info.ensureType host.deep ((stripPointer typeName).getD "")

/-- The pointee type of a pointer variable, with its shallow fields patched. -/
def pointeeType (host : Host) (typeName : String) (info : DwarfInfo) : Option TypeInfo :=
  (info.typeRegistry ((stripPointer typeName).getD "")).map (host.patch info.typeRegistry)

/-- Stamp the written address with a pointer variable's pointee type. -/
def stampVariable (host : Host) (ev : Event) (name : String) (registry : Registry)
    (pointee : TypeInfo) (s : State) : State :=
  let r := s.world.stm.stampType ev.value pointee name (seqOf ev)
  let s := report ev pointee.name name r.2 (s.withStm fun _ => r.1)
  if r.2.applied then
    (spread host registry ev.value (seqOf ev) s).emit
      (.stamp (seqOf ev) ev.value pointee.name pointee.byteSize name pointee.fields.length)
  else s

/-- A heap pointer stored in a typed pointer variable stamps its pointee. -/
def stampPointee (host : Host) (ev : Event) (name typeName : String) (s : State) : State :=
  match s.dwarfInfo with
  | none => s
  | some info =>
      let info := pointeeInfo host typeName info
      let s := { s with dwarfInfo := some info }
      match pointeeType host typeName info with
      | some pointee => stampVariable host ev name info.typeRegistry pointee s
      | none => s

/-- The node a pointer value refers to. -/
def target (host : Host) (ev : Event) (s : State) : AddressIndex × Option NodeId :=
  if ev.value = 0 then (s.addrIndex, none)
  else
    let r := s.addrIndex.lookup host.orders ev.value
    (r.1, r.2.map Interval.nodeId)

/-- A pointer variable's edge. -/
def edge (host : Host) (ev : Event) (h : Interval) (s : State) : State :=
  let r := target host ev s
  { s with addrIndex := r.1, world := s.world.updateEdge h.nodeId r.2 ev.value }

/-- A pointer variable's edge, the stamp of its pointee and its link. -/
def pointer (host : Host) (ev : Event) (h : Interval) (s : State) : State :=
  let s := edge host ev h s
  if ev.value = 0 then s
  else
    let s :=
      if s.heapOracle.isHeap ev.value then stampPointee host ev h.name h.typeInfo.name s else s
    s.emit (.link (seqOf ev) h.name ev.addr ev.value
      ((stripPointer h.typeInfo.name).getD h.typeInfo.name) h.name)

/-- The written variable's node and its value. -/
def value (ev : Event) (h : Interval) (s : State) : State :=
  let w := s.world.ensureNode h.nodeId h.name h.typeInfo ev.addr ev.size.toUInt64
  { s with world := w.updateValue h.nodeId (writeValue ev) }

/-- The variable at the written address: its node, its value, its edge. -/
def node (host : Host) (ev : Event) (s : State) : State :=
  let r := s.addrIndex.lookup host.orders ev.addr
  let s := { s with addrIndex := r.1 }
  match r.2 with
  | none => s
  | some h =>
      if h.typeInfo.isPointer && ev.size == 8 then pointer host ev h (value ev h s)
      else value ev h s

end Write

/-- EVENT_WRITE. -/
def processWrite (host : Host) (ev : Event) (s : State) : State :=
  let r := Write.recordLine ev s
  Write.node host ev (Write.heap host ev (Write.cohere ev r.2 (Write.observe ev r.1)))

namespace Call

/-- The address of a local in the new frame. -/
def localAddr (host : Host) (elfPc frameBase : UInt64) (regs : RegIdx → UInt64)
    (f : FunctionMeta) (l : LocalVar) : UInt64 :=
  let default := frameBase + l.frameOffset.toUInt64
  match (l.location.lookup elfPc).orElse fun _ => l.location.entries.head?.map LocationEntry.piece with
  | none | some (.frameBaseOffset _) | some (.registerOffset _ _) => default
  | some p => (resolveLocation host p regs frameBase f.frameBaseIsCfa).getD default

/-- Push the frame of a known function and place its locals. -/
def enter (host : Host) (ev : Event) (f : FunctionMeta) (s : State) : State :=
  let fid := s.nextFrameId
  let stack := (s.threadStacks ev.threadId).getD {}
  { s with
    nextFrameId := fid + 1
    threadStacks := Function.update s.threadStacks ev.threadId (some (stack.pushCall ⟨fid, ev.addr, f.name⟩))
    world := f.locals.zipIdx.foldl (fun w l =>
      w.ensureNode (.local fid (UInt16.ofNat l.2)) l.1.name l.1.typeInfo
        (localAddr host (s.elfPc ev.addr) ev.value s.world.regs f l.1) l.1.size) s.world
    addrIndex :=
      if f.locals.isEmpty then s.addrIndex
      else s.addrIndex.insertFrameLocals fid ev.value f.locals }

end Call

/-- The function a CALL to this address enters, if the DWARF data knows it. -/
def State.callee (s : State) (addr : UInt64) : Option FunctionMeta :=
  s.dwarfInfo.bind fun info => info.functions.get? (s.elfPc addr)

/-- EVENT_CALL. -/
def processCall (host : Host) (ev : Event) (s : State) : State :=
  let s := s.withRegs ev.threadId fun f => f.onCall ev.addr ev.value (seqOf ev)
  let s := { s with heapOracle := s.heapOracle.updateStack ev.threadId ev.value }
  match s.callee ev.addr with
  | some f => Call.enter host ev f s
  | none => s

/-- The register file on return: the callee's unwind rows verify what it saved. -/
def returnRegs (ev : Event) (info : Option DwarfInfo) (f : ShadowRegisterFile) :
    ShadowRegisterFile :=
  match info.bind fun info => f.calleePc.bind info.savedRegsAt with
  | some saved => f.onReturnCfi (seqOf ev) ev.addr saved
  | none => f.onReturn (seqOf ev) ev.addr

/-- The nodes of a returned frame stay until 32 more frames have returned. -/
def retireFrame (fid : FrameId) (s : State) : State :=
  let queue := s.returnedFrames ++ [fid]
  match queue with
  | oldest :: rest =>
      if queue.length > 32 then
        { s with returnedFrames := rest, world := s.world.removeFrameNodes oldest }
      else { s with returnedFrames := queue }
  | [] => s

/-- EVENT_RETURN. -/
def processReturn (ev : Event) (s : State) : State :=
  let s := s.withRegs ev.threadId (returnRegs ev s.dwarfInfo)
  match s.threadStacks ev.threadId with
  | none => s
  | some stack =>
      let r := stack.popReturn
      let s := { s with threadStacks := Function.update s.threadStacks ev.threadId (some r.1) }
      match r.2 with
      | none => s
      | some f => retireFrame f.frameId { s with addrIndex := s.addrIndex.removeFrame f.frameId }

namespace Alloc

/-- ev.value carries the full 64-bit size; ev.size truncates it. -/
def size (ev : Event) : UInt64 := if ev.value ≠ 0 then ev.value else ev.size.toUInt64

/-- Close the epoch of the projection based at the address. -/
def closeEpoch (ev : Event) (oldSize : UInt64) (reason : EpochClose) (line : CloseReason)
    (s : State) : State :=
  match s.world.stm.lookup ev.addr with
  | none => s
  | some p =>
      let epoch : TypeEpoch :=
        ⟨ev.addr, oldSize, p.typeInfo.name, p.sourceName, p.stampSeq, seqOf ev, reason⟩
      let s := { s with world := { s.world with typeEpochs := s.world.typeEpochs.closeEpoch epoch } }
      s.emit
        (.typeEpochClose (seqOf ev) ev.addr p.typeInfo.name p.sourceName p.stampSeq (seqOf ev) line)

/-- A block reallocated in place, or whose FREE was missed: its epoch ends. -/
def retire (ev : Event) (oldSize : UInt64) (s : State) : State :=
  let s := closeEpoch ev oldSize .realloc .realloc s
  let s := s.withStm fun m => m.purgeRange ev.addr oldSize
  { s with heapGraph := s.heapGraph.onFree ev.addr oldSize }

/-- The tracker takes the block; the size it knew, if it tracked the address. -/
def record (ev : Event) (s : State) : State × Option UInt64 :=
  let r := s.world.heapAllocs.onAlloc ev.addr (size ev)
  let w := { s.world with
    lastAllocEventCount := s.world.totalEventCount
    heapAllocs := r.1 }
  ({ s with world := w }, r.2)

/-- A tracked block of another size is retired first. -/
def renew (ev : Event) (old : Option UInt64) (s : State) : State :=
  match old with
  | some oldSize => retire ev oldSize s
  | none => s

/-- Track the block. A second ALLOC of the same size (a wrapper around the
allocator) has no further effect. -/
def track (ev : Event) (s : State) : State :=
  let r := record ev s
  if r.2 = some (size ev) then r.1
  else (renew ev r.2 r.1).emit (.alloc (seqOf ev) ev.threadId ev.addr (size ev))

/-- Append unless present. -/
def pushNew (pcs : List UInt64) (pc : UInt64) : List UInt64 :=
  if pcs.contains pc then pcs else pcs ++ [pc]

def pushNewBounded (pcs : List UInt64) (pc : UInt64) : List UInt64 :=
  if pcs.length ≥ 8 then pcs else pushNew pcs pc

/-- The inlined functions over a caller, among the three that start last below it. -/
def inlinedAt (info : DwarfInfo) (pc : UInt64) : List UInt64 :=
  (((info.functions.upTo pc).take 3).filter fun e =>
    pc < e.2.highPc && e.2.name.startsWith "[inlined]").map Prod.fst

/-- The callers of an allocation: the return address, six frames, the functions
inlined into them; at most eight. -/
def callerPcs (ev : Event) (info : DwarfInfo) (delta : UInt64) (frames : List ShadowFrame) :
    List UInt64 :=
  let first := if ev.ripLo ≠ 0 then [ev.ripLo.toUInt64 - (delta &&& 0xFFFFFFFF)] else []
  let base := ((frames.take 6).map fun f => f.calleePc - delta).foldl pushNew first
  (base.flatMap (inlinedAt info)).foldl pushNewBounded base

/-- The name of an allocation site as a stamp's source. -/
def sourceName (pcs : List UInt64) : String :=
  "alloc@0x" ++ String.ofList (Nat.toDigits 16 (pcs.headD 0).toNat)

/-- The type of a birth stamp: as the registry has it, with shallow fields patched. -/
def birthType (host : Host) (info : DwarfInfo) (ti : TypeInfo) : TypeInfo :=
  host.patch info.typeRegistry ((info.typeRegistry ti.name).getD ti)

/-- Stamp the block with a type. -/
def stampBlock (host : Host) (ev : Event) (source : String) (registry : Registry) (ti : TypeInfo)
    (s : State) : State :=
  let r := s.world.stm.stampType ev.addr ti source (seqOf ev)
  let s := s.withStm fun _ => r.1
  if r.2.applied then
    (Write.spread host registry ev.addr (seqOf ev) s).emit
      (.stamp (seqOf ev) ev.addr ti.name ti.byteSize source ti.fields.length)
  else s

/-- Stamp the block at birth with the type the oracle gives it. -/
def stampBirth (host : Host) (ev : Event) (s : State) : State :=
  match s.dwarfInfo, s.relocationDelta with
  | some info, some delta =>
      let pcs := callerPcs ev info delta (s.framesOf ev.threadId)
      match info.allocOracle.resolve (size ev) pcs with
      | none => s
      | some ti =>
          let info := info.ensureType host.deep ti.name
          stampBlock host ev (sourceName pcs) info.typeRegistry (birthType host info ti)
            { s with dwarfInfo := some info }
  | _, _ => s

end Alloc

/-- EVENT_ALLOC. -/
def processAlloc (host : Host) (ev : Event) (s : State) : State :=
  Alloc.stampBirth host ev (Alloc.track ev s)

namespace Free

/-- Every store forgets the freed range. -/
def purge (addr size : UInt64) (s : State) : State :=
  let s := s.withStm fun m =>
    ((m.purgeRange addr size).purgeIndirect addr size).purgeDeferred addr size
  { s with heapGraph := s.heapGraph.onFree addr size }

end Free

/-- EVENT_FREE: of a tracked block, or of an untracked one that carries a stamp. -/
def processFree (ev : Event) (s : State) : State :=
  let r := s.world.heapAllocs.onFree ev.addr
  let s := { s with world := { s.world with heapAllocs := r.1 } }
  match r.2 with
  | some oldSize =>
      (Free.purge ev.addr oldSize (Alloc.closeEpoch ev oldSize .free .free s)).emit
        (.free (seqOf ev) ev.threadId ev.addr oldSize)
  | none =>
      match s.world.stm.lookup ev.addr with
      | some p =>
          Free.purge ev.addr p.typeInfo.byteSize
            (Alloc.closeEpoch ev p.typeInfo.byteSize .free .free s)
      | none => s

/-- EVENT_RELOAD. -/
def processReload (ev : Event) (s : State) : State :=
  s.withRegs ev.threadId fun f =>
    f.onReload ev.flags.toNat ev.value ev.addr ev.size (seqOf ev) ev.addr

/-- EVENT_MODULE_LOAD: the first one relocates the index. -/
def processModuleLoad (host : Host) (ev : Event) (s : State) : State :=
  let s := { s with heapOracle := s.heapOracle.addModule ev.addr ev.value }
  match s.relocationDelta, s.dwarfInfo with
  | none, some info =>
      let delta := ev.addr - info.elfBaseVaddr
      let r := populateGlobals host info delta {} s.world
      { s with relocationDelta := some delta, addrIndex := r.1, world := r.2 }
  | _, _ => s

/-- One more instruction. -/
def tickInsn (s : State) : State :=
  { s with world := { s.world with insnCounter := s.world.insnCounter + 1 } }

/-- The arms of `process_event`. -/
def processKind (host : Host) (ev : Event) (s : State) : State :=
  match kindOf ev with
  | .write => processWrite host ev s
  | .call => processCall host ev s
  | .ret => processReturn ev s
  | .tailCall => { s with heapOracle := s.heapOracle.updateStack ev.threadId ev.value }
  | .cacheMiss => { s with addrIndex := (s.addrIndex.lookup host.orders ev.addr).1 }
  | .reload => processReload ev s
  | .alloc => processAlloc host ev s
  | .free => processFree ev s
  | .read | .bbEntry => tickInsn s
  | .moduleLoad => processModuleLoad host ev s
  | .regSnapshot | .processFork | .sharedMap => s
  | .unknown => { s with world := { s.world with unknownEventKinds := s.world.unknownEventKinds + 1 } }

/-- One more event. -/
def countEvent (s : State) : State :=
  { s with world := { s.world with totalEventCount := s.world.totalEventCount + 1 } }

/-- `process_event`. -/
def processEvent (host : Host) (ev : Event) (s : State) : State :=
  processKind host ev (countEvent s)

/-- Apply a decoded register snapshot to the world's and the thread's registers. -/
def applySnapshotUpdate (u : SnapshotUpdate) (s : State) : State :=
  let regs : RegIdx → UInt64 := fun i => u.regs.getD i.val 0
  ({ s with world := { s.world with regs := regs } }).withRegs u.threadId fun f =>
    f.applySnapshot regs u.seq.toNat u.insnCounter

end Rtmap.Engine
