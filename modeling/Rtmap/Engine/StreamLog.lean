import Rtmap.Engine.Drain
import Rtmap.Engine.Lines

/-!
# The topology stream is only written

No step of the engine reads the stream: with another stream, or with none, it ends in
the same state and has the same lines to add. `Appends` says so of a function at a state;
it composes, so every stage of an event is shown to append from the stages it is made of.
-/
namespace Rtmap.Engine
open Rtmap.Ring

namespace Topology

theorem emitAll_emitAll (t : Topology) (xs ys : List Line) :
    (t.emitAll xs).emitAll ys = t.emitAll (xs ++ ys) := by
  cases t with
  | none => rfl
  | some ls => exact congrArg some (List.append_assoc ls xs ys)

end Topology

namespace State

def withTopo (t : Topology) (s : State) : State := { s with topo := t }

section Reads
variable (t : Topology) (s : State)

@[simp] theorem world_withTopo : (s.withTopo t).world = s.world := rfl
@[simp] theorem addrIndex_withTopo : (s.withTopo t).addrIndex = s.addrIndex := rfl
@[simp] theorem dwarfInfo_withTopo : (s.withTopo t).dwarfInfo = s.dwarfInfo := rfl
@[simp] theorem heapOracle_withTopo : (s.withTopo t).heapOracle = s.heapOracle := rfl
@[simp] theorem relocationDelta_withTopo : (s.withTopo t).relocationDelta = s.relocationDelta := rfl
@[simp] theorem threadStacks_withTopo : (s.withTopo t).threadStacks = s.threadStacks := rfl
@[simp] theorem shadowRegs_withTopo : (s.withTopo t).shadowRegs = s.shadowRegs := rfl
@[simp] theorem elfPc_withTopo (addr : UInt64) : (s.withTopo t).elfPc addr = s.elfPc addr := rfl
@[simp] theorem framesOf_withTopo (tid : UInt16) : (s.withTopo t).framesOf tid = s.framesOf tid := rfl
@[simp] theorem callee_withTopo (addr : UInt64) : (s.withTopo t).callee addr = s.callee addr := rfl

@[simp] theorem withStm_withTopo (f : ShadowTypeMap → ShadowTypeMap) :
    (s.withTopo t).withStm f = (s.withStm f).withTopo t := rfl

@[simp] theorem withRegs_withTopo (tid : UInt16) (f : ShadowRegisterFile → ShadowRegisterFile) :
    (s.withTopo t).withRegs tid f = (s.withRegs tid f).withTopo t := rfl

@[simp] theorem defers_withTopo (ev : Event) : Write.defers ev (s.withTopo t) = Write.defers ev s :=
  rfl

end Reads

/-- At `s`, whatever its stream is, `f` adds the same lines to it and reads none. -/
def Appends (f : State → State) (s : State) : Prop :=
  ∃ lines, ∀ t, f (s.withTopo t) = (f s).withTopo (t.emitAll lines)

namespace Appends
variable {f g : State → State} {s : State}

/-- A function that leaves the stream alone. -/
theorem quiet (h : ∀ t, f (s.withTopo t) = (f s).withTopo t) : Appends f s :=
  ⟨[], fun t => by rw [h, Topology.emitAll_nil]⟩

theorem emit (l : Line) : Appends (State.emit · l) s := ⟨[l], fun _ => rfl⟩

theorem comp (hf : Appends f s) (hg : Appends g (f s)) : Appends (fun s => g (f s)) s := by
  obtain ⟨xs, hxs⟩ := hf
  obtain ⟨ys, hys⟩ := hg
  refine ⟨xs ++ ys, fun t => ?_⟩
  dsimp only
  rw [hxs, hys, Topology.emitAll_emitAll]

/-- Another function that does at `s` what `f` does, whatever the stream is. -/
theorem congr (hf : Appends f s) (h : ∀ t, g (s.withTopo t) = f (s.withTopo t)) :
    Appends g s := by
  have hself : g s = f s := h s.topo
  obtain ⟨xs, hxs⟩ := hf
  exact ⟨xs, fun t => by rw [h, hxs, hself]⟩

end Appends
end State

open State

section Writes
variable (host : Host) (ev : Event) (s : State)

namespace Write

theorem appends_registered : Appends (registered ev) s := by
  have hobserve (x : State) (t : Topology) :
      observe ev (x.withTopo t) = (observe ev x).withTopo t := by
    cases hinfo : x.dwarfInfo with
    | none => simp [observe, hinfo]
    | some info =>
        simp only [observe, dwarfInfo_withTopo, addrIndex_withTopo, withRegs_withTopo,
          elfPc_withTopo, hinfo]
        exact (apply_ite (withTopo t) _ _ _).symm
  have hcohere (writers : UInt16) (x : State) (t : Topology) :
      cohere ev writers (x.withTopo t) = (cohere ev writers x).withTopo t := by
    rw [cohere, cohere]
    split <;> rfl
  refine .quiet fun t => ?_
  rw [registered, registered, ← hcohere, ← hobserve]
  rfl

theorem appends_fields : Appends (fields ev) s := by
  have hlast (x : State) : Appends (emitLastViolation ev) x := by
    cases hv : x.world.violations.getLast? with
    | none => exact .quiet fun t => by simp [emitLastViolation, hv]
    | some v =>
        exact (Appends.emit (violationLine ev v)).congr fun t => by
          simp [emitLastViolation, hv]
  have hcheck (p : TypeProjection) (x : State) : Appends (checkFields ev p) x := by
    cases hv : checkWrite ev.addr ev.size p ev.ripLo.toUInt64 with
    | none => exact .quiet fun t => by simp [checkFields, hv]
    | some v =>
        have hrecord : Appends (fun x => { x with world := x.world.recordViolation v }) x :=
          .quiet fun _ => rfl
        exact (hrecord.comp (hlast _)).congr fun t => by simp only [checkFields, hv]
  have hlink (p : TypeProjection) (x : State) : Appends (linkField ev p) x := by
    by_cases hsize : ev.size = 8 ∧ writeValue ev ≠ 0
    · cases hf : p.typeInfo.fields.find? fun f =>
          f.byteOffset == ev.addr - p.baseAddr && f.typeInfo.isPointer with
      | none => exact .quiet fun t => by simp [linkField, hf]
      | some f => exact (Appends.emit _).congr fun t => by rw [linkField, if_pos hsize, hf]
    · exact .quiet fun t => by rw [linkField, linkField, if_neg hsize, if_neg hsize]
  cases hp : s.world.stm.covering ev.addr with
  | none => exact .quiet fun t => by simp [fields, hp]
  | some p => exact ((hcheck p s).comp (hlink p _)).congr fun t => by simp [fields, hp]

theorem appends_emitStamp (seq : ℕ) (addr : UInt64) : Appends (emitStamp seq addr) s := by
  cases hp : s.world.stm.lookup addr with
  | none => exact .quiet fun t => by simp [emitStamp, hp]
  | some p => exact (Appends.emit (.stamp seq addr p.typeInfo.name p.typeInfo.byteSize p.sourceName
        p.typeInfo.fields.length)).congr fun t => by simp [emitStamp, hp]

theorem appends_deepen (info : DwarfInfo) : Appends (deepen host ev info) s := by
  have hupgrade (info : DwarfInfo) (t : Topology) :
      upgrade ev info (s.withTopo t) = (upgrade ev info s).withTopo t := by
    cases hp : s.world.stm.lookup (writeValue ev) with
    | none => simp [upgrade, hp]
    | some p =>
        simp only [upgrade, world_withTopo, hp]
        split
        · split <;> rfl
        · rfl
  let info' := ensured host ev info s
  let scanned (x : State) : State :=
    { (upgrade ev info' x).withStm fun m => m.retrospectiveScan
        ((upgrade ev info' x).scanSource host info'.typeRegistry) (writeValue ev) (seqOf ev)
      with dwarfInfo := some info' }
  have hscanned : Appends scanned s := .quiet fun t => by
    simp only [scanned, hupgrade]
    rfl
  exact (hscanned.comp (appends_emitStamp _ (seqOf ev) (writeValue ev))).congr fun t => rfl

theorem appends_propagate : Appends (propagate host ev) s := by
  cases hinfo : s.dwarfInfo with
  | none => exact .quiet fun t => by simp [propagate, hinfo]
  | some info =>
      let stamped (x : State) : State := x.withStm fun m => (m.propagateFieldWrite ev.addr
        (writeValue ev) ev.size (seqOf ev) info.typeRegistry x.world.heapAllocs).1
      have hstamped : Appends stamped s := .quiet fun _ => rfl
      cases huse : (s.world.stm.propagateFieldWrite ev.addr (writeValue ev) ev.size (seqOf ev)
          info.typeRegistry s.world.heapAllocs).2 with
      | true =>
          refine (hstamped.comp (appends_deepen host ev _ info)).congr fun t => ?_
          simp only [propagate, dwarfInfo_withTopo, world_withTopo, hinfo, huse, if_true]
          rfl
      | false =>
          refine .quiet fun t => ?_
          simp only [propagate, dwarfInfo_withTopo, world_withTopo, withStm_withTopo,
            defers_withTopo, hinfo, huse, Bool.false_eq_true, if_false]
          exact (apply_ite (withTopo t) _ _ _).symm

theorem appends_bounds : Appends (bounds ev) s := by
  by_cases hroom : s.world.hazards.length < 64
  · cases hcheck : s.world.heapAllocs.checkWriteBounds ev.addr ev.size s.world.stm with
    | none => exact .quiet fun t => by simp [bounds, hcheck]
    | some h =>
        cases hold : (inGrace s.world h ||
            s.world.hazards.any fun prev => prev.writeAddr == h.writeAddr) with
        | true => exact .quiet fun t => by simp only [bounds, world_withTopo, hroom, hcheck, hold, if_true]
        | false =>
            let found : HeapHazard := { h with
              pc := ev.ripLo.toUInt64
              regSnapshot := (s.shadowRegs ev.threadId).map ShadowRegisterFile.values }
            have hrecord : Appends (fun x => { x with
                world := { x.world with hazards := x.world.hazards ++ [found] } }) s :=
              .quiet fun _ => rfl
            refine (hrecord.comp (.emit (hazardLine ev found))).congr fun t => ?_
            simp only [bounds, world_withTopo, hroom, hcheck, hold, if_true, Bool.false_eq_true, if_false,
              found, shadowRegs_withTopo]
  · exact .quiet fun t => by simp only [bounds, world_withTopo, hroom, if_false]

theorem appends_heap : Appends (heap host ev) s := by
  cases hheap : s.heapOracle.isHeap ev.addr with
  | false => exact .quiet fun t => by simp [heap, hheap]
  | true =>
      have hgraph : Appends (graph ev) s := .quiet fun _ => rfl
      refine (((hgraph.comp (appends_fields ev _)).comp
        (appends_propagate host ev _)).comp (appends_bounds ev _)).congr fun t => ?_
      simp only [heap, heapOracle_withTopo, hheap, if_true]

theorem appends_report (newType newSource : String) (r : StampResult) :
    Appends (report ev newType newSource r) s := by
  have hlog (old : OldStamp) : Appends (logSchism ev old) s := by
    cases hsize : s.world.heapAllocs.allocSize ev.value with
    | none => exact .quiet fun t => by simp [logSchism, hsize]
    | some size => exact .quiet fun t => by simp only [logSchism, world_withTopo, hsize]; rfl
  have hclose (reason : CloseReason) (old : OldStamp) :
      Appends (closeSchism ev newType newSource reason old) s :=
    ((hlog old).comp (.emit _)).comp (.emit _)
  cases r with
  | schism old => exact hclose .schism old
  | poolReuse old => exact hclose .poolReuse old
  | stamped => exact .quiet fun _ => rfl
  | restamped => exact .quiet fun _ => rfl
  | rejected => exact .quiet fun _ => rfl

theorem appends_spread (registry : Registry) (addr : UInt64) (seq : ℕ) :
    Appends (spread host registry addr seq) s := .quiet fun _ => rfl

theorem appends_stampVariable (name : String) (registry : Registry) (pointee : TypeInfo) :
    Appends (stampVariable host ev name registry pointee) s := by
  let r := s.world.stm.stampType ev.value pointee name (seqOf ev)
  have hstm : Appends (fun x => x.withStm fun _ => r.1) s := .quiet fun _ => rfl
  have hreport := hstm.comp (appends_report ev _ pointee.name name r.2)
  by_cases happlied : r.2.applied = true
  · refine ((hreport.comp (appends_spread host _ registry ev.value (seqOf ev))).comp
      (.emit (.stamp (seqOf ev) ev.value pointee.name pointee.byteSize name
        pointee.fields.length))).congr fun t => ?_
    exact if_pos happlied
  · exact hreport.congr fun t => if_neg happlied

theorem appends_stampPointee (name typeName : String) :
    Appends (stampPointee host ev name typeName) s := by
  cases hinfo : s.dwarfInfo with
  | none => exact .quiet fun t => by simp [stampPointee, hinfo]
  | some info =>
      let info' := pointeeInfo host typeName info
      have hload : Appends (fun x => { x with dwarfInfo := some info' }) s := .quiet fun _ => rfl
      cases hpointee : pointeeType host typeName info' with
      | none => exact hload.congr fun t => by simp only [stampPointee, dwarfInfo_withTopo, hinfo, hpointee, info']
      | some pointee =>
          refine (hload.comp (appends_stampVariable host ev _ name info'.typeRegistry
            pointee)).congr fun t => ?_
          simp only [stampPointee, dwarfInfo_withTopo, hinfo, hpointee, info']

theorem appends_pointer (h : Interval) : Appends (pointer host ev h) s := by
  have hedge : Appends (edge host ev h) s := .quiet fun _ => rfl
  by_cases hzero : ev.value = 0
  · exact hedge.congr fun t => if_pos hzero
  · have hlink := Appends.emit (s := edge host ev h s) (.link (seqOf ev) h.name ev.addr ev.value
      ((stripPointer h.typeInfo.name).getD h.typeInfo.name) h.name)
    by_cases hheap : s.heapOracle.isHeap ev.value = true
    · refine ((hedge.comp (appends_stampPointee host ev _ h.name h.typeInfo.name)).comp
        (.emit (.link (seqOf ev) h.name ev.addr ev.value
          ((stripPointer h.typeInfo.name).getD h.typeInfo.name) h.name))).congr fun t => ?_
      rw [pointer, if_neg hzero]
      dsimp only
      rw [if_pos]
      exact hheap
    · refine (hedge.comp hlink).congr fun t => ?_
      rw [pointer, if_neg hzero]
      dsimp only
      rw [if_neg]
      exact hheap

theorem appends_node : Appends (node host ev) s := by
  let r := s.addrIndex.lookup host.orders ev.addr
  have hlookup : Appends (fun x => { x with addrIndex := r.1 }) s := .quiet fun _ => rfl
  cases hfound : r.2 with
  | none =>
      refine hlookup.congr fun t => ?_
      have : (s.addrIndex.lookup host.orders ev.addr).2 = none := hfound
      simp only [node, addrIndex_withTopo, this, r]
  | some h =>
      have hsome : (s.addrIndex.lookup host.orders ev.addr).2 = some h := hfound
      have hvalue : Appends (value ev h) { s with addrIndex := r.1 } := .quiet fun _ => rfl
      cases hptr : h.typeInfo.isPointer && ev.size == 8 with
      | false =>
          refine (hlookup.comp hvalue).congr fun t => ?_
          simp only [node, addrIndex_withTopo, hsome, hptr, r, Bool.false_eq_true, if_false]
      | true =>
          refine ((hlookup.comp hvalue).comp (appends_pointer host ev _ h)).congr fun t => ?_
          simp only [node, addrIndex_withTopo, hsome, hptr, r, if_true]

end Write

theorem appends_processWrite : Appends (processWrite host ev) s :=
  ((Write.appends_registered ev s).comp (Write.appends_heap host ev _)).comp
    (Write.appends_node host ev _)

end Writes

section Blocks
variable (host : Host) (ev : Event) (s : State)

namespace Alloc

theorem appends_closeEpoch (oldSize : UInt64) (reason : EpochClose) (line : CloseReason) :
    Appends (closeEpoch ev oldSize reason line) s := by
  cases hp : s.world.stm.lookup ev.addr with
  | none => exact .quiet fun t => by simp [closeEpoch, hp]
  | some p =>
      let epoch : TypeEpoch :=
        ⟨ev.addr, oldSize, p.typeInfo.name, p.sourceName, p.stampSeq, seqOf ev, reason⟩
      have hclose : Appends (fun x => { x with
          world := { x.world with typeEpochs := x.world.typeEpochs.closeEpoch epoch } }) s :=
        .quiet fun _ => rfl
      refine (hclose.comp (.emit (.typeEpochClose (seqOf ev) ev.addr p.typeInfo.name p.sourceName
        p.stampSeq (seqOf ev) line))).congr fun t => ?_
      simp only [closeEpoch, world_withTopo, hp, epoch]

theorem appends_track : Appends (track ev) s := by
  let r := s.world.heapAllocs.onAlloc ev.addr (size ev)
  have hrecord : Appends (fun x => (record ev x).1) s := .quiet fun _ => rfl
  have hold (t : Topology) : (record ev (s.withTopo t)).2 = (record ev s).2 := rfl
  by_cases hsame : (record ev s).2 = some (size ev)
  · exact hrecord.congr fun t => by rw [track, hold, if_pos hsame]
  · have hrenew : Appends (renew ev (record ev s).2) (record ev s).1 := by
      cases (record ev s).2 with
      | none => exact .quiet fun _ => rfl
      | some oldSize =>
          exact (appends_closeEpoch ev _ oldSize .realloc .realloc).comp
            (g := fun x => { x.withStm fun m => m.purgeRange ev.addr oldSize with
              heapGraph := x.heapGraph.onFree ev.addr oldSize }) (.quiet fun _ => rfl)
    refine ((hrecord.comp hrenew).comp
      (.emit (.alloc (seqOf ev) ev.threadId ev.addr (size ev)))).congr fun t => ?_
    rw [track, hold, if_neg hsame]

theorem appends_stampBlock (source : String) (registry : Registry) (ti : TypeInfo) :
    Appends (stampBlock host ev source registry ti) s := by
  let r := s.world.stm.stampType ev.addr ti source (seqOf ev)
  have hstm : Appends (fun x => x.withStm fun _ => r.1) s := .quiet fun _ => rfl
  by_cases happlied : r.2.applied = true
  · refine ((hstm.comp (Write.appends_spread host _ registry ev.addr (seqOf ev))).comp
      (.emit (.stamp (seqOf ev) ev.addr ti.name ti.byteSize source ti.fields.length))).congr
      fun t => ?_
    exact if_pos happlied
  · exact hstm.congr fun t => if_neg happlied

theorem appends_stampBirth : Appends (stampBirth host ev) s := by
  cases hinfo : s.dwarfInfo with
  | none => exact .quiet fun t => by simp [stampBirth, hinfo]
  | some info =>
      cases hdelta : s.relocationDelta with
      | none => exact .quiet fun t => by simp [stampBirth, hinfo, hdelta]
      | some delta =>
          let pcs := callerPcs ev info delta (s.framesOf ev.threadId)
          cases hresolve : info.allocOracle.resolve (size ev) pcs with
          | none =>
              refine .quiet fun t => ?_
              simp only [stampBirth, dwarfInfo_withTopo, relocationDelta_withTopo,
                framesOf_withTopo, hinfo, hdelta, hresolve, pcs]
          | some ti =>
              let info' := info.ensureType host.deep ti.name
              have hload : Appends (fun x => { x with dwarfInfo := some info' }) s :=
                .quiet fun _ => rfl
              refine (hload.comp (appends_stampBlock host ev _ (sourceName pcs)
                info'.typeRegistry (birthType host info' ti))).congr fun t => ?_
              simp only [stampBirth, dwarfInfo_withTopo, relocationDelta_withTopo,
                framesOf_withTopo, hinfo, hdelta, hresolve, pcs, info']

end Alloc

theorem appends_processFree : Appends (processFree ev) s := by
  let untrack (x : State) : State :=
    { x with world := { x.world with heapAllocs := (x.world.heapAllocs.onFree ev.addr).1 } }
  have huntrack : Appends untrack s := .quiet fun _ => rfl
  have hpurge (size : UInt64) (x : State) : Appends (Free.purge ev.addr size) x :=
    .quiet fun _ => rfl
  have hclose (size : UInt64) := (huntrack.comp
    (Alloc.appends_closeEpoch ev _ size .free .free)).comp (hpurge size _)
  cases hold : (s.world.heapAllocs.onFree ev.addr).2 with
  | some oldSize =>
      refine ((hclose oldSize).comp
        (.emit (.free (seqOf ev) ev.threadId ev.addr oldSize))).congr fun t => ?_
      simp only [processFree, world_withTopo, hold]
      rfl
  | none =>
      cases hp : s.world.stm.lookup ev.addr with
      | some p =>
          refine (hclose p.typeInfo.byteSize).congr fun t => ?_
          simp only [processFree, world_withTopo, hold, hp]
          rfl
      | none =>
          refine huntrack.congr fun t => ?_
          simp only [processFree, world_withTopo, hold, hp]
          rfl

end Blocks

section Events
variable (host : Host) (ev : Event) (s : State)

theorem appends_processCall : Appends (processCall host ev) s := by
  let arrived := Call.arrived ev s
  refine .quiet fun t => ?_
  rw [processCall_eq, processCall_eq,
    show Call.arrived ev (s.withTopo t) = (Call.arrived ev s).withTopo t from rfl, callee_withTopo]
  cases (Call.arrived ev s).callee ev.addr with
  | none => rfl
  | some f => rfl

theorem appends_processReturn : Appends (processReturn ev) s := by
  have hretire (fid : FrameId) (x : State) (t : Topology) :
      retireFrame fid (x.withTopo t) = (retireFrame fid x).withTopo t := by
    have hqueue : (x.withTopo t).returnedFrames = x.returnedFrames := rfl
    rw [retireFrame, retireFrame, hqueue]
    cases x.returnedFrames ++ [fid] with
    | nil => rfl
    | cons oldest rest =>
        dsimp only
        by_cases hfull : (oldest :: rest).length > 32
        · rw [if_pos hfull, if_pos hfull]
          rfl
        · rw [if_neg hfull, if_neg hfull]
          rfl
  refine .quiet fun t => ?_
  cases hstack : s.threadStacks ev.threadId with
  | none =>
      have hnone : (s.withRegs ev.threadId (returnRegs ev s.dwarfInfo)).threadStacks ev.threadId =
        none := hstack
      simp only [processReturn, dwarfInfo_withTopo, withRegs_withTopo, threadStacks_withTopo, hnone]
  | some stack =>
      have hsome : (s.withRegs ev.threadId (returnRegs ev s.dwarfInfo)).threadStacks ev.threadId =
        some stack := hstack
      simp only [processReturn, dwarfInfo_withTopo, withRegs_withTopo, threadStacks_withTopo, hsome]
      cases stack.popReturn.2 with
      | none => rfl
      | some f =>
          let popped : State := { s.withRegs ev.threadId (returnRegs ev s.dwarfInfo) with
            threadStacks := Function.update s.threadStacks ev.threadId (some stack.popReturn.1)
            addrIndex := s.addrIndex.removeFrame f.frameId }
          exact hretire f.frameId popped t

theorem appends_processModuleLoad : Appends (processModuleLoad host ev) s := by
  cases hdelta : s.relocationDelta with
  | some delta => exact .quiet fun t => by simp [processModuleLoad, hdelta]; rfl
  | none =>
      cases hinfo : s.dwarfInfo with
      | none => exact .quiet fun t => by simp [processModuleLoad, hdelta, hinfo]; rfl
      | some info =>
          refine .quiet fun t => ?_
          simp only [processModuleLoad, relocationDelta_withTopo, dwarfInfo_withTopo, hdelta, hinfo]
          rfl

/-- An event adds the same lines to any stream. -/
theorem appends_processEvent : Appends (processEvent host ev) s := by
  have hcount : Appends countEvent s := .quiet fun _ => rfl
  refine hcount.comp (g := processKind host ev) ?_
  cases hkind : kindOf ev with
  | write => exact (appends_processWrite host ev _).congr fun t => by rw [processKind, hkind]
  | call => exact (appends_processCall host ev _).congr fun t => by rw [processKind, hkind]
  | ret => exact (appends_processReturn ev _).congr fun t => by rw [processKind, hkind]
  | alloc =>
      exact ((Alloc.appends_track ev _).comp (Alloc.appends_stampBirth host ev _)).congr
        fun t => by rw [processKind, hkind, processAlloc]
  | free => exact (appends_processFree ev _).congr fun t => by rw [processKind, hkind]
  | moduleLoad => exact (appends_processModuleLoad host ev _).congr fun t => by rw [processKind, hkind]
  | _ => exact .quiet fun t => by rw [processKind, processKind, hkind] <;> rfl

end Events

section Sessions

namespace Session

def withTopo (t : Topology) (s : Session) : Session := { s with engine := s.engine.withTopo t }

/-- The same of a step of the drain loop. -/
def Appends (f : Session → Session) (s : Session) : Prop :=
  ∃ lines, ∀ t, f (s.withTopo t) = (f s).withTopo (t.emitAll lines)

namespace Appends
variable {f g : Session → Session} {s : Session}

theorem quiet (h : ∀ t, f (s.withTopo t) = (f s).withTopo t) : Appends f s :=
  ⟨[], fun t => by rw [h, Topology.emitAll_nil]⟩

theorem comp (hf : Appends f s) (hg : Appends g (f s)) : Appends (fun s => g (f s)) s := by
  obtain ⟨xs, hxs⟩ := hf
  obtain ⟨ys, hys⟩ := hg
  refine ⟨xs ++ ys, fun t => ?_⟩
  dsimp only
  rw [hxs, hys, Topology.emitAll_emitAll]

theorem congr (hf : Appends f s) (h : ∀ t, g (s.withTopo t) = f (s.withTopo t)) :
    Appends g s := by
  have hself : g s = f s := h s.engine.topo
  obtain ⟨xs, hxs⟩ := hf
  exact ⟨xs, fun t => by rw [h, hxs, hself]⟩

theorem emit (l : Line) : Appends (Session.emit l) s := ⟨[l], fun _ => rfl⟩

/-- A step of the engine alone. -/
theorem engine {f : State → State} {s : Session} (hf : State.Appends f s.engine) :
    Appends (fun s => { s with engine := f s.engine }) s := by
  obtain ⟨lines, hlines⟩ := hf
  refine ⟨lines, fun t => ?_⟩
  dsimp only [Session.withTopo]
  rw [hlines]

theorem foldl {α : Type} {step : Session → α → Session}
    (hstep : ∀ x s, Appends (fun s => step s x) s) (xs : List α) :
    ∀ s, Appends (fun s => xs.foldl step s) s := by
  induction xs with
  | nil => exact fun s => .quiet fun _ => rfl
  | cons x xs ih => exact fun s => (hstep x s).comp (ih (step s x))

end Appends

theorem appends_track (ev : Event) (s : Session) : Appends (track ev) s := by
  have hadvance : Appends (fun s => { s with seq := s.seq.track ev }) s := .quiet fun _ => rfl
  cases hgap : (if ev.isContinuation then none
      else s.seq.gapAt ev.threadId (seqDomain ev.kind) ev.seq32) with
  | none =>
      refine hadvance.congr fun t => ?_
      have hgap' : (if ev.isContinuation then none else (s.withTopo t).seq.gapAt ev.threadId
        (seqDomain ev.kind) ev.seq32) = none := hgap
      simp only [track, hgap']
  | some g =>
      refine (hadvance.comp (.emit (.seqGap s.total g.threadId g.expected g.actual))).congr
        fun t => ?_
      have hgap' : (if ev.isContinuation then none else (s.withTopo t).seq.gapAt ev.threadId
        (seqDomain ev.kind) ev.seq32) = some g := hgap
      simp only [track, hgap']
      rfl

theorem appends_applySnapshot (header : Event) (cont : List Event) (s : Session) :
    Appends (applySnapshot header cont) s := by
  refine .quiet fun t => ?_
  rw [applySnapshot, applySnapshot]
  split <;> rfl

theorem appends_handle (host : Host) (ev : Event) (s : Session) : Appends (handle host ev) s := by
  have hevent : Appends (fun s => { s with engine := processEvent host ev s.engine }) s :=
    .engine (appends_processEvent host ev s.engine)
  have hfork (s : Session) : Appends (fork ev) s := by
    by_cases hkind : ev.kind = EVENT_PROCESS_FORK
    · have hregister : Appends (fun s => { s with
          children := s.children.registerFork ev.addr.toUInt32 }) s := .quiet fun _ => rfl
      refine (hregister.comp (.emit (.processFork s.total ev.addr.toUInt32
        ev.value.toUInt32))).congr fun t => ?_
      rw [fork, if_pos hkind]
      rfl
    · exact .quiet fun t => by rw [fork, fork, if_neg hkind, if_neg hkind]
  have hcross (s : Session) : Appends (crossWrite ev) s := by
    by_cases hkind : ev.kind = EVENT_WRITE ∧ s.children.children.length > 0
    · cases hregion : s.children.sharedRegion ev.addr with
      | none =>
          refine .quiet fun t => ?_
          have hregion' : (s.withTopo t).children.sharedRegion ev.addr = none := hregion
          simp only [crossWrite, hregion, hregion', ite_self]
      | some region =>
          refine (Appends.emit (.crossProcessWrite s.total ev.threadId ev.addr ev.size
            region)).congr fun t => ?_
          have hregion' : (s.withTopo t).children.sharedRegion ev.addr = some region := hregion
          have hkind' : ev.kind = EVENT_WRITE ∧ (s.withTopo t).children.children.length > 0 := hkind
          rw [crossWrite, if_pos hkind', hregion']
          rfl
    · refine .quiet fun t => ?_
      have hkind' : ¬ (ev.kind = EVENT_WRITE ∧ (s.withTopo t).children.children.length > 0) := hkind
      rw [crossWrite, crossWrite, if_neg hkind, if_neg hkind']
  exact ((hevent.comp (hfork _)).comp (hcross _)).comp
    (g := fun s => { record [ev] s with needFinalize := s.needFinalize || ev.kind == EVENT_CALL })
    (.quiet fun _ => rfl)

theorem appends_rootPiece (p : Piece) (s : Session) : Appends (rootPiece · p) s := by
  have hcount (n : ℕ) (s : Session) : Appends (count n) s := .quiet fun _ => rfl
  have hrecord (header : Event) (s : Session) : Appends (recordSnapshot header) s :=
    .quiet fun _ => rfl
  cases p with
  | event host ev =>
      exact ((hcount 1 s).comp (appends_track ev _)).comp (appends_handle host ev _)
  | snapshot header cont =>
      exact (((appends_applySnapshot header cont s).comp (hrecord header _)).comp
        (appends_track header _)).comp (hcount _ _)

theorem appends_childPiece (p : Piece) (s : Session) : Appends (childPiece · p) s := by
  have hcount (n : ℕ) (s : Session) : Appends (count n) s := .quiet fun _ => rfl
  have hrecord (header : Event) (s : Session) : Appends (recordSnapshot header) s :=
    .quiet fun _ => rfl
  cases p with
  | event host ev => exact (hcount 1 s).comp (appends_handle host ev _)
  | snapshot header cont =>
      exact ((appends_applySnapshot header cont s).comp (hrecord header _)).comp (hcount _ _)

theorem appends_tick (noBb : Bool) (orders : IndexOrders) (passes : List Pass) (s : Session) :
    Appends (tick noBb orders passes) s := by
  have hpass (p : Pass) (s : Session) : Appends (fun s => drainPass noBb s p) s :=
    (Appends.foldl appends_rootPiece (pieces noBb 0 p.root) s).comp
      (Appends.foldl appends_childPiece (pieces noBb 0 p.children) _)
  have hreset : Appends (fun s => { s with needFinalize := false }) s := .quiet fun _ => rfl
  have hfinalize (s : Session) : Appends (fun s => if s.needFinalize then { s with
      engine := { s.engine with addrIndex := s.engine.addrIndex.finalize orders } } else s) s := by
    cases hneed : s.needFinalize with
    | true => exact .quiet fun t => by simp only [withTopo, hneed, if_true]; rfl
    | false => exact .quiet fun t => by simp [withTopo, hneed]
  exact (hreset.comp (Appends.foldl hpass passes _)).comp (hfinalize _)

theorem appends_finalSweep (noBb : Bool) (buf : List Slot) (s : Session) :
    Appends (finalSweep noBb · buf) s := by
  have hsweep (x : Slot) (s : Session) : Appends (sweepEvent noBb · x) s := by
    cases hskip : noBb && x.2.kind == EVENT_BB_ENTRY with
    | true => exact .quiet fun t => by simp only [sweepEvent, hskip, if_true]
    | false =>
        have hcount : Appends (count 1) s := .quiet fun _ => rfl
        refine ((hcount.comp (.engine (appends_processEvent x.1 x.2 _))).comp
          (g := record [x.2]) (.quiet fun _ => rfl)).congr fun t => ?_
        simp only [sweepEvent, hskip, Bool.false_eq_true, if_false]
  exact Appends.foldl hsweep buf s

/-- What the main loop does with the engine: the passes of a tick, the merge of the
libraries, the aging of the cache lines, and the sweep at exit. -/
inductive LiveStep where
  | tick (passes : List Pass)
  | libraries (host : Host) (modtab : List Module)
  | age
  | sweep (buf : List Slot)

def live (noBb : Bool) (orders : IndexOrders) (s : Session) : LiveStep → Session
  | .tick passes => tick noBb orders passes s
  | .libraries host modtab => { s with engine := (populateLibGlobals host modtab s.engine).1 }
  | .age =>
      if s.total % 0x1000 = 0 then
        { s with engine := { s.engine with
          world := { s.engine.world with clTracker := s.engine.world.clTracker.tick } } }
      else s
  | .sweep buf => finalSweep noBb s buf

theorem appends_live (noBb : Bool) (orders : IndexOrders) (l : LiveStep) (s : Session) :
    Appends (fun s => live noBb orders s l) s := by
  cases l with
  | tick passes => exact appends_tick noBb orders passes s
  | sweep buf => exact appends_finalSweep noBb buf s
  | age =>
      by_cases hage : s.total % 0x1000 = 0
      · refine .quiet fun t => ?_
        have hage' : (s.withTopo t).total % 0x1000 = 0 := hage
        rw [live, live, if_pos hage, if_pos hage']
        rfl
      · refine .quiet fun t => ?_
        have hage' : ¬ (s.withTopo t).total % 0x1000 = 0 := hage
        rw [live, live, if_neg hage, if_neg hage']
  | libraries host modtab =>
      refine .engine (f := fun s => (populateLibGlobals host modtab s).1) (.quiet fun t => ?_)
      cases hinfo : s.engine.dwarfInfo with
      | none => simp only [populateLibGlobals, dwarfInfo_withTopo, hinfo]
      | some info =>
          simp only [populateLibGlobals, dwarfInfo_withTopo, hinfo]
          cases modtab.isEmpty with
          | true => rfl
          | false =>
              cases info.libGlobals.mapM (libDelta modtab) with
              | none => rfl
              | some deltas => rfl

/-- A session that writes the stream ends as one without it, and as one that starts with
another stream; each stream grows by the same lines. -/
theorem foldl_live_withTopo (noBb : Bool) (orders : IndexOrders) (ls : List LiveStep)
    (s : Session) : ∃ lines, ∀ t, ls.foldl (live noBb orders) (s.withTopo t) =
      (ls.foldl (live noBb orders) s).withTopo (t.emitAll lines) :=
  Appends.foldl (appends_live noBb orders) ls s

end Session
end Sessions

end Rtmap.Engine
