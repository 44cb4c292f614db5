import Rtmap.Engine.RegistryGrowth
import Rtmap.Engine.Steps
import Rtmap.Engine.TypeLookups

/-!
# Events under the types of the end

The registry grows while a recording is replayed. An event that looks up nothing but what
stays as it is does the same with the registry it meets and with a registry that this one
grows into.
-/
namespace Rtmap.Engine
open Rtmap.Ring

def DwarfInfo.withTypes (r : Registry) (info : DwarfInfo) : DwarfInfo :=
  { info with typeRegistry := r }

namespace State

/-- The registry, which is empty without DWARF data. -/
def types (s : State) : Registry := (s.dwarfInfo.map DwarfInfo.typeRegistry).getD fun _ => none

/-- The state with another registry in its DWARF data. -/
def withTypes (r : Registry) (s : State) : State :=
  { s with dwarfInfo := s.dwarfInfo.map (DwarfInfo.withTypes r) }

end State

theorem types_of_dwarfInfo {s t : State} (h : t.dwarfInfo = s.dwarfInfo) : t.types = s.types := by
  unfold State.types
  rw [h]

theorem types_of_some {t : State} {info : DwarfInfo} (h : t.dwarfInfo = some info) :
    t.types = info.typeRegistry := by
  unfold State.types
  rw [h]
  rfl

/-- The names that `patch_shallow_fields` looks up for a type. -/
inductive Patched (r : Registry) : TypeInfo → String → Prop
  | shallow {ti : TypeInfo} {f : FieldInfo} :
      f ∈ ti.fields → f.typeInfo.shallow = true → Patched r ti f.typeInfo.name
  | field {ti : TypeInfo} {f : FieldInfo} {n : String} :
      f ∈ ti.fields → Patched r f.typeInfo n → Patched r ti n
  | replaced {ti full : TypeInfo} {f : FieldInfo} {n : String} :
      f ∈ ti.fields → f.typeInfo.shallow = true → r f.typeInfo.name = some full →
        Patched r full n → Patched r ti n

def patchAnswers (r : Registry) (ti : TypeInfo) : Answers := {x | Patched r ti x.1 ∧ x.2 = r x.1}

/-- A patch depends on what it looks up. -/
def PatchReads (patch : Registry → TypeInfo → TypeInfo) : Prop :=
  ∀ (r r' : Registry) (ti : TypeInfo), r'.Gives (patchAnswers r ti) → patch r' ti = patch r ti

section Answers
variable (host : Host) (ev : Event)

namespace Write

def deepenAnswers (info : DwarfInfo) (s : State) : Answers :=
  let info := ensured host ev info s
  let s := upgrade ev info s
  ShadowTypeMap.scanAnswers (s.scanSource host info.typeRegistry) s.world.stm (writeValue ev) (seqOf ev)

def propagateAnswers (s : State) : Answers :=
  match s.dwarfInfo with
  | none => ∅
  | some info =>
      let r := s.world.stm.propagateFieldWrite ev.addr (writeValue ev) ev.size (seqOf ev)
        info.typeRegistry s.world.heapAllocs
      ShadowTypeMap.writeAnswers info.typeRegistry s.world.heapAllocs s.world.stm ev.addr
          (writeValue ev) ev.size ∪
        if r.2 then deepenAnswers host ev info (s.withStm fun _ => r.1) else ∅

def heapAnswers (s : State) : Answers :=
  if s.heapOracle.isHeap ev.addr then propagateAnswers host ev (fields ev (graph ev s)) else ∅

def spreadAnswers (registry : Registry) (addr : UInt64) (seq : ℕ) (s : State) : Answers :=
  ShadowTypeMap.replayAnswers registry s.world.heapAllocs s.world.stm ∪
    ShadowTypeMap.scanAnswers (s.scanSource host registry)
      (s.world.stm.replayDeferred registry s.world.heapAllocs) addr seq

def stampVariableAnswers (name : String) (registry : Registry) (pointee : TypeInfo) (s : State) :
    Answers :=
  let r := s.world.stm.stampType ev.value pointee name (seqOf ev)
  let s := report ev pointee.name name r.2 (s.withStm fun _ => r.1)
  if r.2.applied then spreadAnswers host registry ev.value (seqOf ev) s else ∅

def stampPointeeAnswers (name typeName : String) (s : State) : Answers :=
  match s.dwarfInfo with
  | none => ∅
  | some info =>
      let info := pointeeInfo host typeName info
      let s := { s with dwarfInfo := some info }
      match info.typeRegistry ((stripPointer typeName).getD "") with
      | none => ∅
      | some ti =>
          patchAnswers info.typeRegistry ti ∪
            stampVariableAnswers host ev name info.typeRegistry (host.patch info.typeRegistry ti) s

def nodeAnswers (s : State) : Answers :=
  let r := s.addrIndex.lookup host.orders ev.addr
  let s := { s with addrIndex := r.1 }
  match r.2 with
  | none => ∅
  | some h =>
      let s := edge host ev h (value ev h s)
      if (h.typeInfo.isPointer && ev.size == 8) = true ∧ ev.value ≠ 0 ∧
          s.heapOracle.isHeap ev.value = true then
        stampPointeeAnswers host ev h.name h.typeInfo.name s
      else ∅

end Write

def stampBirthAnswers (s : State) : Answers :=
  match s.dwarfInfo, s.relocationDelta with
  | some info, some delta =>
      let pcs := Alloc.callerPcs ev info delta (s.framesOf ev.threadId)
      match info.allocOracle.resolve (Alloc.size ev) pcs with
      | none => ∅
      | some ti =>
          let info := info.ensureType host.deep ti.name
          let s := { s with dwarfInfo := some info }
          let full := (info.typeRegistry ti.name).getD ti
          let r := s.world.stm.stampType ev.addr (host.patch info.typeRegistry full)
            (Alloc.sourceName pcs) (seqOf ev)
          patchAnswers info.typeRegistry full ∪
            if r.2.applied then
              Write.spreadAnswers host info.typeRegistry ev.addr (seqOf ev) (s.withStm fun _ => r.1)
            else ∅
  | _, _ => ∅

/-- What an event looks up in the registry, beside the names it demands. -/
def eventAnswers (s : State) : Answers :=
  match kindOf ev with
  | .write =>
      let s := Write.registered ev (countEvent s)
      Write.heapAnswers host ev s ∪ Write.nodeAnswers host ev (Write.heap host ev s)
  | .alloc => stampBirthAnswers host ev (Alloc.track ev (countEvent s))
  | _ => ∅

end Answers

section Reads
variable (r : Registry) (s : State)

theorem world_withTypes : (s.withTypes r).world = s.world := rfl
theorem addrIndex_withTypes : (s.withTypes r).addrIndex = s.addrIndex := rfl
theorem heapOracle_withTypes : (s.withTypes r).heapOracle = s.heapOracle := rfl
theorem relocationDelta_withTypes : (s.withTypes r).relocationDelta = s.relocationDelta := rfl
theorem dwarfInfo_withTypes :
    (s.withTypes r).dwarfInfo = s.dwarfInfo.map (DwarfInfo.withTypes r) := rfl
theorem emit_withTypes (l : Line) : (s.withTypes r).emit l = (s.emit l).withTypes r := rfl
theorem withStm_withTypes (f : ShadowTypeMap → ShadowTypeMap) :
    (s.withTypes r).withStm f = (s.withStm f).withTypes r := rfl

end Reads

namespace Write
variable (host : Host) (ev : Event) (r : Registry) (s : State)

theorem registered_withTypes : registered ev (s.withTypes r) = (registered ev s).withTypes r := by
  have hobserve (t : State) : observe ev (t.withTypes r) = (observe ev t).withTypes r := by
    unfold observe
    rw [dwarfInfo_withTypes]
    cases t.dwarfInfo with
    | none => rfl
    | some info =>
        have hfunc (pc : UInt64) :
            (info.withTypes r).funcContaining pc = info.funcContaining pc := rfl
        dsimp only [Option.map_some, addrIndex_withTypes]
        by_cases hin : (!ev.isContinuation && t.addrIndex.inUniverse ev.addr) = true
        · simp only [hin, if_true, hfunc]
          rfl
        · simp only [hin]
          rfl
  have hcohere (writers : UInt16) (t : State) :
      cohere ev writers (t.withTypes r) = (cohere ev writers t).withTypes r := by
    unfold cohere
    split <;> rfl
  show cohere ev _ (observe ev ((recordLine ev s).1.withTypes r)) = _
  rw [hobserve, hcohere]
  rfl

theorem fields_withTypes : fields ev (s.withTypes r) = (fields ev s).withTypes r := by
  have hlast (t : State) :
      emitLastViolation ev (t.withTypes r) = (emitLastViolation ev t).withTypes r := by
    dsimp only [emitLastViolation, world_withTypes]
    split <;> rfl
  have hcheck (p : TypeProjection) (t : State) :
      checkFields ev p (t.withTypes r) = (checkFields ev p t).withTypes r := by
    rw [checkFields, checkFields]
    split
    · rename_i v _
      exact hlast { t with world := t.world.recordViolation v }
    · rfl
  have hlink (p : TypeProjection) (t : State) :
      linkField ev p (t.withTypes r) = (linkField ev p t).withTypes r := by
    rw [linkField, linkField]
    split
    · split <;> rfl
    · rfl
  dsimp only [fields, world_withTypes]
  split
  · rfl
  · rw [hcheck, hlink]

theorem emitStamp_withTypes (seq : ℕ) (addr : UInt64) :
    emitStamp seq addr (s.withTypes r) = (emitStamp seq addr s).withTypes r := by
  dsimp only [emitStamp, world_withTypes]
  split <;> rfl

theorem bounds_withTypes : bounds ev (s.withTypes r) = (bounds ev s).withTypes r := by
  unfold bounds
  rw [world_withTypes]
  by_cases hroom : s.world.hazards.length < 64
  · rw [if_pos hroom, if_pos hroom]
    cases s.world.heapAllocs.checkWriteBounds ev.addr ev.size s.world.stm with
    | none => rfl
    | some h =>
        dsimp only
        by_cases hold : (inGrace s.world h ||
            s.world.hazards.any fun prev => prev.writeAddr == h.writeAddr) = true
        · rw [if_pos hold, if_pos hold]
        · rw [if_neg hold, if_neg hold]
          rfl
  · rw [if_neg hroom, if_neg hroom]

theorem report_withTypes (newType newSource : String) (q : StampResult) :
    report ev newType newSource q (s.withTypes r) = (report ev newType newSource q s).withTypes r := by
  have hlog (old : OldStamp) (t : State) :
      logSchism ev old (t.withTypes r) = (logSchism ev old t).withTypes r := by
    dsimp only [logSchism, world_withTypes]
    split <;> rfl
  cases q <;> simp only [report, closeSchism, hlog, emit_withTypes]

variable {host ev r s} {D : String → Option TypeInfo}

/-- The entries of the complete name of the projection, and its upgrade. -/
theorem upgrade_withTypes {info : DwarfInfo} (h : ∀ p, s.world.stm.lookup (writeValue ev) = some p →
    r p.typeInfo.name = info.typeRegistry p.typeInfo.name) :
    upgrade ev (info.withTypes r) (s.withTypes r) = (upgrade ev info s).withTypes r := by
  unfold upgrade
  rw [world_withTypes]
  cases hp : s.world.stm.lookup (writeValue ev) with
  | none => rfl
  | some p =>
      dsimp only [DwarfInfo.withTypes]
      rw [h p hp]
      cases info.typeRegistry p.typeInfo.name with
      | none => rfl
      | some deep =>
          dsimp only
          split <;> rfl

theorem deepen_withTypes {info : DwarfInfo} (hdeep : ∀ r n, host.deep r n = D n)
    (hgrows : (ensured host ev info s).typeRegistry.Grows D r)
    (hgives : r.Gives (deepenAnswers host ev info s)) :
    deepen host ev (info.withTypes r) (s.withTypes r) = (deepen host ev info s).withTypes r := by
  have hensured : ensured host ev (info.withTypes r) (s.withTypes r) =
      (ensured host ev info s).withTypes r := by
    unfold ensured at hgrows ⊢
    rw [world_withTypes]
    cases hp : s.world.stm.lookup (writeValue ev) with
    | none => rfl
    | some p =>
        rw [hp] at hgrows
        have hcomplete := (DwarfInfo.complete_ensureType hdeep info p.typeInfo.name).grows hgrows
        exact DwarfInfo.ensureType_of_complete hdeep
          (show Registry.Complete D (info.withTypes r).typeRegistry _ from hcomplete)
  have hupgrade : upgrade ev ((ensured host ev info s).withTypes r) (s.withTypes r) =
      (upgrade ev (ensured host ev info s) s).withTypes r := by
    apply upgrade_withTypes
    intro p hp
    unfold ensured at hgrows ⊢
    rw [hp] at hgrows ⊢
    exact (DwarfInfo.complete_ensureType hdeep info p.typeInfo.name).entry_eq hgrows
  unfold deepen
  rw [hensured]
  dsimp only
  rw [hupgrade]
  unfold deepenAnswers at hgives
  have hscan := ShadowTypeMap.retrospectiveScan_of_gives hgives
  set u := upgrade ev (ensured host ev info s) s with hu
  have hmap : (u.withTypes r).withStm (fun m => m.retrospectiveScan
      ((u.withTypes r).scanSource host ((ensured host ev info s).withTypes r).typeRegistry)
        (writeValue ev) (seqOf ev)) = (u.withStm fun m => m.retrospectiveScan
      (u.scanSource host (ensured host ev info s).typeRegistry) (writeValue ev) (seqOf ev)).withTypes r := by
    rw [withStm_withTypes]
    congr 1
    show ({ u with world := { u.world with stm := _ } } : State) =
      { u with world := { u.world with stm := _ } }
    exact congrArg (fun m => ({ u with world := { u.world with stm := m } } : State)) hscan
  rw [hmap, ← emitStamp_withTypes]
  rfl

/-- The DWARF data after a propagated write. -/
theorem types_propagate (info : DwarfInfo) (hinfo : s.dwarfInfo = some info) :
    let q := s.world.stm.propagateFieldWrite ev.addr (writeValue ev) ev.size (seqOf ev)
      info.typeRegistry s.world.heapAllocs
    (propagate host ev s).types =
      if q.2 then (ensured host ev info (s.withStm fun _ => q.1)).typeRegistry else info.typeRegistry := by
  intro q
  have hemit (seq : ℕ) (addr : UInt64) (t : State) :
      (emitStamp seq addr t).dwarfInfo = t.dwarfInfo := by
    unfold emitStamp
    split <;> rfl
  unfold propagate
  rw [hinfo]
  dsimp only
  by_cases hq : q.2 = true
  · rw [if_pos hq, if_pos hq]
    unfold State.types deepen
    rw [hemit]
    rfl
  · rw [if_neg hq, if_neg hq]
    split <;> exact types_of_some hinfo

theorem propagate_withTypes (hdeep : ∀ r n, host.deep r n = D n)
    (hgrows : (propagate host ev s).types.Grows D r) (hgives : r.Gives (propagateAnswers host ev s)) :
    propagate host ev (s.withTypes r) = (propagate host ev s).withTypes r := by
  cases hinfo : s.dwarfInfo with
  | none =>
      have hnone : (s.withTypes r).dwarfInfo = none := by rw [dwarfInfo_withTypes, hinfo]; rfl
      unfold propagate
      rw [hnone, hinfo]
  | some info =>
      rw [types_propagate info hinfo] at hgrows
      have hsome : (s.withTypes r).dwarfInfo = some (info.withTypes r) := by
        rw [dwarfInfo_withTypes, hinfo]
        rfl
      unfold propagateAnswers at hgives
      rw [hinfo] at hgives
      dsimp only at hgives
      rw [Registry.gives_union] at hgives
      have hwrite : s.world.stm.propagateFieldWrite ev.addr (writeValue ev) ev.size (seqOf ev) r
          s.world.heapAllocs = _ := ShadowTypeMap.propagateFieldWrite_of_gives hgives.1
      unfold propagate
      rw [hsome, hinfo]
      dsimp only [world_withTypes]
      rw [show (info.withTypes r).typeRegistry = r from rfl, hwrite]
      set q := s.world.stm.propagateFieldWrite ev.addr (writeValue ev) ev.size (seqOf ev)
        info.typeRegistry s.world.heapAllocs with hq
      by_cases hstamped : q.2 = true
      · rw [if_pos hstamped] at hgrows
        rw [if_pos hstamped, if_pos hstamped, withStm_withTypes]
        apply deepen_withTypes hdeep hgrows
        have hrest := hgives.2
        rwa [if_pos hstamped] at hrest
      · rw [if_neg hstamped, if_neg hstamped]
        have hdefers : defers ev ((s.withTypes r).withStm fun _ => q.1) =
            defers ev (s.withStm fun _ => q.1) := rfl
        rw [hdefers]
        split <;> rfl

theorem types_bounds (t : State) : (bounds ev t).types = t.types := by
  obtain ⟨hs, topo, h⟩ := bounds_eq ev t
  rw [h]
  rfl

theorem dwarfInfo_fields (t : State) : (fields ev t).dwarfInfo = t.dwarfInfo := by
  obtain ⟨vs, topo, h⟩ := fields_eq ev t
  rw [h]

theorem heap_withTypes (hdeep : ∀ r n, host.deep r n = D n)
    (hgrows : (heap host ev s).types.Grows D r) (hgives : r.Gives (heapAnswers host ev s)) :
    heap host ev (s.withTypes r) = (heap host ev s).withTypes r := by
  unfold heapAnswers at hgives
  unfold heap at hgrows ⊢
  rw [heapOracle_withTypes]
  by_cases hheap : s.heapOracle.isHeap ev.addr = true
  · rw [if_pos hheap] at hgrows hgives
    rw [types_bounds] at hgrows
    rw [if_pos hheap, if_pos hheap, show graph ev (s.withTypes r) = (graph ev s).withTypes r from rfl,
      fields_withTypes, propagate_withTypes hdeep hgrows hgives, bounds_withTypes]
  · rw [if_neg hheap, if_neg hheap]

theorem spread_withTypes {registry : Registry} {addr : UInt64} {seq : ℕ}
    (hgives : r.Gives (spreadAnswers host registry addr seq s)) :
    spread host r addr seq (s.withTypes r) = (spread host registry addr seq s).withTypes r := by
  unfold spreadAnswers at hgives
  rw [Registry.gives_union] at hgives
  have hreplay := ShadowTypeMap.replayDeferred_of_gives hgives.1
  have hscan := ShadowTypeMap.retrospectiveScan_of_gives hgives.2
  have hstm : (s.world.stm.replayDeferred r s.world.heapAllocs).retrospectiveScan
      (s.scanSource host r) addr seq =
        (s.world.stm.replayDeferred registry s.world.heapAllocs).retrospectiveScan
          (s.scanSource host registry) addr seq := by
    rw [hreplay]
    exact hscan
  exact congrArg (fun m => ({ s with world := { s.world with stm := m } } : State).withTypes r) hstm

theorem dwarfInfo_report (newType newSource : String) (q : StampResult) (t : State) :
    (report ev newType newSource q t).dwarfInfo = t.dwarfInfo := by
  have hlog (old : OldStamp) (t : State) : (logSchism ev old t).dwarfInfo = t.dwarfInfo := by
    unfold logSchism
    split <;> rfl
  cases q <;> first | rfl | exact hlog _ t

theorem stampVariable_withTypes {name : String} {registry : Registry} {pointee : TypeInfo}
    (hgives : r.Gives (stampVariableAnswers host ev name registry pointee s)) :
    stampVariable host ev name r pointee (s.withTypes r) =
      (stampVariable host ev name registry pointee s).withTypes r := by
  unfold stampVariableAnswers at hgives
  unfold stampVariable
  rw [world_withTypes]
  set q := s.world.stm.stampType ev.value pointee name (seqOf ev) with hq
  dsimp only at hgives ⊢
  rw [withStm_withTypes, report_withTypes]
  by_cases happlied : q.2.applied = true
  · rw [if_pos happlied] at hgives
    rw [if_pos happlied, if_pos happlied, spread_withTypes hgives, emit_withTypes]
  · rw [if_neg happlied, if_neg happlied]

theorem dwarfInfo_stampVariable (name : String) (registry : Registry) (pointee : TypeInfo) :
    (stampVariable host ev name registry pointee s).dwarfInfo = s.dwarfInfo := by
  unfold stampVariable
  dsimp only
  split
  · exact dwarfInfo_report _ _ _ _
  · exact dwarfInfo_report _ _ _ _

theorem types_stampPointee {name typeName : String} {info : DwarfInfo}
    (hinfo : s.dwarfInfo = some info) : (stampPointee host ev name typeName s).types =
      (pointeeInfo host typeName info).typeRegistry := by
  unfold stampPointee
  rw [hinfo]
  dsimp only
  split
  · unfold State.types
    rw [dwarfInfo_stampVariable]
    rfl
  · rfl

theorem stampPointee_withTypes {name typeName : String} (hdeep : ∀ r n, host.deep r n = D n)
    (hpatch : PatchReads host.patch) (hgrows : (stampPointee host ev name typeName s).types.Grows D r)
    (hgives : r.Gives (stampPointeeAnswers host ev name typeName s)) :
    stampPointee host ev name typeName (s.withTypes r) =
      (stampPointee host ev name typeName s).withTypes r := by
  cases hinfo : s.dwarfInfo with
  | none =>
      have hnone : (s.withTypes r).dwarfInfo = none := by rw [dwarfInfo_withTypes, hinfo]; rfl
      unfold stampPointee
      rw [hnone, hinfo]
  | some info =>
      rw [types_stampPointee hinfo] at hgrows
      have hsome : (s.withTypes r).dwarfInfo = some (info.withTypes r) := by
        rw [dwarfInfo_withTypes, hinfo]
        rfl
      have hcomplete := DwarfInfo.complete_ensureType hdeep info ((stripPointer typeName).getD "")
      have hpointee : pointeeInfo host typeName (info.withTypes r) =
          (pointeeInfo host typeName info).withTypes r :=
        DwarfInfo.ensureType_of_complete hdeep
          (show Registry.Complete D (info.withTypes r).typeRegistry _ from hcomplete.grows hgrows)
      have hentry : r ((stripPointer typeName).getD "") =
          (pointeeInfo host typeName info).typeRegistry ((stripPointer typeName).getD "") :=
        hcomplete.entry_eq hgrows
      unfold stampPointeeAnswers at hgives
      rw [hinfo] at hgives
      unfold stampPointee pointeeType
      rw [hsome, hinfo]
      dsimp only at hgives ⊢
      rw [hpointee, show ((pointeeInfo host typeName info).withTypes r).typeRegistry = r from rfl, hentry]
      cases hti : (pointeeInfo host typeName info).typeRegistry ((stripPointer typeName).getD "") with
      | none => rfl
      | some ti =>
          rw [hti] at hgives
          dsimp only at hgives
          rw [Registry.gives_union] at hgives
          rw [Option.map_some, Option.map_some, hpatch _ _ _ hgives.1]
          exact stampVariable_withTypes (s := { s with
            dwarfInfo := some (pointeeInfo host typeName info) }) hgives.2

theorem node_withTypes (hdeep : ∀ r n, host.deep r n = D n) (hpatch : PatchReads host.patch)
    (hgrows : (node host ev s).types.Grows D r) (hgives : r.Gives (nodeAnswers host ev s)) :
    node host ev (s.withTypes r) = (node host ev s).withTypes r := by
  unfold nodeAnswers at hgives
  unfold node at hgrows ⊢
  rw [addrIndex_withTypes]
  set q := s.addrIndex.lookup host.orders ev.addr with hq
  dsimp only at hgives hgrows ⊢
  cases hiv : q.2 with
  | none => rfl
  | some h =>
      rw [hiv] at hgives hgrows
      dsimp only at hgives hgrows ⊢
      by_cases hpointer : (h.typeInfo.isPointer && ev.size == 8) = true
      · rw [if_pos hpointer] at hgrows
        rw [if_pos hpointer, if_pos hpointer]
        unfold pointer at hgrows ⊢
        by_cases hzero : ev.value = 0
        · rw [if_pos hzero, if_pos hzero]
          rfl
        · rw [if_neg hzero] at hgrows
          rw [if_neg hzero, if_neg hzero]
          set t := edge host ev h (value ev h { s with addrIndex := q.1 }) with ht
          have hedge : edge host ev h (value ev h { s.withTypes r with addrIndex := q.1 }) =
            t.withTypes r := rfl
          rw [hedge, heapOracle_withTypes]
          by_cases hheap : t.heapOracle.isHeap ev.value = true
          · rw [if_pos ⟨hpointer, hzero, hheap⟩] at hgives
            rw [if_pos hheap] at hgrows
            rw [if_pos hheap, if_pos hheap, stampPointee_withTypes hdeep hpatch hgrows hgives,
              emit_withTypes]
          · rw [if_neg hheap, if_neg hheap, emit_withTypes]
      · rw [if_neg hpointer, if_neg hpointer]
        rfl

end Write

section Events
variable {host : Host} {ev : Event} {r : Registry} {s : State} {D : String → Option TypeInfo}

theorem closeEpoch_withTypes (oldSize : UInt64) (reason : EpochClose) (line : CloseReason) :
    Alloc.closeEpoch ev oldSize reason line (s.withTypes r) =
      (Alloc.closeEpoch ev oldSize reason line s).withTypes r := by
  dsimp only [Alloc.closeEpoch, world_withTypes]
  split <;> rfl

theorem track_withTypes : Alloc.track ev (s.withTypes r) = (Alloc.track ev s).withTypes r := by
  have hrecord : Alloc.record ev (s.withTypes r) =
      ((Alloc.record ev s).1.withTypes r, (Alloc.record ev s).2) := rfl
  have hrenew (old : Option UInt64) (t : State) :
      Alloc.renew ev old (t.withTypes r) = (Alloc.renew ev old t).withTypes r := by
    cases old with
    | none => rfl
    | some oldSize =>
        unfold Alloc.renew Alloc.retire
        dsimp only
        rw [closeEpoch_withTypes]
        rfl
  unfold Alloc.track
  rw [hrecord]
  dsimp only
  by_cases hsame : (Alloc.record ev s).2 = some (Alloc.size ev)
  · rw [if_pos hsame, if_pos hsame]
  · rw [if_neg hsame, if_neg hsame, hrenew, emit_withTypes]

/-- The DWARF data after a birth stamp. -/
theorem types_stampBirth {info : DwarfInfo} {delta : UInt64} {ti : TypeInfo}
    (hinfo : s.dwarfInfo = some info) (hdelta : s.relocationDelta = some delta)
    (hti : info.allocOracle.resolve (Alloc.size ev)
      (Alloc.callerPcs ev info delta (s.framesOf ev.threadId)) = some ti) :
    (Alloc.stampBirth host ev s).types = (info.ensureType host.deep ti.name).typeRegistry := by
  unfold Alloc.stampBirth
  rw [hinfo, hdelta]
  dsimp only
  rw [hti]
  unfold Alloc.stampBlock
  dsimp only
  split <;> rfl

theorem stampBirth_withTypes (hdeep : ∀ r n, host.deep r n = D n) (hpatch : PatchReads host.patch)
    (hgrows : (Alloc.stampBirth host ev s).types.Grows D r)
    (hgives : r.Gives (stampBirthAnswers host ev s)) :
    Alloc.stampBirth host ev (s.withTypes r) = (Alloc.stampBirth host ev s).withTypes r := by
  cases hinfo : s.dwarfInfo with
  | none =>
      have hnone : (s.withTypes r).dwarfInfo = none := by rw [dwarfInfo_withTypes, hinfo]; rfl
      unfold Alloc.stampBirth
      rw [hnone, hinfo]
  | some info =>
      have hsome : (s.withTypes r).dwarfInfo = some (info.withTypes r) := by
        rw [dwarfInfo_withTypes, hinfo]
        rfl
      cases hdelta : s.relocationDelta with
      | none =>
          unfold Alloc.stampBirth
          rw [hsome, hinfo, relocationDelta_withTypes, hdelta]
      | some delta =>
          have hpcs : Alloc.callerPcs ev (info.withTypes r) delta
              ((s.withTypes r).framesOf ev.threadId) =
                Alloc.callerPcs ev info delta (s.framesOf ev.threadId) := rfl
          have horacle : (info.withTypes r).allocOracle = info.allocOracle := rfl
          set pcs := Alloc.callerPcs ev info delta (s.framesOf ev.threadId) with hpcs'
          cases hti : info.allocOracle.resolve (Alloc.size ev) pcs with
          | none =>
              unfold Alloc.stampBirth
              rw [hsome, hinfo, relocationDelta_withTypes, hdelta]
              dsimp only
              rw [horacle, hpcs, hti]
          | some ti =>
              rw [types_stampBirth hinfo hdelta hti] at hgrows
              have hcomplete := DwarfInfo.complete_ensureType hdeep info ti.name
              have hensured : (info.withTypes r).ensureType host.deep ti.name =
                  (info.ensureType host.deep ti.name).withTypes r :=
                DwarfInfo.ensureType_of_complete hdeep
                  (show Registry.Complete D (info.withTypes r).typeRegistry _ from
                    hcomplete.grows hgrows)
              have hentry := hcomplete.entry_eq hgrows
              set full := (info.ensureType host.deep ti.name) with hfull
              unfold stampBirthAnswers at hgives
              rw [hinfo, hdelta] at hgives
              dsimp only at hgives
              rw [← hpcs', hti] at hgives
              dsimp only at hgives
              rw [← hfull, Registry.gives_union] at hgives
              have hbirth : Alloc.birthType host (full.withTypes r) ti =
                  Alloc.birthType host full ti := by
                unfold Alloc.birthType
                rw [show (full.withTypes r).typeRegistry = r from rfl, hentry]
                exact hpatch _ _ _ hgives.1
              unfold Alloc.stampBirth
              rw [hsome, hinfo, relocationDelta_withTypes, hdelta]
              dsimp only
              rw [horacle, hpcs, hti]
              dsimp only
              rw [hensured, ← hfull, hbirth, show (full.withTypes r).typeRegistry = r from rfl]
              unfold Alloc.stampBlock
              rw [world_withTypes]
              set q := s.world.stm.stampType ev.addr (Alloc.birthType host full ti)
                (Alloc.sourceName pcs) (seqOf ev) with hq
              by_cases happlied : q.2.applied = true
              · have hspread := hgives.2
                have hq' : q = s.world.stm.stampType ev.addr (host.patch full.typeRegistry
                    ((full.typeRegistry ti.name).getD ti)) (Alloc.sourceName pcs) (seqOf ev) := rfl
                rw [← hq', if_pos happlied] at hspread
                have h := Write.spread_withTypes hspread
                dsimp only
                rw [if_pos happlied, if_pos happlied, ← emit_withTypes, ← h]
                rfl
              · dsimp only
                rw [if_neg happlied, if_neg happlied]
                rfl

theorem processCall_withTypes :
    processCall host ev (s.withTypes r) = (processCall host ev s).withTypes r := by
  have hcallee : (Call.arrived ev (s.withTypes r)).callee ev.addr =
      (Call.arrived ev s).callee ev.addr := by
    show ((s.dwarfInfo.map (DwarfInfo.withTypes r)).bind fun info =>
      info.functions.get? ((Call.arrived ev s).elfPc ev.addr)) = s.dwarfInfo.bind fun info =>
        info.functions.get? ((Call.arrived ev s).elfPc ev.addr)
    cases s.dwarfInfo <;> rfl
  rw [processCall_eq, processCall_eq, hcallee]
  cases (Call.arrived ev s).callee ev.addr <;> rfl

theorem processReturn_withTypes :
    processReturn ev (s.withTypes r) = (processReturn ev s).withTypes r := by
  have hregs : returnRegs ev (s.withTypes r).dwarfInfo = returnRegs ev s.dwarfInfo := by
    funext f
    unfold returnRegs
    rw [dwarfInfo_withTypes]
    cases s.dwarfInfo <;> rfl
  have hretire (fid : FrameId) (t : State) :
      retireFrame fid (t.withTypes r) = (retireFrame fid t).withTypes r := by
    unfold retireFrame
    rw [show (t.withTypes r).returnedFrames = t.returnedFrames from rfl]
    dsimp only
    cases t.returnedFrames ++ [fid] with
    | nil => rfl
    | cons oldest rest =>
        dsimp only
        by_cases hfull : (oldest :: rest).length > 32
        · rw [if_pos hfull, if_pos hfull]
          rfl
        · rw [if_neg hfull, if_neg hfull]
          rfl
  unfold processReturn
  rw [hregs]
  dsimp only
  rw [show ((s.withTypes r).withRegs ev.threadId (returnRegs ev s.dwarfInfo)).threadStacks ev.threadId =
    s.threadStacks ev.threadId from rfl, show (s.withRegs ev.threadId
      (returnRegs ev s.dwarfInfo)).threadStacks ev.threadId = s.threadStacks ev.threadId from rfl]
  cases s.threadStacks ev.threadId with
  | none => rfl
  | some stack =>
      dsimp only
      cases stack.popReturn.2 with
      | none => rfl
      | some f =>
          let popped : State := { s.withRegs ev.threadId (returnRegs ev s.dwarfInfo) with
            threadStacks := Function.update s.threadStacks ev.threadId (some stack.popReturn.1)
            addrIndex := s.addrIndex.removeFrame f.frameId }
          exact hretire f.frameId popped

theorem processFree_withTypes :
    processFree ev (s.withTypes r) = (processFree ev s).withTypes r := by
  have hpurge (addr size : UInt64) (t : State) :
      Free.purge addr size (t.withTypes r) = (Free.purge addr size t).withTypes r := rfl
  let untracked : State := { s with world := { s.world with
    heapAllocs := (s.world.heapAllocs.onFree ev.addr).1 } }
  have hclose (oldSize : UInt64) : Alloc.closeEpoch ev oldSize .free .free (untracked.withTypes r) =
      (Alloc.closeEpoch ev oldSize .free .free untracked).withTypes r :=
    closeEpoch_withTypes oldSize .free .free
  dsimp only [processFree, world_withTypes]
  cases (s.world.heapAllocs.onFree ev.addr).2 with
  | some oldSize => exact congrArg (fun t => (Free.purge ev.addr oldSize t).emit _) (hclose oldSize)
  | none =>
      cases hp : s.world.stm.lookup ev.addr with
      | some p => exact congrArg (Free.purge ev.addr p.typeInfo.byteSize) (hclose p.typeInfo.byteSize)
      | none => rfl

theorem processModuleLoad_withTypes :
    processModuleLoad host ev (s.withTypes r) = (processModuleLoad host ev s).withTypes r := by
  obtain ⟨world, addrIndex, dwarfInfo, threadStacks, nextFrameId, relocationDelta, returnedFrames,
    shadowRegs, heapGraph, heapOracle, topo⟩ := s
  cases dwarfInfo <;> cases relocationDelta <;> rfl

section Growth

theorem Write.grows_heap (hdeep : ∀ r n, host.deep r n = D n) :
    s.types.Grows D (Write.heap host ev s).types := by
  unfold Write.heap
  split
  · rw [Write.types_bounds]
    have hbefore : (Write.fields ev (Write.graph ev s)).dwarfInfo = s.dwarfInfo :=
      Write.dwarfInfo_fields _
    set t := Write.fields ev (Write.graph ev s) with ht
    rw [← types_of_dwarfInfo hbefore]
    cases hinfo : t.dwarfInfo with
    | none =>
        unfold Write.propagate
        rw [hinfo]
    | some info =>
        rw [Write.types_propagate info hinfo, types_of_some hinfo]
        split
        · unfold Write.ensured
          split
          · exact DwarfInfo.grows_ensureType hdeep info _
          · rfl
        · rfl
  · rfl

theorem Write.grows_node (hdeep : ∀ r n, host.deep r n = D n) :
    s.types.Grows D (Write.node host ev s).types := by
  have hstamp (name typeName : String) (t : State) :
      t.types.Grows D (Write.stampPointee host ev name typeName t).types := by
    cases hinfo : t.dwarfInfo with
    | none =>
        unfold Write.stampPointee
        rw [hinfo]
    | some info =>
        rw [Write.types_stampPointee hinfo, types_of_some hinfo]
        exact DwarfInfo.grows_ensureType hdeep info _
  unfold Write.node
  dsimp only
  split
  · rfl
  · rename_i h _
    split
    · unfold Write.pointer
      dsimp only
      split
      · rfl
      · split
        · exact hstamp _ _ (Write.edge host ev h
            (Write.value ev h { s with addrIndex := (s.addrIndex.lookup host.orders ev.addr).1 }))
        · rfl
    · rfl

/-- Only writes and allocations demand types. -/
theorem dwarfInfo_processEvent (hwrite : kindOf ev ≠ .write) (halloc : kindOf ev ≠ .alloc) :
    (processEvent host ev s).dwarfInfo = s.dwarfInfo := by
  unfold processEvent processKind
  cases hkind : kindOf ev with
  | write => exact absurd hkind hwrite
  | alloc => exact absurd hkind halloc
  | call =>
      dsimp only
      unfold processCall
      dsimp only
      split <;> rfl
  | ret =>
      dsimp only
      unfold processReturn
      dsimp only
      split
      · rfl
      · split
        · rfl
        · unfold retireFrame
          dsimp only
          split
          · split <;> rfl
          · rfl
  | free =>
      have hclose (oldSize : UInt64) (t : State) :
          (Alloc.closeEpoch ev oldSize .free .free t).dwarfInfo = t.dwarfInfo := by
        unfold Alloc.closeEpoch
        split <;> rfl
      dsimp only
      unfold processFree
      dsimp only
      split
      · exact hclose _ _
      · split
        · exact hclose _ _
        · rfl
  | moduleLoad =>
      dsimp only
      unfold processModuleLoad
      dsimp only
      split <;> rfl
  | _ => rfl

theorem dwarfInfo_registered : (Write.registered ev s).dwarfInfo = s.dwarfInfo := by
  have hobserve (t : State) : (Write.observe ev t).dwarfInfo = t.dwarfInfo := by
    unfold Write.observe
    split
    · rfl
    · split <;> rfl
  unfold Write.registered Write.cohere
  dsimp only
  split <;> exact hobserve _

theorem dwarfInfo_track : (Alloc.track ev s).dwarfInfo = s.dwarfInfo := by
  unfold Alloc.track
  dsimp only
  split
  · rfl
  · unfold Alloc.renew
    split
    · unfold Alloc.retire Alloc.closeEpoch
      dsimp only
      split <;> rfl
    · rfl

/-- The registry grows under an event. -/
theorem grows_processEvent (hdeep : ∀ r n, host.deep r n = D n) :
    s.types.Grows D (processEvent host ev s).types := by
  have hsame {t u : State} (h : u.dwarfInfo = t.dwarfInfo) : t.types.Grows D u.types := by
    rw [types_of_dwarfInfo h]
  by_cases hwrite : kindOf ev = .write
  · unfold processEvent processKind
    rw [hwrite]
    exact (hsame (t := s) (u := Write.registered ev (countEvent s)) dwarfInfo_registered).trans
      ((Write.grows_heap hdeep).trans (Write.grows_node hdeep))
  by_cases halloc : kindOf ev = .alloc
  · unfold processEvent processKind
    rw [halloc]
    have htrack : (Alloc.track ev (countEvent s)).dwarfInfo = s.dwarfInfo := dwarfInfo_track
    refine (hsame htrack).trans ?_
    dsimp only
    unfold processAlloc
    set t := Alloc.track ev (countEvent s) with ht
    cases hinfo : t.dwarfInfo with
    | none =>
        unfold Alloc.stampBirth
        rw [hinfo]
    | some info =>
        cases hdelta : t.relocationDelta with
        | none =>
            unfold Alloc.stampBirth
            rw [hinfo, hdelta]
        | some delta =>
            cases hti : info.allocOracle.resolve (Alloc.size ev)
                (Alloc.callerPcs ev info delta (t.framesOf ev.threadId)) with
            | none =>
                unfold Alloc.stampBirth
                rw [hinfo, hdelta]
                dsimp only
                rw [hti]
            | some ti =>
                rw [types_stampBirth hinfo hdelta hti, types_of_some hinfo]
                exact DwarfInfo.grows_ensureType hdeep info _
  · exact hsame (dwarfInfo_processEvent hwrite halloc)

/-- Of the DWARF data, the registry only changes. -/
theorem dwarfInfo_of_static {t : State} (h : t.dwarfInfo.map DwarfInfo.static =
    s.dwarfInfo.map DwarfInfo.static) : t.dwarfInfo = (s.withTypes t.types).dwarfInfo := by
  rw [dwarfInfo_withTypes]
  unfold State.types
  cases ht : t.dwarfInfo with
  | none =>
      cases hs : s.dwarfInfo with
      | none => rfl
      | some info =>
          rw [ht, hs] at h
          cases h
  | some info' =>
      cases hs : s.dwarfInfo with
      | none =>
          rw [ht, hs] at h
          cases h
      | some info =>
          rw [ht, hs] at h
          have hstatic := congrArg (fun i : DwarfInfo => some (i.withTypes info'.typeRegistry))
            (Option.some.inj h)
          exact hstatic

theorem static_processEvent : (processEvent host ev s).dwarfInfo.map DwarfInfo.static =
    s.dwarfInfo.map DwarfInfo.static := by
  by_cases hwrite : kindOf ev = .write
  · unfold processEvent processKind
    rw [hwrite]
    exact congrArg Kept.dwarf (fixed_processWrite host ev (countEvent s))
  by_cases halloc : kindOf ev = .alloc
  · unfold processEvent processKind
    rw [halloc]
    exact congrArg Kept.dwarf (kept_processAlloc host ev (countEvent s))
  · rw [dwarfInfo_processEvent hwrite halloc]

end Growth

/-- An event does the same with a registry that its own grows into, if that answers alike
what is looked up. -/
theorem processEvent_withTypes (hdeep : ∀ r n, host.deep r n = D n) (hpatch : PatchReads host.patch)
    (hgrows : (processEvent host ev s).types.Grows D r) (hgives : r.Gives (eventAnswers host ev s)) :
    processEvent host ev (s.withTypes r) = (processEvent host ev s).withTypes r := by
  unfold eventAnswers at hgives
  unfold processEvent processKind at hgrows ⊢
  rw [show countEvent (s.withTypes r) = (countEvent s).withTypes r from rfl]
  cases hkind : kindOf ev with
  | write =>
      rw [hkind] at hgives hgrows
      dsimp only at hgives hgrows
      rw [Registry.gives_union] at hgives
      have hprocess (t : State) : processWrite host ev t =
          Write.node host ev (Write.heap host ev (Write.registered ev t)) := rfl
      dsimp only
      rw [hprocess] at hgrows
      rw [hprocess, hprocess, Write.registered_withTypes,
        Write.heap_withTypes hdeep ((Write.grows_node hdeep).trans hgrows) hgives.1,
        Write.node_withTypes hdeep hpatch hgrows hgives.2]
  | alloc =>
      rw [hkind] at hgives hgrows
      dsimp only at hgives hgrows ⊢
      unfold processAlloc at hgrows ⊢
      rw [track_withTypes, stampBirth_withTypes hdeep hpatch hgrows hgives]
  | call => exact processCall_withTypes
  | ret => exact processReturn_withTypes
  | free => exact processFree_withTypes
  | moduleLoad => exact processModuleLoad_withTypes
  | _ => rfl

section OwnAnswers

theorem gives_patchAnswers (r : Registry) (ti : TypeInfo) : r.Gives (patchAnswers r ti) :=
  fun _ hx => hx.2.symm

theorem gives_spreadAnswers (r : Registry) (addr : UInt64) (seq : ℕ) (t : State) :
    r.Gives (Write.spreadAnswers host r addr seq t) :=
  Registry.gives_union.mpr ⟨ShadowTypeMap.gives_replayAnswers _ _ _,
    ShadowTypeMap.gives_scanAnswers (t.scanSource host r) _ _ _⟩

theorem gives_heapAnswers (hsame : (Write.heap host ev s).types = s.types) :
    s.types.Gives (Write.heapAnswers host ev s) := by
  unfold Write.heap at hsame
  unfold Write.heapAnswers
  by_cases hheap : s.heapOracle.isHeap ev.addr = true
  · rw [if_pos hheap, Write.types_bounds] at hsame
    rw [if_pos hheap]
    have hbefore : (Write.fields ev (Write.graph ev s)).dwarfInfo = s.dwarfInfo :=
      Write.dwarfInfo_fields _
    set t := Write.fields ev (Write.graph ev s) with ht
    unfold Write.propagateAnswers
    cases hinfo : t.dwarfInfo with
    | none => exact Registry.gives_empty
    | some info =>
        rw [Write.types_propagate info hinfo] at hsame
        rw [hinfo] at hbefore
        dsimp only
        rw [Registry.gives_union]
        constructor
        · rw [types_of_some hbefore.symm]
          exact ShadowTypeMap.gives_writeAnswers _ _ _ _ _ _
        · split
          · rename_i hstamped
            rw [if_pos hstamped] at hsame
            rw [← hsame]
            exact ShadowTypeMap.gives_scanAnswers _ _ _ _
          · exact Registry.gives_empty
  · rw [if_neg hheap]
    exact Registry.gives_empty

theorem gives_stampPointeeAnswers {name typeName : String}
    (hsame : (Write.stampPointee host ev name typeName s).types = s.types) :
    s.types.Gives (Write.stampPointeeAnswers host ev name typeName s) := by
  unfold Write.stampPointeeAnswers
  cases hinfo : s.dwarfInfo with
  | none => exact Registry.gives_empty
  | some info =>
      rw [Write.types_stampPointee hinfo] at hsame
      dsimp only
      rw [← hsame]
      split
      · exact Registry.gives_empty
      · rw [Registry.gives_union]
        refine ⟨gives_patchAnswers _ _, ?_⟩
        unfold Write.stampVariableAnswers
        dsimp only
        split
        · exact gives_spreadAnswers _ _ _ _
        · exact Registry.gives_empty

theorem gives_nodeAnswers (hsame : (Write.node host ev s).types = s.types) :
    s.types.Gives (Write.nodeAnswers host ev s) := by
  unfold Write.node at hsame
  unfold Write.nodeAnswers
  dsimp only at hsame ⊢
  cases hiv : (s.addrIndex.lookup host.orders ev.addr).2 with
  | none => exact Registry.gives_empty
  | some h =>
      rw [hiv] at hsame
      dsimp only at hsame ⊢
      split
      · rename_i hstamps
        obtain ⟨hpointer, hzero, hheap⟩ := hstamps
        rw [if_pos hpointer] at hsame
        unfold Write.pointer at hsame
        rw [if_neg hzero, if_pos hheap] at hsame
        exact gives_stampPointeeAnswers hsame
      · exact Registry.gives_empty

theorem gives_stampBirthAnswers (hsame : (Alloc.stampBirth host ev s).types = s.types) :
    s.types.Gives (stampBirthAnswers host ev s) := by
  unfold stampBirthAnswers
  cases hinfo : s.dwarfInfo with
  | none => exact Registry.gives_empty
  | some info =>
      cases hdelta : s.relocationDelta with
      | none => exact Registry.gives_empty
      | some delta =>
          dsimp only
          cases hti : info.allocOracle.resolve (Alloc.size ev)
              (Alloc.callerPcs ev info delta (s.framesOf ev.threadId)) with
          | none => exact Registry.gives_empty
          | some ti =>
              rw [types_stampBirth hinfo hdelta hti] at hsame
              dsimp only
              rw [← hsame, Registry.gives_union]
              refine ⟨gives_patchAnswers _ _, ?_⟩
              split
              · exact gives_spreadAnswers _ _ _ _
              · exact Registry.gives_empty

/-- Where an event finds no type, its answers are the registry's own. -/
theorem gives_eventAnswers (hdeep : ∀ r n, host.deep r n = D n)
    (hsame : (processEvent host ev s).types = s.types) : s.types.Gives (eventAnswers host ev s) := by
  unfold eventAnswers
  unfold processEvent processKind at hsame
  cases hkind : kindOf ev with
  | write =>
      rw [hkind] at hsame
      dsimp only at hsame ⊢
      have hregistered : (Write.registered ev (countEvent s)).types = s.types :=
        types_of_dwarfInfo dwarfInfo_registered
      have hnode : (Write.heap host ev (Write.registered ev (countEvent s))).types.Grows D
          (Write.node host ev (Write.heap host ev (Write.registered ev (countEvent s)))).types :=
        Write.grows_node hdeep
      have hheap : (Write.registered ev (countEvent s)).types.Grows D
          (Write.heap host ev (Write.registered ev (countEvent s))).types := Write.grows_heap hdeep
      have hwrite : (Write.node host ev (Write.heap host ev
        (Write.registered ev (countEvent s)))).types = s.types := hsame
      rw [hwrite] at hnode
      rw [hregistered] at hheap
      have hheaped := hheap.antisymm hnode
      rw [Registry.gives_union]
      constructor
      · rw [← hregistered]
        exact gives_heapAnswers (hheaped.trans hregistered.symm)
      · rw [← hheaped]
        exact gives_nodeAnswers (hwrite.trans hheaped.symm)
  | alloc =>
      rw [hkind] at hsame
      have htrack : (Alloc.track ev (countEvent s)).types = s.types :=
        types_of_dwarfInfo dwarfInfo_track
      dsimp only at hsame ⊢
      rw [← htrack]
      exact gives_stampBirthAnswers (hsame.trans htrack.symm)
  | _ => exact Registry.gives_empty

end OwnAnswers

end Events

end Rtmap.Engine
