import Rtmap.Engine.ReplayElements

/-!
# The upgrade of a shallow projection

A WRITE that stamps a pointee of a depth-truncated type asks for the full type and
stamps it again. The second stamp goes to an address that has the name already, so
that the projection stays as it is; only the stamp of the written variable, which
comes later in the event, may move it.
-/
namespace Rtmap.Engine
open Rtmap.Ring

/-- The resolver finds a type under its own name. -/
def Host.FindsNamed (host : Host) : Prop := ∀ r n ti, host.deep r n = some ti → ti.name = n

namespace DwarfInfo
variable {deep : Registry → String → Option TypeInfo}

/-- What a name has in the registry afterwards it had before, or the resolver found it. -/
theorem ensureTypeInner_source (fuel : ℕ) : ∀ (r : Registry) (n k : String),
    (ensureTypeInner deep fuel r n).1 k = r k ∨
      ∃ r', (deep r' k).isSome ∧ (ensureTypeInner deep fuel r n).1 k = deep r' k := by
  induction fuel with
  | zero => exact fun r n k => .inl rfl
  | succ fuel ih =>
      have hchase (targets : List String) : ∀ (r : Registry) (k : String),
          targets.foldl (fun r t => (ensureTypeInner deep fuel r t).1) r k = r k ∨
            ∃ r', (deep r' k).isSome ∧
              targets.foldl (fun r t => (ensureTypeInner deep fuel r t).1) r k = deep r' k := by
        induction targets with
        | nil => exact fun r k => .inl rfl
        | cons t targets ihs =>
            intro r k
            rw [List.foldl_cons]
            rcases ihs (ensureTypeInner deep fuel r t).1 k with hsame | hfound
            · rw [hsame]
              exact ih r t k
            · exact .inr hfound
      have hmaterialize (r : Registry) (n k : String) (ti : TypeInfo) (hti : deep r n = some ti)
          (targets : List String) :
          let r' := targets.foldl (fun r t => (ensureTypeInner deep fuel r t).1)
            (Function.update r n (some ti))
          r' k = r k ∨ ∃ r'', (deep r'' k).isSome ∧ r' k = deep r'' k := by
        rcases hchase targets (Function.update r n (some ti)) k with hsame | hfound
        · by_cases hk : k = n
          · subst hk
            rw [Function.update_self] at hsame
            exact .inr ⟨r, by rw [hti]; rfl, hsame.trans hti.symm⟩
          · rw [Function.update_of_ne hk] at hsame
            exact .inl hsame
        · exact .inr hfound
      intro r n k
      rw [ensureTypeInner]
      split
      · split
        · split
          · exact .inl rfl
          · rename_i ti hti
            exact hmaterialize r n k ti hti _
        · exact hchase _ r k
      · split
        · exact .inl rfl
        · rename_i ti hti
          exact hmaterialize r n k ti hti _

end DwarfInfo

/-- Asked for, the type of the name turns from absent or shallow to deep. -/
structure TurnsDeep (host : Host) (info : DwarfInfo) (name : String) (deep : TypeInfo) : Prop where
  before : (info.typeRegistry name).all TypeInfo.shallow = true
  after : (info.ensureType host.deep name).typeRegistry name = some deep
  deep : deep.shallow = false

theorem TurnsDeep.name_eq {host : Host} {info : DwarfInfo} {name : String} {deep : TypeInfo}
    (h : TurnsDeep host info name deep) (hnamed : host.FindsNamed) : deep.name = name := by
  have hafter : (DwarfInfo.ensureTypeInner host.deep 7 info.typeRegistry name).1 name = some deep :=
    h.after
  rcases DwarfInfo.ensureTypeInner_source 7 info.typeRegistry name name with hsame | ⟨r, -, hfound⟩
  · -- an entry that was there would be shallow still
    have hbefore := h.before
    rw [← hsame, hafter, Option.all_some, h.deep] at hbefore
    cases hbefore
  · exact hnamed r name deep (hfound.symm.trans hafter)

namespace ShadowTypeMap
variable {m : ShadowTypeMap} {addr value b : UInt64} {ti : TypeInfo} {seq : ℕ} {p : TypeProjection}
  {registry : Registry} {allocs : HeapAllocTracker}

/-- A stamp of the name that is there already changes nothing. -/
theorem stampType_of_name_eq (source : String) (hp : m.lookup addr = some p)
    (hname : p.typeInfo.name = ti.name) : (m.stampType addr ti source seq).1 = m := by
  rw [lookup] at hp
  rw [stampType]
  split
  · rfl
  · simp only [hp, hname, if_true]

/-- A pointer write that stamps is a stamp of its value. -/
theorem propagatePointer_stamps {field : FieldInfo}
    (h : (m.propagatePointer field value seq registry).2 = true) :
    ∃ ti, (m.propagatePointer field value seq registry).1 =
        (m.stampType value ti field.name seq).1 ∧
      (m.stampType value ti field.name seq).2.applied = true := by
  rcases propagatePointer_cases m field value seq registry with
    heq | ⟨pointee, -, heq⟩ | ⟨ti, heq⟩
  · rw [heq] at h
    cases h
  · rw [heq] at h ⊢
    refine ⟨pointee, rfl, ?_⟩
    rw [eq_of_beq h]
    rfl
  · rw [heq] at h
    cases h

/-- A field write that stamps is a stamp of its value. -/
theorem propagateFieldWrite_stamps {size : UInt32}
    (h : (m.propagateFieldWrite addr value size seq registry allocs).2 = true) :
    value ≠ 0 ∧ ∃ ti source,
      (m.propagateFieldWrite addr value size seq registry allocs).1 =
        (m.stampType value ti source seq).1 ∧
      (m.stampType value ti source seq).2.applied = true := by
  rcases propagateFieldWrite_cases m addr value size seq registry allocs with
    heq | ⟨⟨-, hvalue⟩, ⟨element, -, heq⟩ | ⟨field, heq⟩⟩
  · rw [heq] at h
    cases h
  · rw [heq] at h ⊢
    exact ⟨hvalue, element, _, rfl, h⟩
  · rw [heq] at h ⊢
    obtain ⟨ti, hstamp, happlied⟩ := propagatePointer_stamps h
    exact ⟨hvalue, ti, field.name, hstamp, happlied⟩

end ShadowTypeMap

section Upgrade
variable (host : Host) (ev : Event) (s : State) (info : DwarfInfo)

namespace Write

/-- The type map with the written pointer propagated, and whether that stamped it. -/
def propagated : ShadowTypeMap × Bool :=
  s.world.stm.propagateFieldWrite ev.addr (writeValue ev) ev.size (seqOf ev) info.typeRegistry
    s.world.heapAllocs

/-- The type map after that, scanned from the value with the type of the name materialized. -/
def scanned (name : String) : ShadowTypeMap :=
  (propagated ev s info).1.retrospectiveScan
    ((graph ev s).scanSource host (info.ensureType host.deep name).typeRegistry) (writeValue ev)
    (seqOf ev)

/-- The stamp of the written variable, with the type of the name materialized. -/
def variableStamp (name : String) : Option PointeeStamp :=
  pointeeStamp host ev { s with dwarfInfo := some (info.ensureType host.deep name) }

end Write

/-- A WRITE to the heap stamps its value with a shallow type. -/
structure StampsShallow (p : TypeProjection) : Prop where
  kind : kindOf ev = .write
  dwarf : s.dwarfInfo = some info
  heap : s.heapOracle.isHeap ev.addr = true
  stamps : (Write.propagated ev s info).2 = true
  found : (Write.propagated ev s info).1.lookup (writeValue ev) = some p
  shallow : p.typeInfo.shallow = true

/-- The written variable stamps another type at the value, and the deferred writes, replayed
after it, put the deep type there last. -/
def ReplayDeepens (name : String) (deep : TypeInfo) : Prop :=
  ∃ x, Write.variableStamp host ev s info name = some x ∧ x.pointee.name ≠ name ∧
    x.pointee.byteSize ≠ 0 ∧
    (((Write.scanned host ev s info name).stampType ev.value x.pointee x.slot.name
      (seqOf ev)).1.replayElements x.info.typeRegistry s.world.heapAllocs ev.value).getLast? =
        some deep

variable {host ev s info} {p : TypeProjection} {deep : TypeInfo}

theorem StampsShallow.value_ne (h : StampsShallow ev s info p) : writeValue ev ≠ 0 :=
  (ShadowTypeMap.propagateFieldWrite_stamps h.stamps).1

theorem StampsShallow.writeValue_eq (h : StampsShallow ev s info p) : writeValue ev = ev.value := by
  have hne := h.value_ne
  rw [writeValue] at hne ⊢
  split at hne
  · exact absurd rfl hne
  · rename_i hfull
    rw [if_neg hfull]

theorem StampsShallow.stampSeq_eq (h : StampsShallow ev s info p) : p.stampSeq = seqOf ev := by
  obtain ⟨-, ti, source, hstamp, happlied⟩ := ShadowTypeMap.propagateFieldWrite_stamps h.stamps
  have hfound := h.found
  rw [Write.propagated, hstamp, ShadowTypeMap.lookup_stampType_of_applied source happlied] at hfound
  rw [← Option.some.inj hfound]

namespace Write

/-- The second stamp of a type that turned deep leaves the type map to the scan. -/
theorem deepen_of_turnsDeep {t : State} (hnamed : host.FindsNamed)
    (hfound : t.world.stm.lookup (writeValue ev) = some p) (hshallow : p.typeInfo.shallow = true)
    (hturns : TurnsDeep host info p.typeInfo.name deep) :
    (deepen host ev info t).world.stm = t.world.stm.retrospectiveScan
        (t.scanSource host (info.ensureType host.deep p.typeInfo.name).typeRegistry)
        (writeValue ev) (seqOf ev) ∧
      (deepen host ev info t).dwarfInfo = some (info.ensureType host.deep p.typeInfo.name) := by
  have hensured : ensured host ev info t = info.ensureType host.deep p.typeInfo.name := by
    rw [ensured, hfound]
  have hupgrade : upgrade ev (info.ensureType host.deep p.typeInfo.name) t = t := by
    simp only [upgrade, hfound, hturns.after, hshallow, hturns.deep, Bool.not_false, Bool.and_self,
      if_true, State.withStm]
    rw [ShadowTypeMap.stampType_of_name_eq p.sourceName hfound (hturns.name_eq hnamed).symm]
  have hstamp (u : State) : (emitStamp (seqOf ev) (writeValue ev) u).world.stm = u.world.stm ∧
      (emitStamp (seqOf ev) (writeValue ev) u).dwarfInfo = u.dwarfInfo := by
    rw [emitStamp]
    split <;> exact ⟨rfl, rfl⟩
  rw [deepen, hensured, hupgrade]
  exact ⟨(hstamp _).1, (hstamp _).2⟩

theorem propagate_of_stampsShallow {t : State} (hnamed : host.FindsNamed)
    (h : StampsShallow ev s info p) (hturns : TurnsDeep host info p.typeInfo.name deep)
    (hstm : t.world.stm = s.world.stm) (hallocs : t.world.heapAllocs = s.world.heapAllocs)
    (hdwarf : t.dwarfInfo = some info) (hgraph : t.heapGraph = (graph ev s).heapGraph) :
    (propagate host ev t).world.stm = scanned host ev s info p.typeInfo.name ∧
      (propagate host ev t).dwarfInfo = some (info.ensureType host.deep p.typeInfo.name) := by
  have hpropagated : t.world.stm.propagateFieldWrite ev.addr (writeValue ev) ev.size (seqOf ev)
      info.typeRegistry t.world.heapAllocs = propagated ev s info := by
    rw [hstm, hallocs, propagated]
  have hpropagate : propagate host ev t =
      deepen host ev info (t.withStm fun _ => (propagated ev s info).1) := by
    rw [propagate, hdwarf]
    dsimp only
    rw [hpropagated, if_pos h.stamps]
  obtain ⟨hscan, hinfo⟩ := deepen_of_turnsDeep (t := t.withStm fun _ => (propagated ev s info).1)
    hnamed h.found h.shallow hturns
  rw [hpropagate]
  refine ⟨hscan.trans ?_, hinfo⟩
  have hsource (registry : Registry) :
      (t.withStm fun _ => (propagated ev s info).1).scanSource host registry =
        (graph ev s).scanSource host registry := by
    show ShadowTypeMap.ScanSource.mk t.heapGraph t.world.heapAllocs registry host.mem = _
    rw [hgraph, hallocs]
    rfl
  rw [hsource]
  rfl

/-- Up to the lookup of the variable the map is scanned and the type materialized, no more. -/
theorem beforeNode_of_stampsShallow (hnamed : host.FindsNamed) (h : StampsShallow ev s info p)
    (hturns : TurnsDeep host info p.typeInfo.name deep) :
    (beforeNode host ev s).world.stm = scanned host ev s info p.typeInfo.name ∧
      (beforeNode host ev s).dwarfInfo = some (info.ensureType host.deep p.typeInfo.name) := by
  obtain ⟨regs, hregistered⟩ := registered_eq ev (countEvent s)
  obtain ⟨t, ht⟩ : ∃ t, fields ev (graph ev (registered ev (countEvent s))) = t := ⟨_, rfl⟩
  obtain ⟨vs, topo, hfields⟩ := fields_eq ev (graph ev (registered ev (countEvent s)))
  rw [ht, hregistered] at hfields
  have hheap : (registered ev (countEvent s)).heapOracle.isHeap ev.addr = true := by
    rw [hregistered]
    exact h.heap
  have hbefore : beforeNode host ev s = bounds ev (propagate host ev t) := by
    rw [← ht]
    exact if_pos hheap
  obtain ⟨hs, topo', hbounds⟩ := bounds_eq ev (propagate host ev t)
  rw [hbefore, hbounds]
  exact propagate_of_stampsShallow hnamed h hturns (by rw [hfields]; rfl) (by rw [hfields]; rfl)
    (by rw [hfields]; exact h.dwarf) (by rw [hfields]; rfl)

/-- The stage at the variable makes the same stamp as in the state before the event. -/
theorem pointeeStamp_beforeNode (hnamed : host.FindsNamed) (h : StampsShallow ev s info p)
    (hturns : TurnsDeep host info p.typeInfo.name deep) :
    pointeeStamp host ev (beforeNode host ev s) = variableStamp host ev s info p.typeInfo.name := by
  have hinfo := (beforeNode_of_stampsShallow hnamed h hturns).2
  obtain ⟨g, m, hs, vs, info', regs, topo, hbefore⟩ := beforeNode_eq host ev s
  rw [hbefore] at hinfo ⊢
  have hinfo' : info' = some (info.ensureType host.deep p.typeInfo.name) := hinfo
  rw [hinfo']
  rfl

end Write

/-- A stamp of another type than the one at the value is applied. -/
theorem StampsShallow.applied_iff (h : StampsShallow ev s info p) {m : ShadowTypeMap}
    (hp : m.lookup ev.value = some p) (ti : TypeInfo) (source : String) :
    (m.stampType ev.value ti source (seqOf ev)).2.applied = true ↔
      ti.name ≠ p.typeInfo.name ∧ ti.byteSize ≠ 0 := by
  have hvalue : ev.value ≠ 0 := h.writeValue_eq ▸ h.value_ne
  rw [ShadowTypeMap.lookup] at hp
  rw [ShadowTypeMap.stampType]
  split
  · rename_i hbad
    have hsize := hbad.resolve_left hvalue
    simp [StampResult.applied, hsize]
  · rename_i hgood
    have hsize : ti.byteSize ≠ 0 := fun hz => hgood (.inr hz)
    simp only [hp]
    split
    · rename_i hname
      simp [StampResult.applied, hname]
    · rename_i hname
      have hother : ti.name ≠ p.typeInfo.name := fun hn => hname hn.symm
      rw [if_neg (by rw [h.stampSeq_eq]; exact Nat.lt_irrefl _)]
      split <;> simp [StampResult.applied, hother, hsize]

/-- The scan leaves the stamped value as it is. -/
theorem StampsShallow.lookup_scanned (h : StampsShallow ev s info p) (host : Host) (name : String) :
    (Write.scanned host ev s info name).lookup ev.value = some p := by
  rw [← h.writeValue_eq]
  exact ShadowTypeMap.lookup_retrospectiveScan _ _ _ h.found

theorem deferred_propagated :
    (Write.propagated ev s info).1.deferred = s.world.stm.deferred :=
  (ShadowTypeMap.propagateFieldWrite_frame ..).1

/-- The deep type comes back only from a deferred write of the value that is not older than
the event and was made in a live block. -/
theorem ReplayDeepens.exists_deferred (h : StampsShallow ev s info p)
    (hreplays : ReplayDeepens host ev s info p.typeInfo.name deep) :
    ∃ d ∈ s.world.stm.deferred, d.writeValue = ev.value ∧ seqOf ev ≤ d.seq ∧
      (s.world.heapAllocs.containingAlloc d.writeAddr).isSome := by
  obtain ⟨x, -, hother, hsize, hlast⟩ := hreplays
  by_contra hnone
  have hfound := h.lookup_scanned host p.typeInfo.name
  have happlied := (h.applied_iff hfound x.pointee x.slot.name).mpr ⟨hother, hsize⟩
  have hstamped := ShadowTypeMap.lookup_stampType_of_applied x.slot.name happlied
  rw [ShadowTypeMap.replayElements_of_spares x.info.typeRegistry s.world.heapAllocs ?_ hstamped]
    at hlast
  · cases hlast
  · intro d hd hvalue
    rw [ShadowTypeMap.deferred_stampType, Write.scanned,
      ShadowTypeMap.deferred_retrospectiveScan, deferred_propagated] at hd
    by_contra hyoung
    rw [not_or, not_lt, ← ne_eq, ← Option.isSome_iff_ne_none] at hyoung
    exact hnone ⟨d, hd, hvalue, hyoung⟩

/-- A shallow projection whose type turns deep in the event carries the deep type after it
exactly when the written variable displaces it and the replay brings the deep type back. -/
theorem upgraded_iff (hnamed : host.FindsNamed) (h : StampsShallow ev s info p)
    (hturns : TurnsDeep host info p.typeInfo.name deep) :
    ((processEvent host ev s).world.stm.lookup (writeValue ev)).map TypeProjection.typeInfo =
        some deep ↔ ReplayDeepens host ev s info p.typeInfo.name deep := by
  obtain ⟨hstm, -⟩ := Write.beforeNode_of_stampsShallow hnamed h hturns
  have hstamp := Write.pointeeStamp_beforeNode hnamed h hturns
  have hallocs := heapAllocs_beforeNode host ev s
  have hfound := h.lookup_scanned host p.typeInfo.name
  have hshallow : ¬ (some p).map TypeProjection.typeInfo = some deep := by
    intro heq
    have hdeep := hturns.deep
    rw [← Option.some.inj heq, h.shallow] at hdeep
    cases hdeep
  have hspec := Write.node_spec host ev (beforeNode host ev s)
  rw [hstamp] at hspec
  rw [processEvent_write host ev s h.kind, h.writeValue_eq]
  cases hvariable : Write.variableStamp host ev s info p.typeInfo.name with
  | none =>
      simp only [hvariable] at hspec
      rw [of_core World.stm hspec.1, hstm, hfound]
      refine iff_of_false hshallow ?_
      rintro ⟨x, hx, -⟩
      rw [hvariable] at hx
      cases hx
  | some x =>
      simp only [hvariable] at hspec
      obtain ⟨t, l, hcore, -, -, hlast⟩ := hspec
      have htypes : t.world.stm = Write.scanned host ev s info p.typeInfo.name :=
        (of_core World.stm hcore).trans hstm
      have hblocks : t.world.heapAllocs = s.world.heapAllocs :=
        (of_core World.heapAllocs hcore).trans hallocs
      rw [hlast, stm_emit]
      have hreplays : ReplayDeepens host ev s info p.typeInfo.name deep ↔
          (x.pointee.name ≠ p.typeInfo.name ∧ x.pointee.byteSize ≠ 0) ∧
            (((Write.scanned host ev s info p.typeInfo.name).stampType ev.value x.pointee
              x.slot.name (seqOf ev)).1.replayElements x.info.typeRegistry s.world.heapAllocs
                ev.value).getLast? = some deep := by
        rw [ReplayDeepens, hvariable]
        simp only [Option.some.injEq, exists_eq_left', and_assoc]
      rw [hreplays, ← h.applied_iff hfound x.pointee x.slot.name]
      by_cases happlied : ((Write.scanned host ev s info p.typeInfo.name).stampType ev.value
          x.pointee x.slot.name (seqOf ev)).2.applied = true
      · obtain ⟨hother, -⟩ := (h.applied_iff hfound x.pointee x.slot.name).mp happlied
        have hpointee : x.pointee ≠ deep := by
          rintro rfl
          exact hother (hturns.name_eq hnamed)
        obtain ⟨q, hq, htype⟩ := ShadowTypeMap.typeInfo_replayDeferred x.info.typeRegistry
          s.world.heapAllocs (ShadowTypeMap.lookup_stampType_of_applied x.slot.name happlied)
        rw [lookup_stampVariable_of_applied host x.info.typeRegistry (htypes ▸ happlied), htypes,
          hblocks, hq, Option.map_some, htype, and_iff_right happlied]
        cases (((Write.scanned host ev s info p.typeInfo.name).stampType ev.value x.pointee
            x.slot.name (seqOf ev)).1.replayElements x.info.typeRegistry s.world.heapAllocs
              ev.value).getLast? with
        | none => simpa using hpointee
        | some element => rfl
      · refine iff_of_false ?_ fun hboth => happlied hboth.1
        rw [Bool.not_eq_true, ← htypes] at happlied
        rw [stm_stampVariable_of_not host x.info.typeRegistry happlied, htypes, hfound]
        exact hshallow

end Upgrade

/-- A list with its first node, at depth one. -/
def headType : TypeInfo where
  name := "list"
  byteSize := 16
  fields := [⟨"head", 8, 8, { name := "*node", byteSize := 8, isPointer := true }, 8⟩]

def truncatedNode : TypeInfo where
  name := "node"
  byteSize := 16
  shallow := true

def fullNode : TypeInfo where
  name := "node"
  byteSize := 16
  fields := [⟨"next", 0, 8, { name := "*node", byteSize := 8, isPointer := true }, 8⟩,
    ⟨"value", 8, 8, { name := "long", byteSize := 8 }, 8⟩]

/-- The resolver knows the node. -/
def nodeHost : Host :=
  { Host.plain with deep := fun _ n => if n = "node" then some fullNode else none }

def truncatedInfo : DwarfInfo where
  typeRegistry := fun n => if n = "node" then some truncatedNode else none

/-- A list on the heap, whose node type is truncated in the registry. -/
def listOnHeap : State where
  world := { stm := ({} : ShadowTypeMap).project 0x10000 headType "l" 0 }
  dwarfInfo := some truncatedInfo

/-- The list's first node is stored. -/
def storeHead : Event := plainEvent EVENT_WRITE 0x10008 0x20000

def headProjection : TypeProjection := ⟨0x20000, truncatedNode, "head", seqOf storeHead⟩

theorem nodeHost_findsNamed : nodeHost.FindsNamed := by
  intro r n ti h
  have hdeep : (if n = "node" then some fullNode else none) = some ti := h
  split at hdeep
  · rename_i hn
    rw [hn, ← Option.some.inj hdeep]
    rfl
  · cases hdeep

theorem storeHead_stampsShallow :
    StampsShallow storeHead listOnHeap truncatedInfo headProjection where
  kind := by decide +kernel
  dwarf := rfl
  heap := by decide +kernel
  stamps := by decide +kernel
  found := by rfl
  shallow := rfl

theorem node_turnsDeep : TurnsDeep nodeHost truncatedInfo "node" fullNode where
  before := by decide +kernel
  after := by rfl
  deep := rfl

/-- No variable is at the written field, so that the node stays truncated. -/
theorem head_stays_truncated :
    ¬ ((processEvent nodeHost storeHead listOnHeap).world.stm.lookup (writeValue storeHead)).map
      TypeProjection.typeInfo = some fullNode := by
  intro hupgraded
  obtain ⟨x, hx, -⟩ := (upgraded_iff nodeHost_findsNamed storeHead_stampsShallow
    node_turnsDeep).mp hupgraded
  have hnone : Write.variableStamp nodeHost storeHead listOnHeap truncatedInfo "node" = none := by
    rfl
  exact absurd (hnone.symm.trans hx) (by simp)

def edgeType : TypeInfo where
  name := "edge"
  byteSize := 24

/-- The written field is a variable of another pointee type, and the node is an element of an
array of full nodes. -/
def sharedField : State where
  world := {
    stm := {
      ((({} : ShadowTypeMap).project 0x10000 headType "l" 0).project 0x30000 headType "a" 0) with
      indirect := fun addr => if addr = 0x30000 then some fullNode else none
      deferred := [⟨0x30000, 0x20000, seqOf storeHead⟩] }
    heapAllocs := (({} : HeapAllocTracker).onAlloc 0x30000 64).1 }
  addrIndex := ({} : AddressIndex).insertGlobal 0x10008 8 "link"
    { name := "*edge", byteSize := 8, isPointer := true } 0
  dwarfInfo := some {
    typeRegistry := fun n =>
      if n = "edge" then some edgeType
      else if n = "node" then some truncatedNode
      else none }

-- the replay after the variable's stamp is the one way to the deep type
example : ((processEvent nodeHost storeHead sharedField).world.stm.lookup 0x20000).map
    (fun p => (p.typeInfo.name, p.typeInfo.shallow, p.sourceName)) =
      some ("node", false, "<indirect>") := by
  decide +kernel

theorem not_always_upgraded : ¬ ∀ (host : Host) (ev : Event) (s : State) (info : DwarfInfo)
    (p : TypeProjection) (deep : TypeInfo), host.FindsNamed → StampsShallow ev s info p →
      TurnsDeep host info p.typeInfo.name deep →
        ((processEvent host ev s).world.stm.lookup (writeValue ev)).map TypeProjection.typeInfo =
          some deep := by
  intro hall
  have hupgraded := hall nodeHost storeHead listOnHeap truncatedInfo headProjection fullNode
    nodeHost_findsNamed storeHead_stampsShallow node_turnsDeep
  have hshallow : ((processEvent nodeHost storeHead listOnHeap).world.stm.lookup
      (writeValue storeHead)).map (fun p => p.typeInfo.shallow) = some true := by
    decide +kernel
  obtain ⟨q, hq, hdeep⟩ := Option.map_eq_some_iff.mp hupgraded
  rw [hq, Option.map_some, hdeep] at hshallow
  cases hshallow

end Rtmap.Engine
