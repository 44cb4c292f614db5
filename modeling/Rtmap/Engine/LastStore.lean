import Rtmap.Engine.ReplayElements

/-!
# The last typed store of an address

A heap address stored in a typed pointer variable is stamped with the variable's
pointee type. The stamp replaces the one it meets when that has not the higher
number, whichever thread it is from, and stays where the deferred writes that are
replayed after it put no other type there.
-/
namespace Rtmap.Engine
open Rtmap.Ring ShadowTypeMap

namespace ShadowTypeMap
variable {m : ShadowTypeMap} {addr : UInt64} {ti : TypeInfo} {source : String} {seq : ℕ}

/-- The replaced projections that were counted. -/
def reported (m : ShadowTypeMap) : ℕ := m.schismCount + m.poolReuseCount

/-- A stamp counts what it replaces. -/
theorem reported_stampType (m : ShadowTypeMap) (addr : UInt64) (ti : TypeInfo) (source : String)
    (seq : ℕ) : (m.stampType addr ti source seq).1.reported =
      m.reported + (m.stampType addr ti source seq).2.displaced.toList.length := by
  rw [stampType]
  split
  · rfl
  · split
    · rfl
    · split
      · rfl
      · split
        · rfl
        · dsimp only
          split
          · exact (Nat.add_assoc _ _ _).symm
          · exact Nat.add_right_comm _ _ _

/-- No call of the type map takes a count back. -/
theorem reported_apply (c : StmCall) (m : ShadowTypeMap) : m.reported ≤ (c.apply m).reported := by
  have heffects (effects : List Effect) :
      ∀ m : ShadowTypeMap, m.reported ≤ (effects.foldl Effect.apply m).reported := by
    induction effects with
    | nil => exact fun m => le_rfl
    | cons e effects ih =>
        refine fun m => le_trans ?_ (ih (e.apply m))
        cases e with
        | stamp s => exact (Nat.le_add_right _ _).trans_eq (reported_stampType ..).symm
        | purge addr size => exact le_rfl
  have hbare := heffects (c.effects m) m.bare
  rw [← bare_apply] at hbare
  exact hbare

/-- A stamp that replaces a projection is applied and counted. -/
theorem applied_of_displaced {old : OldStamp}
    (h : (m.stampType addr ti source seq).2 = .schism old ∨
      (m.stampType addr ti source seq).2 = .poolReuse old) :
    (m.stampType addr ti source seq).2.applied = true ∧
      m.reported < (m.stampType addr ti source seq).1.reported := by
  rw [reported_stampType]
  rcases h with h | h <;> rw [h] <;> exact ⟨rfl, Nat.lt_succ_self _⟩

end ShadowTypeMap

/-- What the write defers before its variable is looked up is the write itself. -/
theorem mem_deferred_beforeNode {host : Host} {ev : Event} {s : State} {d : DeferredWrite}
    (h : d ∈ (beforeNode host ev s).world.stm.deferred) :
    d ∈ s.world.stm.deferred ++ [⟨ev.addr, ev.value, seqOf ev⟩] := by
  have hstamp (t : State) : (Write.emitStamp (seqOf ev) (writeValue ev) t).world.stm =
      t.world.stm := by
    rw [Write.emitStamp]
    split <;> rfl
  have hupgrade (info : DwarfInfo) (t : State) :
      (Write.upgrade ev info t).world.stm.deferred = t.world.stm.deferred := by
    rw [Write.upgrade]
    split
    · rfl
    · split
      · split
        · exact deferred_stampType ..
        · rfl
      · rfl
  have hpropagate (t : State) (hd : d ∈ (Write.propagate host ev t).world.stm.deferred) :
      d ∈ t.world.stm.deferred ++ [⟨ev.addr, ev.value, seqOf ev⟩] := by
    rw [Write.propagate] at hd
    split at hd
    · exact List.mem_append_left _ hd
    · rename_i info _
      have hframe := (@propagateFieldWrite_frame info.typeRegistry t.world.heapAllocs t.world.stm
        ev.addr (writeValue ev) ev.size (seqOf ev)).1
      dsimp only at hd
      split at hd
      · rw [Write.deepen, hstamp] at hd
        rw [State.withStm, deferred_retrospectiveScan, hupgrade] at hd
        exact List.mem_append_left _ (hframe ▸ hd)
      · split at hd
        · rename_i hdefers
          have hvalue : writeValue ev = ev.value := by
            simp only [Write.defers, Bool.and_eq_true, bne_iff_ne] at hdefers
            exact if_neg fun htruncated => hdefers.1.1.2 (if_pos htruncated)
          rw [hvalue] at hd hframe
          rcases List.mem_append.mp hd with hd | hd
          · refine List.mem_append_left _ (hframe ▸ ?_)
            split at hd
            · exact List.mem_of_mem_drop hd
            · exact hd
          · exact List.mem_append_right _ hd
        · exact List.mem_append_left _ (hframe ▸ hd)
  obtain ⟨regs, hregistered⟩ := Write.registered_eq ev (countEvent s)
  obtain ⟨t, ht⟩ : ∃ t, Write.registered ev (countEvent s) = t := ⟨_, rfl⟩
  have hstm : t.world.stm = s.world.stm := by
    rw [← ht, hregistered]
    rfl
  have hbefore : beforeNode host ev s = Write.heap host ev t := by
    rw [← ht]
    rfl
  rw [hbefore, Write.heap] at h
  split at h
  · obtain ⟨hs, topo, hbounds⟩ := Write.bounds_eq ev
      (Write.propagate host ev (Write.fields ev (Write.graph ev t)))
    obtain ⟨vs, topo', hfields⟩ := Write.fields_eq ev (Write.graph ev t)
    rw [hbounds] at h
    have hmem := hpropagate _ h
    rw [hfields] at hmem
    exact hstm ▸ hmem
  · exact List.mem_append_left _ (hstm ▸ h)

/-- The event stores a heap address in the pointer variable `h`, whose pointee
type is known to the registry. -/
structure StoresTyped (e : HostEvent) (s : State) (h : Interval) (info : DwarfInfo)
    (pointee : TypeInfo) : Prop where
  kind : kindOf e.2 = .write
  size : e.2.size = 8
  found : ((beforeNode e.1 e.2 s).addrIndex.lookup e.1.orders e.2.addr).2 = some h
  pointer : h.typeInfo.isPointer = true
  nonzero : e.2.value ≠ 0
  heap : (beforeNode e.1 e.2 s).heapOracle.isHeap e.2.value = true
  dwarf : (beforeNode e.1 e.2 s).dwarfInfo = some info
  known : Write.pointeeType e.1 h.typeInfo.name (Write.pointeeInfo e.1 h.typeInfo.name info) =
    some pointee

/-- After the event the address has the pointee type; its stamp came back as a schism or a pool
reuse, which is counted and, where a topology stream is written, the one schism line more. -/
structure Wins (e : HostEvent) (s : State) (h : Interval) (pointee : TypeInfo) : Prop where
  typed : ((processEvent e.1 e.2 s).world.stm.lookup e.2.value).map (fun p => p.typeInfo.name) =
    some pointee.name
  reported : ∃ old, (((beforeNode e.1 e.2 s).world.stm.stampType e.2.value pointee h.name
        (seqOf e.2)).2 = .schism old ∨
      ((beforeNode e.1 e.2 s).world.stm.stampType e.2.value pointee h.name
        (seqOf e.2)).2 = .poolReuse old) ∧
    (processEvent e.1 e.2 s).schisms = s.schisms.map fun ls =>
      ls ++ [.typeSchism (seqOf e.2) e.2.value old.type pointee.name old.source h.name]
  counted : (beforeNode e.1 e.2 s).world.stm.reported <
    (processEvent e.1 e.2 s).world.stm.reported

/-- The stamp meets a projection of another type that has not the higher number. -/
def Meets (e : HostEvent) (s : State) (pointee : TypeInfo) : Prop :=
  ∃ q, (beforeNode e.1 e.2 s).world.stm.lookup e.2.value = some q ∧
    q.typeInfo.name ≠ pointee.name ∧ q.stampSeq ≤ seqOf e.2 ∧ pointee.byteSize ≠ 0

/-- The stamp meets such a projection, and the last element type that the deferred writes put
in its place, if they put one, has the pointee's name. -/
structure Displaces (e : HostEvent) (s : State) (h : Interval) (info : DwarfInfo)
    (pointee : TypeInfo) : Prop where
  met : Meets e s pointee
  replayed : ∀ ti ∈ (((beforeNode e.1 e.2 s).world.stm.stampType e.2.value pointee h.name
      (seqOf e.2)).1.replayElements (Write.pointeeInfo e.1 h.typeInfo.name info).typeRegistry
        s.world.heapAllocs e.2.value).getLast?, ti.name = pointee.name

/-- The stamp meets such a projection, and of the deferred writes before the event and the
store itself each one of the address is older or outside every live block. -/
structure DisplacesAlone (e : HostEvent) (s : State) (pointee : TypeInfo) : Prop where
  met : Meets e s pointee
  spared : ∀ d ∈ s.world.stm.deferred ++ [⟨e.2.addr, e.2.value, seqOf e.2⟩],
    Spares s.world.heapAllocs e.2.value (seqOf e.2) d

section Stores
variable {e : HostEvent} {s : State} {h : Interval} {info : DwarfInfo} {pointee : TypeInfo}

/-- The event ends in the stamp of the stored address, in a state of the same type
map, blocks and schism lines. -/
theorem processEvent_storesTyped (hs : StoresTyped e s h info pointee) :
    ∃ t : State, t.world.stm = (beforeNode e.1 e.2 s).world.stm ∧
      t.world.heapAllocs = (beforeNode e.1 e.2 s).world.heapAllocs ∧ t.schisms = s.schisms ∧
      (processEvent e.1 e.2 s).world.stm = (Write.stampVariable e.1 e.2 h.name
        (Write.pointeeInfo e.1 h.typeInfo.name info).typeRegistry pointee t).world.stm ∧
      (processEvent e.1 e.2 s).schisms = (Write.stampVariable e.1 e.2 h.name
        (Write.pointeeInfo e.1 h.typeInfo.name info).typeRegistry pointee t).schisms := by
  obtain ⟨host, ev⟩ := e
  obtain ⟨hkind, hsize, hfound, hpointer, hnonzero, hheap, hdwarf, hknown⟩ := hs
  dsimp only at hkind hsize hfound hnonzero hheap hdwarf hknown ⊢
  have hbefore : (beforeNode host ev s).schisms = s.schisms := by
    rw [beforeNode, Write.schisms_heap]
    exact (Write.linesOf_cohere _).trans Write.linesOf_observe
  have hstamp : Write.pointeeStamp host ev (beforeNode host ev s) =
      some ⟨h, Write.pointeeInfo host h.typeInfo.name info, pointee⟩ := by
    simp [Write.pointeeStamp, hfound, hpointer, hsize, hnonzero, hheap, hdwarf, hknown]
  have hspec := Write.node_spec host ev (beforeNode host ev s)
  simp only [hstamp] at hspec
  obtain ⟨t, l, hcore, htopo, ⟨-, hl⟩, hlast⟩ := hspec
  rw [processEvent_write host ev s hkind, hlast]
  refine ⟨t, of_core World.stm hcore, of_core World.heapAllocs hcore, ?_, stm_emit .., ?_⟩
  · rw [State.schisms, htopo]
    exact hbefore
  · exact schisms_emit hl

/-- What is counted up to the stamp is counted after the replay and the scan. -/
theorem reported_stampVariable (host : Host) {ev : Event} {name : String} (registry : Registry)
    {pointee : TypeInfo} {t : State}
    (happlied : (t.world.stm.stampType ev.value pointee name (seqOf ev)).2.applied = true) :
    (t.world.stm.stampType ev.value pointee name (seqOf ev)).1.reported ≤
      (Write.stampVariable host ev name registry pointee t).world.stm.reported := by
  obtain ⟨src, hsrc⟩ := stm_stampVariable host registry happlied
  rw [hsrc]
  exact (reported_apply (.replayDeferred registry t.world.heapAllocs) _).trans
    (reported_apply (.retrospectiveScan src ev.value (seqOf ev)) _)

/-- A displacing stamp wins where the replay leaves its type: the scan after it leaves the
address alone. -/
theorem wins_iff (hs : StoresTyped e s h info pointee) :
    Wins e s h pointee ↔ Displaces e s h info pointee := by
  obtain ⟨t, hstm, hallocs, hschisms, hafter, hlines⟩ := processEvent_storesTyped hs
  have hdisplaced := stampType_displaces_iff (beforeNode e.1 e.2 s).world.stm hs.nonzero pointee
    h.name (seqOf e.2)
  have htyped (happlied : ((beforeNode e.1 e.2 s).world.stm.stampType e.2.value pointee h.name
      (seqOf e.2)).2.applied = true) :
      ((processEvent e.1 e.2 s).world.stm.lookup e.2.value).map (fun p => p.typeInfo.name) =
        some ((((beforeNode e.1 e.2 s).world.stm.stampType e.2.value pointee h.name
          (seqOf e.2)).1.replayElements (Write.pointeeInfo e.1 h.typeInfo.name info).typeRegistry
            s.world.heapAllocs e.2.value).getLast?.getD pointee).name := by
    obtain ⟨q, hq, htype⟩ := typeInfo_replayDeferred
      (Write.pointeeInfo e.1 h.typeInfo.name info).typeRegistry s.world.heapAllocs
      (lookup_stampType_of_applied h.name happlied)
    rw [hafter, lookup_stampVariable_of_applied e.1 _ (hstm ▸ happlied), hstm, hallocs,
      heapAllocs_beforeNode, hq, Option.map_some, htype]
  constructor
  · rintro ⟨hname, ⟨old, hold, -⟩, -⟩
    rw [htyped (applied_of_displaced hold).1] at hname
    refine ⟨hdisplaced.mp ⟨old, hold⟩, fun ti hti => ?_⟩
    rw [Option.mem_def.mp hti] at hname
    exact Option.some.inj hname
  · rintro ⟨hmet, hreplayed⟩
    obtain ⟨old, hold⟩ := hdisplaced.mpr hmet
    obtain ⟨happlied, hcounted⟩ := applied_of_displaced hold
    refine ⟨(htyped happlied).trans ?_, ⟨old, hold, ?_⟩, ?_⟩
    · cases hlast : (((beforeNode e.1 e.2 s).world.stm.stampType e.2.value pointee h.name
          (seqOf e.2)).1.replayElements (Write.pointeeInfo e.1 h.typeInfo.name info).typeRegistry
            s.world.heapAllocs e.2.value).getLast? with
      | none => rfl
      | some ti => exact congrArg some (hreplayed ti hlast)
    · rw [hlines, schisms_stampVariable, hschisms, hstm]
      rcases hold with hold | hold <;> rw [hold]
    · rw [hafter]
      exact hcounted.trans_le (hstm ▸ reported_stampVariable e.1 _ (hstm ▸ happlied))

/-- A store that no deferred write disturbs displaces what it meets. -/
theorem DisplacesAlone.displaces (halone : DisplacesAlone e s pointee)
    (hs : StoresTyped e s h info pointee) : Displaces e s h info pointee := by
  obtain ⟨hmet, hspared⟩ := halone
  obtain ⟨old, hold⟩ := (stampType_displaces_iff (beforeNode e.1 e.2 s).world.stm hs.nonzero
    pointee h.name (seqOf e.2)).mpr hmet
  refine ⟨hmet, ?_⟩
  rw [replayElements_of_spares _ _ (fun d hd => ?_)
    (lookup_stampType_of_applied h.name (applied_of_displaced hold).1)]
  · exact nofun
  · rw [deferred_stampType] at hd
    exact hspared d (mem_deferred_beforeNode hd)

end Stores

/-- In the run the property holds wherever an event stores an address that an
earlier event stored under another pointee type and that no FREE or ALLOC has
named between. -/
def AtRestores (P : HostEvent → State → Interval → DwarfInfo → TypeInfo → Prop) (start : State)
    (events : List HostEvent) : Prop :=
  ∀ front e₁ mid e₂ rest h₁ info₁ pointee₁ h₂ info₂ pointee₂,
    events = front ++ e₁ :: (mid ++ e₂ :: rest) →
    StoresTyped e₁ (runEvents start front) h₁ info₁ pointee₁ →
    StoresTyped e₂ (runEvents start (front ++ e₁ :: mid)) h₂ info₂ pointee₂ →
    e₁.2.value = e₂.2.value → pointee₁.name ≠ pointee₂.name →
    (∀ e ∈ mid, (kindOf e.2 = .free ∨ kindOf e.2 = .alloc) → e.2.addr ≠ e₂.2.value) →
    P e₂ (runEvents start (front ++ e₁ :: mid)) h₂ info₂ pointee₂

theorem AtRestores.mono {P Q : HostEvent → State → Interval → DwarfInfo → TypeInfo → Prop}
    {start : State} {events : List HostEvent} (h : AtRestores P start events)
    (himp : ∀ {e s h info pointee}, StoresTyped e s h info pointee → P e s h info pointee →
      Q e s h info pointee) : AtRestores Q start events := by
  intro front e₁ mid e₂ rest h₁ info₁ pointee₁ h₂ info₂ pointee₂ hin hs₁ hs₂ hv hne hmid
  exact himp hs₂ (h front e₁ mid e₂ rest h₁ info₁ pointee₁ h₂ info₂ pointee₂ hin hs₁ hs₂ hv hne hmid)

/-- Along a run the later of two typed stores of an address wins exactly when its
stamp displaces the one it meets and its type is the one that the replay leaves, and
so wherever no deferred write of the address disturbs it. -/
theorem restores_win_iff (start : State) (events : List HostEvent) :
    (AtRestores (fun e s h _ pointee => Wins e s h pointee) start events ↔
      AtRestores Displaces start events) ∧
    (AtRestores (fun e s _ _ pointee => DisplacesAlone e s pointee) start events →
      AtRestores (fun e s h _ pointee => Wins e s h pointee) start events) := by
  refine ⟨⟨?_, ?_⟩, ?_⟩
  · exact fun hall => hall.mono fun hs => (wins_iff hs).mp
  · exact fun hall => hall.mono fun hs => (wins_iff hs).mpr
  · exact fun hall => hall.mono fun hs halone => (wins_iff hs).mpr (halone.displaces hs)

section Cross

/-- A store is recognized by the variable found and the names of the types. -/
theorem exists_storesTyped {e : HostEvent} {s : State} (typeName name : String)
    {pointeeName : String}
    (hkind : kindOf e.2 = .write) (hsize : e.2.size = 8)
    (hfound : ((beforeNode e.1 e.2 s).addrIndex.lookup e.1.orders e.2.addr).2.map
      (fun h => (h.typeInfo.isPointer, h.typeInfo.name, h.name)) = some (true, typeName, name))
    (hnonzero : e.2.value ≠ 0)
    (hheap : (beforeNode e.1 e.2 s).heapOracle.isHeap e.2.value = true)
    (hknown : (beforeNode e.1 e.2 s).dwarfInfo.map (fun info =>
      (Write.pointeeType e.1 typeName (Write.pointeeInfo e.1 typeName info)).map TypeInfo.name) =
        some (some pointeeName)) :
    ∃ h info pointee, StoresTyped e s h info pointee ∧ pointee.name = pointeeName := by
  obtain ⟨h, hh, hview⟩ := Option.map_eq_some_iff.mp hfound
  obtain ⟨hpointer, hrest⟩ := Prod.mk.inj hview
  obtain ⟨rfl, rfl⟩ := Prod.mk.inj hrest
  obtain ⟨info, hinfo, hpointee⟩ := Option.map_eq_some_iff.mp hknown
  obtain ⟨pointee, hknown', rfl⟩ := Option.map_eq_some_iff.mp hpointee
  exact ⟨h, info, pointee,
    ⟨hkind, hsize, hh, hpointer, hnonzero, hheap, hinfo, hknown'⟩, rfl⟩

/-- Thread 1 stores an address as a `node` with its event 5, then thread 2 as an
`edge` with its event 3. -/
def crossStores : List HostEvent :=
  [(.plain, numbered 1 5 (plainEvent EVENT_WRITE 0x4000 0x20000)),
    (.plain, numbered 2 3 (plainEvent EVENT_WRITE 0x4008 0x20000))]

-- with event 7 the second store wins, though the first one waits in the queue
example : DisplacesAlone (.plain, numbered 2 7 (plainEvent EVENT_WRITE 0x4008 0x20000))
    (runEvents twoVariables (crossStores.take 1)) { name := "edge", byteSize := 24 } where
  met := ⟨_, by rfl, by decide +kernel, by decide +kernel, by decide +kernel⟩
  spared := by
    have hqueue : (runEvents twoVariables (crossStores.take 1)).world.stm.deferred =
        [⟨0x4000, 0x20000, 5⟩] := by
      decide +kernel
    rw [hqueue, List.forall_mem_append]
    simp only [List.forall_mem_singleton]
    exact ⟨fun _ => .inl (by decide), fun _ => .inr (by decide +kernel)⟩

/-- The second store is refused: the address stays a `node` and nothing is reported. -/
theorem later_store_is_refused :
    ¬ AtRestores (fun e s h _ pointee => Wins e s h pointee) { twoVariables with topo := some [] }
      crossStores ∧
    ((runEvents { twoVariables with topo := some [] } crossStores).world.stm.lookup 0x20000).map
      (fun p => p.typeInfo.name) = some "node" := by
  have hfinal : ((runEvents { twoVariables with topo := some [] }
      crossStores).world.stm.lookup 0x20000).map (fun p => p.typeInfo.name) = some "node" := by
    decide +kernel
  refine ⟨fun hall => ?_, hfinal⟩
  obtain ⟨h₁, info₁, pointee₁, hs₁, hname₁⟩ : ∃ h info pointee, StoresTyped
      (Host.plain, numbered 1 5 (plainEvent EVENT_WRITE 0x4000 0x20000))
      (runEvents { twoVariables with topo := some [] } []) h info pointee ∧ pointee.name = "node" := by
    refine exists_storesTyped "*node" "head" ?_ ?_ ?_ ?_ ?_ ?_ <;>
      decide +kernel
  obtain ⟨h₂, info₂, pointee₂, hs₂, hname₂⟩ : ∃ h info pointee, StoresTyped
      (Host.plain, numbered 2 3 (plainEvent EVENT_WRITE 0x4008 0x20000))
      (runEvents { twoVariables with topo := some [] } (crossStores.take 1)) h info pointee ∧
        pointee.name = "edge" := by
    refine exists_storesTyped "*edge" "link" ?_ ?_ ?_ ?_ ?_ ?_ <;>
      decide +kernel
  have hwins := hall [] _ [] _ [] h₁ info₁ pointee₁ h₂ info₂ pointee₂ rfl hs₁ hs₂ rfl
    (by rw [hname₁, hname₂]; decide) (by simp)
  have htyped := hwins.typed
  rw [hname₂] at htyped
  exact absurd (hfinal.symm.trans htyped) (by decide)

end Cross

end Rtmap.Engine
