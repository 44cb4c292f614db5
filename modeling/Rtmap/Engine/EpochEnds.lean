import Rtmap.Engine.BlockEpochs
import Rtmap.Engine.Displacing
import Rtmap.Engine.WarmPasses

/-!
# Ends of type epochs

The projection of a tracked block ends when a stamp of another type displaces it or its
block is freed or renewed. Some sites of a stamp look at what it displaced and log it,
others do not. `ends_logged` is about the runs in which these displace nothing.
-/
namespace Rtmap.Engine
open Rtmap.Ring

/-- The line closes an epoch of the address. -/
def Line.closesAt (addr : UInt64) : Line → Bool
  | .typeEpochClose _ a .. => a == addr
  | _ => false

/-- The line that closes the epoch of a projection. -/
def closeLine (seq : ℕ) (addr : UInt64) (p : TypeProjection) (reason : CloseReason) : Line :=
  .typeEpochClose seq addr p.typeInfo.name p.sourceName p.stampSeq seq reason

/-- Of the epochs and of the lines one is of the address, and it is the projection's. -/
structure LoggedOnce (epochs : List TypeEpoch) (lines : List Line) (addr : UInt64)
    (p : TypeProjection) : Prop where
  epoch : ∃ size seq reason, epochs.filter (fun e => e.addr == addr) =
    [⟨addr, size, p.typeInfo.name, p.sourceName, p.stampSeq, seq, reason⟩]
  line : ∃ seq reason, lines.filter (Line.closesAt addr) = [closeLine seq addr p reason]

/-- The state in which an input's stamps are made: of an ALLOC when its block is tracked,
of a FREE when the block is gone. -/
def stamping (i : WarmInput) (s : State) : State :=
  match i with
  | .input (.event host ev) =>
      match kindOf ev with
      | .alloc => renewed ev s
      | .free => processEvent host ev s
      | _ => s
  | _ => s

/-- The input ends the projection of a tracked block: a stamp of another type replaces it,
or a FREE or an ALLOC of its base removes it. -/
inductive EndsEpoch (i : WarmInput) (r : WarmEngine) (b : UInt64) (p : TypeProjection) : Prop
  | replaced {q : TypeProjection} :
      ((i.apply r).engine.world.heapAllocs.allocSize b).isSome →
      (stamping i r.engine).world.stm.lookup b = some p →
      (i.apply r).engine.world.stm.lookup b = some q → q.typeInfo.name ≠ p.typeInfo.name →
      EndsEpoch i r b p
  | removed {host : Host} {ev : Event} : i = .input (.event host ev) → ev.addr = b →
      (r.engine.world.heapAllocs.allocSize b).isSome → r.engine.world.stm.lookup b = some p →
      (stamping i r.engine).world.stm.lookup b = none → EndsEpoch i r b p

/-- Each projection that the input ends is logged once among the epochs that the input
closes and among the lines that it adds. -/
def EndsLogged (i : WarmInput) (r : WarmEngine) : Prop :=
  ∃ epochs lines,
    (i.apply r).engine.world.typeEpochs =
      epochs.foldl TypeEpochLog.closeEpoch r.engine.world.typeEpochs ∧
    (i.apply r).engine.closes = r.engine.closes.map (· ++ lines) ∧
    ∀ b p, EndsEpoch i r b p → LoggedOnce epochs lines b p

namespace Write

/-- A WRITE displaces a tracked block's projection out of the reporting's sight: through a
pointer array, or in the replay after its stamp. -/
def drops (host : Host) (ev : Event) (s : State) : Bool :=
  let t := beforeNode host ev s
  s.heapOracle.isHeap ev.addr && s.dwarfInfo.isSome &&
      s.world.stm.takes ev.addr (writeValue ev) ev.size (seqOf ev) s.world.heapAllocs ||
    (pointeeStamp host ev t).any fun x =>
      let r := t.world.stm.stampType ev.value x.pointee x.slot.name (seqOf ev)
      r.2.applied && r.1.replayTakes x.info.typeRegistry t.world.heapAllocs

end Write

namespace Alloc

/-- The stamp of an ALLOC displaces a projection whose epoch the ALLOC has not closed, or
the replay after it displaces. -/
def drops (host : Host) (ev : Event) (s : State) : Bool :=
  let t := renewed ev s
  match s.dwarfInfo, s.relocationDelta with
  | some info, some delta =>
      let pcs := callerPcs ev info delta (s.framesOf ev.threadId)
      (info.allocOracle.resolve (size ev) pcs).any fun ti =>
        let info := info.ensureType host.deep ti.name
        let r := t.world.stm.stampType ev.addr (birthType host info ti) (sourceName pcs) (seqOf ev)
        (ending (host, ev) s).isNone &&
            t.world.stm.displaces ev.addr (birthType host info ti) (seqOf ev) ||
          r.2.applied && r.1.replayTakes info.typeRegistry t.world.heapAllocs
  | _, _ => false

end Alloc

/-- An event lets a stamp whose result it drops displace a tracked block's projection. -/
def eventDrops (host : Host) (ev : Event) (s : State) : Bool :=
  match kindOf ev with
  | .write => Write.drops host ev s
  | .alloc => Alloc.drops host ev s
  | .moduleLoad =>
      match s.relocationDelta, s.dwarfInfo with
      | none, some info =>
          globalsTake s.world.heapAllocs
            (info.globals.map fun g => (g, ev.addr - info.elfBaseVaddr)) s.world.stm
      | _, _ => false
  | _ => false

/-- The merge of the libraries lets a global's stamp displace. -/
def librariesDrop (modtab : List Module) (s : State) : Bool :=
  match s.dwarfInfo with
  | none => false
  | some info =>
      match info.libGlobals.mapM (libDelta modtab) with
      | none => false
      | some deltas =>
          !modtab.isEmpty && globalsTake s.world.heapAllocs ((info.libGlobals.zip deltas).flatMap
            fun d => d.1.globals.map fun g => (g, d.2)) s.world.stm

section Lookups
variable {host : Host} {ev : Event} {s : State} {b : UInt64} {p : TypeProjection}

/-- A lookup that stays shows no other type. -/
theorem typeName_eq {found : Option TypeProjection} {q : TypeProjection} (hp : found = some p)
    (hq : found = some q) : q.typeInfo.name = p.typeInfo.name := by
  rw [hp] at hq
  rw [← Option.some.inj hq]

theorem lookup_spread {registry : Registry} {addr : UInt64} {seq : ℕ}
    (h : s.world.stm.replayTakes registry s.world.heapAllocs = false)
    (hb : (s.world.heapAllocs.allocSize b).isSome) (hp : s.world.stm.lookup b = some p) :
    (Write.spread host registry addr seq s).world.stm.lookup b = some p :=
  ShadowTypeMap.lookup_retrospectiveScan _ _ _ (ShadowTypeMap.lookup_replayDeferred h hb hp)

namespace Write

theorem lookup_deepen {info : DwarfInfo} (hne : b ≠ writeValue ev)
    (hp : s.world.stm.lookup b = some p) :
    (deepen host ev info s).world.stm.lookup b = some p := by
  have hupgrade (info : DwarfInfo) : (upgrade ev info s).world.stm.lookup b = some p := by
    rw [upgrade]
    split
    · exact hp
    · split
      · split
        · exact (ShadowTypeMap.lookup_stampType_ne hne _ _ _).trans hp
        · exact hp
      · exact hp
  have hstamp (t : State) :
      (emitStamp (seqOf ev) (writeValue ev) t).world.stm = t.world.stm := by
    rw [emitStamp]
    split <;> rfl
  rw [deepen, hstamp]
  exact ShadowTypeMap.lookup_retrospectiveScan _ _ _ (hupgrade _)

theorem lookup_propagate
    (h : (s.dwarfInfo.isSome && s.world.stm.takes ev.addr (writeValue ev) ev.size (seqOf ev)
      s.world.heapAllocs) = false)
    (hb : (s.world.heapAllocs.allocSize b).isSome) (hp : s.world.stm.lookup b = some p) :
    (propagate host ev s).world.stm.lookup b = some p := by
  rw [propagate]
  split
  · exact hp
  · rename_i info hinfo
    rw [hinfo, Option.isSome_some, Bool.true_and] at h
    have hkept := @ShadowTypeMap.lookup_propagateFieldWrite s.world.stm ev.addr (writeValue ev) b
      ev.size (seqOf ev) s.world.heapAllocs info.typeRegistry p h hb hp
    dsimp only
    split
    · rename_i happlied
      refine lookup_deepen ?_ hkept
      rintro rfl
      have hnone := ShadowTypeMap.lookup_of_propagated happlied h hb
      rw [hp] at hnone
      cases hnone
    · split
      · exact hkept
      · exact hkept

/-- Up to the lookup of the variable a WRITE that drops nothing leaves the projections of
the tracked blocks. -/
theorem lookup_beforeNode
    (h : (s.heapOracle.isHeap ev.addr && s.dwarfInfo.isSome &&
      s.world.stm.takes ev.addr (writeValue ev) ev.size (seqOf ev) s.world.heapAllocs) = false)
    (hb : (s.world.heapAllocs.allocSize b).isSome) (hp : s.world.stm.lookup b = some p) :
    (beforeNode host ev s).world.stm.lookup b = some p := by
  obtain ⟨regs, hregistered⟩ := registered_eq ev (countEvent s)
  have hbefore : beforeNode host ev s = heap host ev (registered ev (countEvent s)) := rfl
  rw [hbefore, hregistered, heap]
  split
  · rename_i hheap
    have hheap' : s.heapOracle.isHeap ev.addr = true := hheap
    rw [hheap', Bool.true_and] at h
    rw [stm_bounds]
    obtain ⟨vs, topo, hfields⟩ := fields_eq ev (graph ev { countEvent s with
      world := { (countEvent s).world with clTracker :=
        (ClTracker.recordWrite (countEvent s).world.clTracker ev.addr ev.threadId).1 }
      shadowRegs := regs })
    rw [hfields]
    exact lookup_propagate h hb hp
  · exact hp

theorem world_report (newType newSource : String) (r : StampResult) :
    (report ev newType newSource r s).world.heapAllocs = s.world.heapAllocs :=
  congrArg Kept.heapAllocs (kept_report ev s newType newSource r)

/-- The stamp of a WRITE leaves the other projections of the tracked blocks where its
replay displaces nothing, and its own address where it displaces nothing. -/
theorem lookup_stampVariable {name : String} {registry : Registry} {pointee : TypeInfo}
    (h : ((s.world.stm.stampType ev.value pointee name (seqOf ev)).2.applied &&
      (s.world.stm.stampType ev.value pointee name (seqOf ev)).1.replayTakes registry
        s.world.heapAllocs) = false)
    (hb : (s.world.heapAllocs.allocSize b).isSome) (hp : s.world.stm.lookup b = some p)
    (hkept : b = ev.value → s.world.stm.displaces ev.value pointee (seqOf ev) = false) :
    (stampVariable host ev name registry pointee s).world.stm.lookup b = some p := by
  have hstamp := ShadowTypeMap.lookup_stampType_kept name hkept hp
  rw [stampVariable]
  split
  · rename_i happlied
    rw [happlied, Bool.true_and] at h
    rw [stm_emit]
    refine lookup_spread ?_ ?_ ?_
    · rw [stm_report, world_report]
      exact h
    · rw [world_report]
      exact hb
    · rw [stm_report]
      exact hstamp
  · rw [stm_report]
    exact hstamp

/-- A WRITE that replaces the projection of a tracked block and drops nothing displaces it
by the stamp at its variable. -/
theorem displaces_of_replaced {q : TypeProjection} (h : drops host ev s = false)
    (hb : (s.world.heapAllocs.allocSize b).isSome) (hp : s.world.stm.lookup b = some p)
    (hq : (node host ev (beforeNode host ev s)).world.stm.lookup b = some q)
    (hname : q.typeInfo.name ≠ p.typeInfo.name) :
    b = ev.value ∧ displaces host ev (beforeNode host ev s) = some p := by
  rw [drops, Bool.or_eq_false_iff] at h
  obtain ⟨hheap, hnode⟩ := h
  have hp' := @lookup_beforeNode host ev s b p hheap hb hp
  have hb' : ((beforeNode host ev s).world.heapAllocs.allocSize b).isSome := by
    obtain ⟨g, m, hs, vs, info, regs, topo, hbefore⟩ := beforeNode_eq host ev s
    rw [hbefore]
    exact hb
  have hspec := node_spec host ev (beforeNode host ev s)
  rw [displaces_pointeeStamp]
  cases hstamp : pointeeStamp host ev (beforeNode host ev s) with
  | none =>
      simp only [hstamp] at hspec
      have hsame := of_core World.stm hspec.1
      rw [hsame] at hq
      exact absurd (typeName_eq hp' hq) hname
  | some x =>
      simp only [hstamp] at hspec
      obtain ⟨t, l, hcore, -, -, hlast⟩ := hspec
      have hstm := of_core World.stm hcore
      have hallocs := of_core World.heapAllocs hcore
      simp only [hstamp, Option.any_some] at hnode
      rw [← hstm, ← hallocs] at hnode
      rw [← hallocs] at hb'
      rw [← hstm] at hp'
      rw [hlast, stm_emit] at hq
      by_cases hkept : b = ev.value → t.world.stm.displaces ev.value x.pointee (seqOf ev) = false
      · exact absurd (typeName_eq (lookup_stampVariable hnode hb' hp' hkept) hq) hname
      · rw [Classical.not_imp, Bool.not_eq_false] at hkept
        obtain ⟨hvalue, hdisplaces⟩ := hkept
        refine ⟨hvalue, ?_⟩
        rw [ShadowTypeMap.displaces, ← hvalue, hp'] at hdisplaces
        rw [Option.bind_some, ← hstm, ← hvalue, hp']
        have hcond := (Bool.and_eq_true_iff.mp hdisplaces).2
        exact Option.filter_eq_some_iff.mpr ⟨rfl, hcond⟩

end Write

namespace Alloc

theorem lookup_stampBlock {source : String} {registry : Registry} {ti : TypeInfo}
    (h : ((s.world.stm.stampType ev.addr ti source (seqOf ev)).2.applied &&
      (s.world.stm.stampType ev.addr ti source (seqOf ev)).1.replayTakes registry
        s.world.heapAllocs) = false)
    (hb : (s.world.heapAllocs.allocSize b).isSome) (hp : s.world.stm.lookup b = some p)
    (hkept : b = ev.addr → s.world.stm.displaces ev.addr ti (seqOf ev) = false) :
    (stampBlock host ev source registry ti s).world.stm.lookup b = some p := by
  have hstamp := ShadowTypeMap.lookup_stampType_kept source hkept hp
  rw [stampBlock]
  split
  · rename_i happlied
    rw [happlied, Bool.true_and] at h
    exact lookup_spread h hb hstamp
  · exact hstamp

theorem lookup_of_renewed (hp : (renewed ev s).world.stm.lookup b = some p) :
    s.world.stm.lookup b = some p := by
  rcases stm_track ev (countEvent s) with hsame | ⟨old, hpurged⟩
  · rw [renewed, hsame] at hp
    exact hp
  · rw [renewed, hpurged] at hp
    exact (SortedMap.get?_retain_eq_some.mp hp).1

/-- An ALLOC that replaces the projection of a tracked block and drops nothing closes its
epoch. -/
theorem ending_of_replaced {q : TypeProjection} (hkind : kindOf ev = .alloc)
    (h : drops host ev s = false) (hb : ((renewed ev s).world.heapAllocs.allocSize b).isSome)
    (hp : (renewed ev s).world.stm.lookup b = some p)
    (hq : (stampBirth host ev (renewed ev s)).world.stm.lookup b = some q)
    (hname : q.typeInfo.name ≠ p.typeInfo.name) : ending (host, ev) s = some (b, p) := by
  have hsame (hkept : (stampBirth host ev (renewed ev s)).world.stm.lookup b = some p) : False :=
    hname (typeName_eq hkept hq)
  obtain ⟨m, allocs, log, g, topo, htrack⟩ := track_eq ev (countEvent s)
  have hinfo : (renewed ev s).dwarfInfo = s.dwarfInfo := by rw [renewed, htrack]; rfl
  have hdelta : (renewed ev s).relocationDelta = s.relocationDelta := by rw [renewed, htrack]; rfl
  have hframes : (renewed ev s).framesOf ev.threadId = s.framesOf ev.threadId := by
    rw [renewed, htrack]
    rfl
  rw [stampBirth, hinfo, hdelta, hframes] at hsame
  rw [drops] at h
  cases hdwarf : s.dwarfInfo with
  | none =>
      simp only [hdwarf] at hsame
      exact (hsame hp).elim
  | some info =>
      cases hrelocated : s.relocationDelta with
      | none =>
          simp only [hdwarf, hrelocated] at hsame
          exact (hsame hp).elim
      | some delta =>
          simp only [hdwarf, hrelocated] at hsame h
          cases horacle : info.allocOracle.resolve (size ev)
              (callerPcs ev info delta (s.framesOf ev.threadId)) with
          | none =>
              simp only [horacle] at hsame
              exact (hsame hp).elim
          | some ti =>
              simp only [horacle, Option.any_some, Bool.or_eq_false_iff] at hsame h
              obtain ⟨hbirth, hreplay⟩ := h
              by_cases hkept : b = ev.addr → (renewed ev s).world.stm.displaces ev.addr
                  (birthType host (info.ensureType host.deep ti.name) ti) (seqOf ev) = false
              · exact (hsame (lookup_stampBlock hreplay hb hp hkept)).elim
              · rw [Classical.not_imp, Bool.not_eq_false] at hkept
                obtain ⟨rfl, hdisplaces⟩ := hkept
                rw [hdisplaces, Bool.and_true, Option.isNone_eq_false_iff] at hbirth
                obtain ⟨x, hx⟩ := Option.isSome_iff_exists.mp hbirth
                have hfound := lookup_of_renewed hp
                rw [hx]
                simp only [ending, hkind, hfound] at hx
                split at hx
                · split at hx
                  · cases hx
                  · exact hx.symm
                · cases hx

end Alloc

/-- A kind of event that stamps and purges nothing leaves the type map. -/
theorem stm_processEvent_of_other (hwrite : kindOf ev ≠ .write) (halloc : kindOf ev ≠ .alloc)
    (hfree : kindOf ev ≠ .free) (hload : kindOf ev ≠ .moduleLoad) :
    (processEvent host ev s).world.stm = s.world.stm := by
  rw [processEvent, processKind]
  cases hkind : kindOf ev with
  | write => exact absurd hkind hwrite
  | alloc => exact absurd hkind halloc
  | free => exact absurd hkind hfree
  | moduleLoad => exact absurd hkind hload
  | call => exact (of_core World.stm (core_processCall host ev (countEvent s)) :)
  | ret => exact (of_core World.stm (core_processReturn ev (countEvent s)) :)
  | _ => rfl

theorem lookup_moduleLoad (hkind : kindOf ev = .moduleLoad) (h : eventDrops host ev s = false)
    (hb : (s.world.heapAllocs.allocSize b).isSome) (hp : s.world.stm.lookup b = some p) :
    (processEvent host ev s).world.stm.lookup b = some p := by
  simp only [eventDrops, hkind] at h
  simp only [processEvent, processKind, hkind, processModuleLoad]
  cases hdelta : s.relocationDelta with
  | some delta =>
      have hdelta' : (countEvent s).relocationDelta = some delta := hdelta
      simp only [hdelta']
      exact hp
  | none =>
      have hdelta' : (countEvent s).relocationDelta = none := hdelta
      cases hinfo : s.dwarfInfo with
      | none =>
          have hinfo' : (countEvent s).dwarfInfo = none := hinfo
          simp only [hdelta', hinfo']
          exact hp
      | some info =>
          have hinfo' : (countEvent s).dwarfInfo = some info := hinfo
          simp only [hdelta, hinfo] at h
          simp only [hdelta', hinfo', populateGlobals]
          have hkept := lookup_populated true hb _ 0 ({}, (countEvent s).world) h hp
          rw [List.zipIdx_map, List.foldl_map] at hkept
          exact hkept

/-- The projection that a stamp of an event replaces is the one that the event reports, if
it drops nothing. -/
theorem ending_of_event_replaces {q : TypeProjection} (h : eventDrops host ev s = false)
    (hb : ((processEvent host ev s).world.heapAllocs.allocSize b).isSome)
    (hp : (stamping (.input (.event host ev)) s).world.stm.lookup b = some p)
    (hq : (processEvent host ev s).world.stm.lookup b = some q)
    (hname : q.typeInfo.name ≠ p.typeInfo.name) : ending (host, ev) s = some (b, p) := by
  have hsame (hkept : (processEvent host ev s).world.stm.lookup b = some p) : False :=
    hname (typeName_eq hkept hq)
  cases hkind : kindOf ev with
  | write =>
      simp only [stamping, hkind] at hp
      simp only [eventDrops, hkind] at h
      simp only [heapAllocs_processEvent, hkind] at hb
      rw [processEvent_write host ev s hkind] at hq
      obtain ⟨rfl, hdisplaces⟩ := Write.displaces_of_replaced h hb hp hq hname
      simp only [ending, hkind, hb, if_true, hdisplaces, Option.map_some]
  | alloc =>
      simp only [stamping, hkind] at hp
      simp only [eventDrops, hkind] at h
      have hevent : processEvent host ev s = Alloc.stampBirth host ev (renewed ev s) := by
        simp only [processEvent, processKind, hkind, processAlloc]
        rfl
      have hkept : (Alloc.stampBirth host ev (renewed ev s)).world.heapAllocs =
          (renewed ev s).world.heapAllocs :=
        congrArg Kept.heapAllocs (Alloc.kept_stampBirth host ev (renewed ev s))
      rw [hevent] at hq
      rw [hevent, hkept] at hb
      exact Alloc.ending_of_replaced hkind h hb hp hq hname
  | free =>
      simp only [stamping, hkind] at hp
      exact (hsame hp).elim
  | moduleLoad =>
      simp only [stamping, hkind] at hp
      simp only [heapAllocs_processEvent, hkind] at hb
      exact (hsame (lookup_moduleLoad hkind h hb hp)).elim
  | _ =>
      simp only [stamping, hkind] at hp
      refine (hsame ?_).elim
      rw [stm_processEvent_of_other (by simp [hkind]) (by simp [hkind]) (by simp [hkind])
        (by simp [hkind])]
      exact hp

/-- A FREE or an ALLOC that removes the projection of its block reports it. -/
theorem ending_of_event_removes (hb : (s.world.heapAllocs.allocSize ev.addr).isSome)
    (hp : s.world.stm.lookup ev.addr = some p)
    (hgone : (stamping (.input (.event host ev)) s).world.stm.lookup ev.addr = none) :
    ending (host, ev) s = some (ev.addr, p) := by
  obtain ⟨old, hold⟩ := Option.isSome_iff_exists.mp hb
  cases hkind : kindOf ev with
  | free => simp only [ending, hkind, hp, Option.map_some]
  | alloc =>
      simp only [stamping, hkind] at hgone
      have hne : old ≠ Alloc.size ev := by
        intro hsize
        have hsame : (renewed ev s).world.stm = s.world.stm := by
          have hrecord : (Alloc.record ev (countEvent s)).2 = some (Alloc.size ev) := hsize ▸ hold
          rw [renewed, Alloc.track, if_pos hrecord]
          rfl
        rw [hsame, hp] at hgone
        cases hgone
      simp only [ending, hkind, hold, if_neg hne, hp, Option.map_some]
  | _ =>
      simp only [stamping, hkind] at hgone
      rw [hp] at hgone
      cases hgone

/-- What an event that drops nothing ends is what it reports. -/
theorem ending_of_ends {r : WarmEngine} (h : eventDrops host ev r.engine = false)
    (hends : EndsEpoch (.input (.event host ev)) r b p) :
    ending (host, ev) r.engine = some (b, p) := by
  cases hends with
  | replaced hb hp hq hname => exact ending_of_event_replaces h hb hp hq hname
  | removed hevent haddr hb hp hgone =>
      obtain ⟨-, rfl⟩ := Input.event.inj (WarmInput.input.inj hevent)
      subst haddr
      exact ending_of_event_removes hb hp hgone

end Lookups

section Closes
variable {host : Host} {ev : Event} {s : State}

theorem closes_emit_of_not {l : Line} (h : l.isClose = false) : (s.emit l).closes = s.closes :=
  linesOf_emit_of_not h

theorem closes_emit {l : Line} (h : l.isClose = true) :
    (s.emit l).closes = s.closes.map (· ++ [l]) := linesOf_emit h

theorem closes_append_nil (s : State) : s.closes = s.closes.map (· ++ []) := by
  cases s.closes <;> simp

namespace Write

/-- A stamp reports what it displaces with one closing line. -/
theorem closes_stampVariable (name : String) (registry : Registry) (pointee : TypeInfo) :
    ∃ reason, (stampVariable host ev name registry pointee s).closes = s.closes.map (· ++
      ((s.world.stm.stampType ev.value pointee name (seqOf ev)).2.displaced.map fun old =>
        Line.typeEpochClose (seqOf ev) ev.value old.type old.source old.stampSeq (seqOf ev)
          reason).toList) := by
  have hlog (old : OldStamp) (t : State) : (logSchism ev old t).closes = t.closes := by
    rw [logSchism]
    split <;> rfl
  have hclose (reason : CloseReason) (old : OldStamp) (t : State) :
      (closeSchism ev pointee.name name reason old t).closes = t.closes.map (· ++
        [.typeEpochClose (seqOf ev) ev.value old.type old.source old.stampSeq (seqOf ev)
          reason]) := by
    rw [closeSchism, closes_emit rfl, closes_emit_of_not rfl, hlog]
  let r := s.world.stm.stampType ev.value pointee name (seqOf ev)
  let stamped : State := s.withStm fun _ => r.1
  have hvariable : (stampVariable host ev name registry pointee s).closes =
      (report ev pointee.name name r.2 stamped).closes := by
    rw [stampVariable]
    split
    · exact closes_emit_of_not rfl
    · rfl
  have hreport : ∃ reason, (report ev pointee.name name r.2 stamped).closes =
      stamped.closes.map (· ++ (r.2.displaced.map fun old => Line.typeEpochClose (seqOf ev) ev.value
        old.type old.source old.stampSeq (seqOf ev) reason).toList) := by
    cases r.2 with
    | schism old => exact ⟨.schism, hclose .schism old stamped⟩
    | poolReuse old => exact ⟨.poolReuse, hclose .poolReuse old stamped⟩
    | _ => exact ⟨.schism, closes_append_nil stamped⟩
  obtain ⟨reason, hlines⟩ := hreport
  exact ⟨reason, hvariable.trans hlines⟩

theorem closes_node : ∃ reason, (node host ev s).closes = s.closes.map (· ++
    ((displaces host ev s).map fun p => closeLine (seqOf ev) ev.value p reason).toList) := by
  have hspec := node_spec host ev s
  rw [displaces_pointeeStamp]
  cases hstamp : pointeeStamp host ev s with
  | none =>
      simp only [hstamp] at hspec
      exact ⟨.schism, hspec.2.trans (closes_append_nil s)⟩
  | some x =>
      simp only [hstamp] at hspec
      obtain ⟨t, l, hcore, htopo, ⟨hl, -⟩, hlast⟩ := hspec
      obtain ⟨reason, hlines⟩ := @closes_stampVariable host ev t x.slot.name x.info.typeRegistry
        x.pointee
      refine ⟨reason, ?_⟩
      have hcloses : t.closes = s.closes := by rw [State.closes, State.linesOf, htopo]; rfl
      rw [hlast, closes_emit_of_not hl, hlines, displaced_stampType _ (value_ne_zero hstamp),
        of_core World.stm hcore, Option.bind_some, Option.map_map, hcloses]
      rfl

end Write

theorem closes_closeEpoch (size : UInt64) (reason : EpochClose) (line : CloseReason) :
    (Alloc.closeEpoch ev size reason line s).closes = s.closes.map (· ++
      ((s.world.stm.lookup ev.addr).map fun p => closeLine (seqOf ev) ev.addr p line).toList) := by
  rw [Alloc.closeEpoch]
  split
  · rename_i hnone
    rw [hnone]
    exact closes_append_nil s
  · rename_i p hp
    rw [hp]
    exact closes_emit rfl

theorem closes_stampBirth : (Alloc.stampBirth host ev s).closes = s.closes := by
  rw [Alloc.stampBirth]
  split
  · dsimp only
    split
    · rfl
    · rw [Alloc.stampBlock]
      split
      · exact closes_emit_of_not rfl
      · rfl
  · rfl

/-- The projection whose end an event reports, tracked or not. -/
def announced (e : HostEvent) (s : State) : Option (UInt64 × TypeProjection) :=
  match kindOf e.2 with
  | .write => (Write.displaces e.1 e.2 (beforeNode e.1 e.2 s)).map fun p => (e.2.value, p)
  | _ => ending e s

theorem announced_of_ending {e : HostEvent} {x : UInt64 × TypeProjection}
    (h : ending e s = some x) : announced e s = some x := by
  rw [announced]
  split
  · rename_i hkind
    simp only [ending, hkind] at h
    split at h
    · exact h
    · cases h
  · exact h

theorem closes_processWrite (hkind : kindOf ev = .write) : ∃ reason,
    (processEvent host ev s).closes = s.closes.map (· ++
      ((announced (host, ev) s).map fun x => closeLine (seqOf ev) x.1 x.2 reason).toList) := by
  obtain ⟨reason, hnode⟩ := @Write.closes_node host ev (beforeNode host ev s)
  refine ⟨reason, ?_⟩
  have hbefore : (beforeNode host ev s).closes = s.closes := by
    have hheap := @Write.linesOf_heap Line.isClose host ev
      (Write.cohere ev (Write.recordLine ev (countEvent s)).2
        (Write.observe ev (Write.recordLine ev (countEvent s)).1))
      (fun l hl _ => by cases l <;> first | rfl | cases hl)
      fun l hl _ => by cases l <;> first | rfl | cases hl
    exact hheap.trans ((Write.linesOf_cohere _).trans Write.linesOf_observe)
  rw [processEvent_write host ev s hkind, hnode, hbefore, announced]
  simp only [hkind, Option.map_map]
  rfl

theorem closes_processAlloc (hkind : kindOf ev = .alloc) :
    (processEvent host ev s).closes = s.closes.map (· ++
      ((announced (host, ev) s).map fun x => closeLine (seqOf ev) x.1 x.2 .realloc).toList) := by
  have hevent : (processEvent host ev s).closes = (renewed ev s).closes := by
    simp only [processEvent, processKind, hkind, processAlloc]
    exact closes_stampBirth
  have hold : (Alloc.record ev (countEvent s)).2 = s.world.heapAllocs.allocSize ev.addr := rfl
  rw [hevent, announced, renewed, Alloc.track, hold]
  simp only [hkind, ending]
  cases s.world.heapAllocs.allocSize ev.addr with
  | none => exact (closes_emit_of_not rfl).trans (closes_append_nil s)
  | some old =>
      by_cases hsize : old = Alloc.size ev
      · simp only [hsize, if_true]
        exact closes_append_nil s
      · have hne : ¬ some old = some (Alloc.size ev) := fun heq => hsize (Option.some.inj heq)
        simp only [if_neg hne, if_neg hsize, Option.map_map]
        refine (closes_emit_of_not rfl).trans ?_
        exact @closes_closeEpoch ev (Alloc.record ev (countEvent s)).1 old .realloc .realloc

theorem closes_processFree (hkind : kindOf ev = .free) :
    (processEvent host ev s).closes = s.closes.map (· ++
      ((announced (host, ev) s).map fun x => closeLine (seqOf ev) x.1 x.2 .free).toList) := by
  rw [announced]
  simp only [processEvent, processKind, hkind, processFree, ending, Option.map_map]
  have hclose (size : UInt64) (allocs : HeapAllocTracker) :=
    @closes_closeEpoch ev { countEvent s with
      world := { (countEvent s).world with heapAllocs := allocs } } size .free .free
  split
  · exact (closes_emit_of_not rfl).trans (hclose _ _)
  · split
    · exact hclose _ _
    · rename_i hnone
      have hnone' : s.world.stm.lookup ev.addr = none := hnone
      rw [hnone']
      exact closes_append_nil s

/-- The other kinds of events close no epoch. -/
theorem closes_of_other (hwrite : kindOf ev ≠ .write) (halloc : kindOf ev ≠ .alloc)
    (hfree : kindOf ev ≠ .free) :
    announced (host, ev) s = none ∧ (processEvent host ev s).closes = s.closes := by
  cases hkind : kindOf ev with
  | write => exact absurd hkind hwrite
  | alloc => exact absurd hkind halloc
  | free => exact absurd hkind hfree
  | call =>
      refine ⟨by simp only [announced, hkind, ending], ?_⟩
      simp only [processEvent, processKind, hkind, processCall]
      split <;> rfl
  | ret =>
      refine ⟨by simp only [announced, hkind, ending], ?_⟩
      have hretire (fid : FrameId) (t : State) : (retireFrame fid t).closes = t.closes := by
        rw [retireFrame]
        split
        · split <;> rfl
        · rfl
      simp only [processEvent, processKind, hkind, processReturn]
      split
      · rfl
      · split
        · rfl
        · exact hretire ..
  | moduleLoad =>
      refine ⟨by simp only [announced, hkind, ending], ?_⟩
      simp only [processEvent, processKind, hkind, processModuleLoad]
      split <;> rfl
  | _ =>
      refine ⟨by simp only [announced, hkind, ending], ?_⟩
      simp only [processEvent, processKind, hkind]
      rfl

/-- An event adds one closing line, of the end that it reports. -/
theorem closes_processEvent (host : Host) (ev : Event) (s : State) : ∃ reason,
    (processEvent host ev s).closes = s.closes.map (· ++
      ((announced (host, ev) s).map fun x => closeLine (seqOf ev) x.1 x.2 reason).toList) := by
  by_cases hwrite : kindOf ev = .write
  · exact closes_processWrite hwrite
  · by_cases halloc : kindOf ev = .alloc
    · exact ⟨.realloc, closes_processAlloc halloc⟩
    · by_cases hfree : kindOf ev = .free
      · exact ⟨.free, closes_processFree hfree⟩
      · obtain ⟨hnone, hsame⟩ := @closes_of_other host ev s hwrite halloc hfree
        refine ⟨.free, ?_⟩
        rw [hsame, hnone]
        exact closes_append_nil s

/-- An event that drops nothing logs the ends that it makes. -/
theorem endsLogged_event {r : WarmEngine} (h : eventDrops host ev r.engine = false) :
    EndsLogged (.input (.event host ev)) r := by
  obtain ⟨reason, hlines⟩ := closes_processEvent host ev r.engine
  refine ⟨(recorded (host, ev) r.engine).toList, _, ?_, hlines, fun b p hends => ?_⟩
  · refine (typeEpochs_processEvent (host, ev) r.engine).trans ?_
    cases recorded (host, ev) r.engine <;> rfl
  · have hending := ending_of_ends h hends
    rw [recorded, hending, announced_of_ending hending]
    refine ⟨⟨_, _, _, List.filter_eq_self.mpr ?_⟩, ⟨_, _, List.filter_eq_self.mpr ?_⟩⟩
    · simp
    · simp [closeLine, Line.closesAt]

end Closes

section Libraries
variable {s : State} {b : UInt64} {p : TypeProjection}

theorem populates_logs (allocs : HeapAllocTracker) (log : TypeEpochLog) :
    Populates fun _ w => w.heapAllocs = allocs ∧ w.typeEpochs = log where
  register replace _ w addr size name ti id _ h := by
    have hrenewed : (if replace then w.removeNode id else w).core = w.core := by
      cases replace <;> rfl
    have hcore := (core_ensureNode _ id name ti addr size).trans hrenewed
    exact ⟨(of_core World.heapAllocs hcore).trans h.1, (of_core World.typeEpochs hcore).trans h.2⟩
  types _ _ _ h := h
  sort _ _ _ h := h

theorem lookup_libraries (host : Host) {modtab : List Module} (h : librariesDrop modtab s = false)
    (hb : (s.world.heapAllocs.allocSize b).isSome) (hp : s.world.stm.lookup b = some p) :
    (populateLibGlobals host modtab s).1.world.stm.lookup b = some p := by
  rw [populateLibGlobals]
  split
  · exact hp
  · rename_i info hinfo
    simp only [librariesDrop, hinfo] at h
    split
    · exact hp
    · rename_i hmodules
      rw [Bool.not_eq_true] at hmodules
      split
      · exact hp
      · rename_i deltas hdeltas
        simp only [hdeltas, hmodules, Bool.not_false, Bool.true_and] at h
        exact lookup_populated false hb _ info.globals.length (s.addrIndex, s.world) h hp

theorem endsLogged_libraries {r : WarmEngine} {modtab : List Module} (host : Host)
    (h : librariesDrop modtab r.engine = false) :
    EndsLogged (.input (.libraries host modtab)) r := by
  have hlogs := (populates_logs r.engine.world.heapAllocs r.engine.world.typeEpochs).libGlobals host
    modtab ⟨rfl, rfl⟩
  refine ⟨[], [], hlogs.2, ?_, fun b p hends => ?_⟩
  · have htopo : (populateLibGlobals host modtab r.engine).1.topo = r.engine.topo := by
      rw [populateLibGlobals]
      split
      · rfl
      · split
        · rfl
        · split <;> rfl
    refine Eq.trans ?_ (closes_append_nil r.engine)
    exact congrArg (fun t : Topology => t.map fun ls => ls.filter Line.isClose) htopo
  · cases hends with
    | replaced hb hp hq hname =>
        have hb' : (r.engine.world.heapAllocs.allocSize b).isSome := hlogs.1 ▸ hb
        have hkept := lookup_libraries host h hb' hp
        exact absurd (typeName_eq hkept hq) hname
    | removed hevent => cases hevent

end Libraries

end Rtmap.Engine
