import Rtmap.Engine.LastStamp
import Rtmap.Lib.RingLog

/-!
# The log of type epochs

An epoch opens under the number of the event that stamped the type and closes
under that of the event that ended it, each a number of its own thread. `ending`
is the projection that an event ends; `epochs_exact_iff` says of which numbers the
log can be queried.
-/
namespace Rtmap.Engine
open Rtmap.Ring Transition

namespace TypeEpochLog

def ring (log : TypeEpochLog) : RingLog TypeEpoch := ⟨log.buf, log.cap, log.head⟩

/-- `iter`: from the oldest epoch to the newest. -/
def iter (log : TypeEpochLog) : List TypeEpoch :=
  if log.buf.length < log.cap then log.buf else log.buf.drop log.head ++ log.buf.take log.head

/-- The epoch spans the number at the address. -/
def spans (addr : UInt64) (seq : ℕ) (e : TypeEpoch) : Bool :=
  e.addr == addr && seq ≥ e.openSeq && seq < e.closeSeq

/-- `query`. -/
def query (log : TypeEpochLog) (addr : UInt64) (seq : ℕ) : Option TypeEpoch :=
  log.iter.find? (spans addr seq)

end TypeEpochLog

/-- Epochs in the order they were recorded: none closes before it opens, and at one
address none opens before the ones recorded earlier have closed. -/
structure Chained (epochs : List TypeEpoch) : Prop where
  lived : ∀ e ∈ epochs, e.openSeq ≤ e.closeSeq
  apart : epochs.Pairwise fun a b => a.addr = b.addr → a.closeSeq ≤ b.openSeq

/-- The number under which the last epoch of the address closed. -/
def lastClose (epochs : List TypeEpoch) (addr : UInt64) : ℕ :=
  epochs.foldl (fun n e => if e.addr = addr then e.closeSeq else n) 0

section Chain
variable {epochs : List TypeEpoch} {e : TypeEpoch}

theorem Chained.sublist (h : Chained epochs) {part : List TypeEpoch} (hpart : part.Sublist epochs) :
    Chained part where
  lived x hx := h.lived x (hpart.mem hx)
  apart := h.apart.sublist hpart

theorem lastClose_snoc (epochs : List TypeEpoch) (e : TypeEpoch) (addr : UInt64) :
    lastClose (epochs ++ [e]) addr =
      if e.addr = addr then e.closeSeq else lastClose epochs addr := by
  rw [lastClose, List.foldl_append]
  rfl

/-- In a chain the last close is the highest one. -/
theorem lastClose_le_iff (h : Chained epochs) (addr : UInt64) (n : ℕ) :
    lastClose epochs addr ≤ n ↔ ∀ x ∈ epochs, x.addr = addr → x.closeSeq ≤ n := by
  induction epochs using List.reverseRecOn with
  | nil => simp [lastClose]
  | append_singleton epochs e ih =>
      have hfront := ih (h.sublist (List.sublist_append_left ..))
      have hcross := (List.pairwise_append.mp h.apart).2.2
      have hlived := h.lived e (by simp)
      rw [lastClose_snoc]
      split
      · rename_i haddr
        constructor
        · intro hle x hx hxaddr
          rcases List.mem_append.mp hx with hx | hx
          · have hxe := hcross x hx e (List.mem_singleton_self e) (hxaddr.trans haddr.symm)
            omega
          · obtain rfl := List.mem_singleton.mp hx
            exact hle
        · exact fun hall => hall e (by simp) haddr
      · rename_i haddr
        rw [hfront]
        constructor
        · intro hall x hx hxaddr
          rcases List.mem_append.mp hx with hx | hx
          · exact hall x hx hxaddr
          · obtain rfl := List.mem_singleton.mp hx
            exact absurd hxaddr haddr
        · exact fun hall x hx => hall x (List.mem_append_left _ hx)

theorem chained_snoc (h : Chained epochs) :
    Chained (epochs ++ [e]) ↔ lastClose epochs e.addr ≤ e.openSeq ∧ e.openSeq ≤ e.closeSeq := by
  rw [lastClose_le_iff h]
  constructor
  · intro hall
    have hcross := (List.pairwise_append.mp hall.apart).2.2
    exact ⟨fun x hx haddr => hcross x hx e (List.mem_singleton_self e) haddr,
      hall.lived e (by simp)⟩
  · rintro ⟨hbefore, hlived⟩
    constructor
    · intro x hx
      rcases List.mem_append.mp hx with hx | hx
      · exact h.lived x hx
      · obtain rfl := List.mem_singleton.mp hx
        exact hlived
    · refine List.pairwise_append.mpr ⟨h.apart, List.pairwise_singleton .., ?_⟩
      intro x hx y hy haddr
      obtain rfl := List.mem_singleton.mp hy
      exact hbefore x hx haddr

/-- Of the epochs of a chain only one spans a number at an address. -/
theorem Chained.find_spans (h : Chained epochs) (he : e ∈ epochs) {seq : ℕ}
    (hopen : e.openSeq ≤ seq) (hclose : seq < e.closeSeq) :
    epochs.find? (TypeEpochLog.spans e.addr seq) = some e := by
  have hspan : TypeEpochLog.spans e.addr seq e = true := by
    simp [TypeEpochLog.spans, hopen, hclose]
  induction epochs with
  | nil => cases he
  | cons x xs ih =>
      rcases List.mem_cons.mp he with rfl | hxs
      · rw [List.find?_cons_of_pos hspan]
      · have hlater := (List.pairwise_cons.mp h.apart).1 e hxs
        have hnot : ¬ TypeEpochLog.spans e.addr seq x = true := by
          intro hx
          simp only [TypeEpochLog.spans, Bool.and_eq_true, beq_iff_eq, decide_eq_true_eq] at hx
          have hle := hlater hx.1.1
          omega
        rw [List.find?_cons_of_neg hnot]
        exact ih (h.sublist (List.sublist_cons_self ..)) hxs

end Chain

/-- A line that closes an epoch. -/
def Line.isClose : Line → Bool
  | .typeEpochClose .. => true
  | _ => false

/-- The closing lines of the stream. -/
def State.closes (s : State) : Option (List Line) := s.linesOf Line.isClose

/-- What a WRITE found at a pointer variable stamps its value with. -/
structure PointeeStamp where
  slot : Interval
  info : DwarfInfo
  pointee : TypeInfo

section Ending

/-- The projection that a WRITE displaces when its variable is looked up: it stores
a heap address in a pointer variable, and the address has another type, of a stamp
that is not younger. -/
def Write.displaces (host : Host) (ev : Event) (s : State) : Option TypeProjection :=
  (s.addrIndex.lookup host.orders ev.addr).2.bind fun h =>
    if h.typeInfo.isPointer && ev.size == 8 && ev.value != 0 && s.heapOracle.isHeap ev.value then
      (s.dwarfInfo.bind fun info =>
        Write.pointeeType host h.typeInfo.name (Write.pointeeInfo host h.typeInfo.name info)).bind
          fun pointee => (s.world.stm.lookup ev.value).filter fun p =>
            pointee.byteSize != 0 && p.typeInfo.name != pointee.name && p.stampSeq ≤ seqOf ev
    else none

/-- The stamp of a WRITE at the variable it writes. -/
def Write.pointeeStamp (host : Host) (ev : Event) (s : State) : Option PointeeStamp :=
  (s.addrIndex.lookup host.orders ev.addr).2.bind fun h =>
    if h.typeInfo.isPointer && ev.size == 8 && ev.value != 0 && s.heapOracle.isHeap ev.value then
      s.dwarfInfo.bind fun info =>
        (pointeeType host h.typeInfo.name (pointeeInfo host h.typeInfo.name info)).map
          fun pointee => ⟨h, pointeeInfo host h.typeInfo.name info, pointee⟩
    else none

/-- The projection whose epoch the event ends, and its address. -/
def ending (e : HostEvent) (s : State) : Option (UInt64 × TypeProjection) :=
  match kindOf e.2 with
  | .write =>
      if (s.world.heapAllocs.allocSize e.2.value).isSome then
        (Write.displaces e.1 e.2 (beforeNode e.1 e.2 s)).map fun p => (e.2.value, p)
      else none
  | .alloc =>
      match s.world.heapAllocs.allocSize e.2.addr with
      | some old =>
          if old = Alloc.size e.2 then none
          else (s.world.stm.lookup e.2.addr).map fun p => (e.2.addr, p)
      | none => none
  | .free => (s.world.stm.lookup e.2.addr).map fun p => (e.2.addr, p)
  | _ => none

def closeReason : EventKind → EpochClose
  | .write => .schism
  | .alloc => .realloc
  | _ => .free

/-- The epoch that the event records. -/
def recorded (e : HostEvent) (s : State) : Option TypeEpoch :=
  (ending e s).map fun x =>
    ⟨x.1, (s.world.heapAllocs.allocSize x.1).getD x.2.typeInfo.byteSize, x.2.typeInfo.name,
      x.2.sourceName, x.2.stampSeq, seqOf e.2, closeReason (kindOf e.2)⟩

/-- The log after the event. -/
def TypeEpochLog.extend (log : TypeEpochLog) : Option TypeEpoch → TypeEpochLog
  | some e => log.closeEpoch e
  | none => log

end Ending

/-- The stamp that a new one displaced. -/
def StampResult.displaced : StampResult → Option OldStamp
  | .schism old | .poolReuse old => some old
  | _ => none

def TypeProjection.oldStamp (p : TypeProjection) : OldStamp :=
  ⟨p.typeInfo.name, p.sourceName, p.stampSeq⟩

theorem displaced_stampType (m : ShadowTypeMap) {addr : UInt64} (haddr : addr ≠ 0) (ti : TypeInfo)
    (source : String) (seq : ℕ) :
    (m.stampType addr ti source seq).2.displaced =
      ((m.lookup addr).filter fun p => ti.byteSize != 0 && p.typeInfo.name != ti.name &&
        p.stampSeq ≤ seq).map TypeProjection.oldStamp := by
  simp only [ShadowTypeMap.stampType, ShadowTypeMap.lookup, haddr, false_or]
  by_cases hsize : ti.byteSize = 0
  · cases m.map.get? addr <;> simp [hsize, StampResult.displaced, Option.filter]
  · rw [if_neg hsize]
    cases hget : m.map.get? addr with
    | none => rfl
    | some p =>
        dsimp only
        by_cases hname : p.typeInfo.name = ti.name
        · simp [hname, StampResult.displaced, Option.filter]
        · rw [if_neg hname]
          by_cases hseq : p.stampSeq > seq
          · have hle : ¬ p.stampSeq ≤ seq := by omega
            simp [hseq, StampResult.displaced, Option.filter]
          · have hle : p.stampSeq ≤ seq := by omega
            rw [if_neg hseq]
            split <;> simp [hsize, hname, hle, StampResult.displaced, Option.filter,
              TypeProjection.oldStamp]

section Closing
variable {host : Host} {ev : Event} {s : State}

namespace Write

/-- The epoch of a displaced stamp, where a block is tracked at the address. -/
def schismEpoch (ev : Event) (s : State) (old : OldStamp) : Option TypeEpoch :=
  (s.world.heapAllocs.allocSize ev.value).map fun size =>
    ⟨ev.value, size, old.type, old.source, old.stampSeq, seqOf ev, .schism⟩

theorem typeEpochs_report (newType newSource : String) (r : StampResult) :
    (report ev newType newSource r s).world.typeEpochs =
      s.world.typeEpochs.extend (r.displaced.bind (schismEpoch ev s)) := by
  have hlog (old : OldStamp) : (logSchism ev old s).world.typeEpochs =
      s.world.typeEpochs.extend (schismEpoch ev s old) := by
    rw [logSchism, schismEpoch]
    split <;> rename_i hsize <;> rw [hsize] <;> rfl
  cases r with
  | schism old | poolReuse old => exact hlog old
  | _ => rfl

theorem typeEpochs_stampVariable (name : String) (registry : Registry) (pointee : TypeInfo)
    (hvalue : ev.value ≠ 0) :
    (stampVariable host ev name registry pointee s).world.typeEpochs =
      s.world.typeEpochs.extend
        ((((s.world.stm.lookup ev.value).filter fun p => pointee.byteSize != 0 &&
            p.typeInfo.name != pointee.name && p.stampSeq ≤ seqOf ev).map
          TypeProjection.oldStamp).bind (schismEpoch ev s)) := by
  have hstamp : (stampVariable host ev name registry pointee s).world.typeEpochs =
      (report ev pointee.name name (s.world.stm.stampType ev.value pointee name (seqOf ev)).2
        (s.withStm fun _ => (s.world.stm.stampType ev.value pointee name
          (seqOf ev)).1)).world.typeEpochs := by
    rw [stampVariable]
    split <;> rfl
  rw [hstamp, typeEpochs_report, displaced_stampType _ hvalue]
  rfl

theorem displaces_pointeeStamp : displaces host ev s = (pointeeStamp host ev s).bind fun x =>
    (s.world.stm.lookup ev.value).filter fun p => x.pointee.byteSize != 0 &&
      p.typeInfo.name != x.pointee.name && p.stampSeq ≤ seqOf ev := by
  rw [displaces, pointeeStamp]
  cases (s.addrIndex.lookup host.orders ev.addr).2 with
  | none => rfl
  | some h =>
      simp only [Option.bind_some]
      split
      · cases s.dwarfInfo with
        | none => rfl
        | some info =>
            simp only [Option.bind_some]
            cases pointeeType host h.typeInfo.name (pointeeInfo host h.typeInfo.name info) <;> rfl
      · rfl

/-- The stage at the written variable makes its stamp, in a state with the same types and
lines, or leaves the types and the closing lines as they are. -/
theorem node_spec (host : Host) (ev : Event) (s : State) :
    match pointeeStamp host ev s with
    | some x => ∃ t l, t.world.core = s.world.core ∧ t.topo = s.topo ∧
        (Line.isClose l = false ∧ Line.isSchism l = false) ∧ node host ev s =
          (stampVariable host ev x.slot.name x.info.typeRegistry x.pointee t).emit l
    | none => (node host ev s).world.core = s.world.core ∧ (node host ev s).closes = s.closes := by
  rw [pointeeStamp, node]
  cases (s.addrIndex.lookup host.orders ev.addr).2 with
  | none => exact ⟨rfl, rfl⟩
  | some h =>
      let found : State := { s with addrIndex := (s.addrIndex.lookup host.orders ev.addr).1 }
      obtain ⟨t, ht⟩ : ∃ t, edge host ev h (value ev h found) = t := ⟨_, rfl⟩
      have hcore : t.world.core = s.world.core := by
        rw [← ht]
        exact (core_updateValue _ _ _).trans (core_ensureNode _ _ _ _ _ _)
      have htopo : t.topo = s.topo := by rw [← ht]; rfl
      have hdwarf : s.dwarfInfo = t.dwarfInfo := by rw [← ht]; rfl
      have hheap : s.heapOracle = t.heapOracle := by rw [← ht]; rfl
      have hlink (u : State) (hu : u.topo = s.topo) {l : Line} (hl : l.isClose = false) :
          (u.emit l).closes = s.closes :=
        (linesOf_emit_of_not hl).trans (by rw [State.linesOf, hu]; rfl)
      simp only [Option.bind_some]
      by_cases hpointer : (h.typeInfo.isPointer && ev.size == 8) = true
      · simp only [hpointer, if_true, Bool.true_and, pointer]
        rw [ht, hdwarf, hheap]
        by_cases hzero : ev.value = 0
        · simp only [hzero, bne_self_eq_false, Bool.false_and, Bool.false_eq_true, if_false, if_true]
          exact ⟨hcore, by rw [State.closes, State.linesOf, htopo]; rfl⟩
        · simp only [bne_iff_ne.mpr hzero, Bool.true_and, if_neg hzero]
          by_cases hvalue : t.heapOracle.isHeap ev.value = true
          · simp only [if_pos hvalue, stampPointee]
            cases t.dwarfInfo with
            | none => exact ⟨hcore, hlink t htopo (by rfl)⟩
            | some info =>
                simp only [Option.bind_some]
                cases pointeeType host h.typeInfo.name (pointeeInfo host h.typeInfo.name info) with
                | none => exact ⟨hcore, hlink _ htopo (by rfl)⟩
                | some pointee =>
                    refine ⟨{ t with dwarfInfo := some (pointeeInfo host h.typeInfo.name info) }, _,
                      hcore, htopo, ?_, rfl⟩
                    exact ⟨rfl, rfl⟩
          · simp only [if_neg hvalue]
            exact ⟨hcore, hlink t htopo (by rfl)⟩
      · simp only [Bool.not_eq_true] at hpointer
        simp only [hpointer, Bool.false_and, Bool.false_eq_true, if_false]
        exact ⟨(core_updateValue _ _ _).trans (core_ensureNode _ _ _ _ _ _), rfl⟩

theorem value_ne_zero {x : PointeeStamp} (h : pointeeStamp host ev s = some x) : ev.value ≠ 0 := by
  rw [pointeeStamp] at h
  obtain ⟨v, -, hguard⟩ := Option.bind_eq_some_iff.mp h
  split at hguard
  · rename_i hcond
    simp only [Bool.and_eq_true, bne_iff_ne] at hcond
    exact hcond.1.2
  · cases hguard

theorem typeEpochs_node : (node host ev s).world.typeEpochs =
    s.world.typeEpochs.extend
      (((displaces host ev s).map TypeProjection.oldStamp).bind (schismEpoch ev s)) := by
  have hspec := node_spec host ev s
  rw [displaces_pointeeStamp]
  cases hstamp : pointeeStamp host ev s with
  | none =>
      simp only [hstamp] at hspec
      exact of_core World.typeEpochs hspec.1
  | some x =>
      simp only [hstamp] at hspec
      obtain ⟨t, l, hcore, -, -, hlast⟩ := hspec
      have hepoch : schismEpoch ev t = schismEpoch ev s := by
        funext old
        rw [schismEpoch, of_core World.heapAllocs hcore]
        rfl
      have hemit (u : State) : (u.emit l).world.typeEpochs = u.world.typeEpochs := rfl
      rw [hlast, hemit, typeEpochs_stampVariable _ _ _ (value_ne_zero hstamp),
        of_core World.stm hcore, of_core World.typeEpochs hcore, hepoch]
      rfl

end Write

theorem typeEpochs_stampBirth :
    (Alloc.stampBirth host ev s).world.typeEpochs = s.world.typeEpochs := by
  obtain ⟨m, info, topo, h⟩ := Alloc.stampBirth_eq host ev s
  rw [h]

/-- An ALLOC or a FREE records the projection at its address. -/
theorem typeEpochs_closeEpoch (size : UInt64) (reason : EpochClose) (line : CloseReason) :
    (Alloc.closeEpoch ev size reason line s).world.typeEpochs =
      s.world.typeEpochs.extend ((s.world.stm.lookup ev.addr).map fun p =>
        ⟨ev.addr, size, p.typeInfo.name, p.sourceName, p.stampSeq, seqOf ev, reason⟩) := by
  rw [Alloc.closeEpoch]
  split <;> rename_i hp <;> rw [hp] <;> rfl

theorem heapAllocs_beforeNode (host : Host) (ev : Event) (s : State) :
    (beforeNode host ev s).world.heapAllocs = s.world.heapAllocs := by
  obtain ⟨g, m, hs, vs, info, regs, topo, hbefore⟩ := beforeNode_eq host ev s
  rw [hbefore]
  rfl

theorem typeEpochs_processWrite (hkind : kindOf ev = .write) :
    (processWrite host ev (countEvent s)).world.typeEpochs =
      s.world.typeEpochs.extend (recorded (host, ev) s) := by
  obtain ⟨g, m, hs, vs, info, regs, topo, hbefore⟩ := beforeNode_eq host ev s
  have hlog : (beforeNode host ev s).world.typeEpochs = s.world.typeEpochs := by
    rw [hbefore]
    rfl
  rw [processWrite_countEvent, Write.typeEpochs_node, hlog]
  simp only [recorded, ending, hkind]
  cases Write.displaces host ev (beforeNode host ev s) with
  | none => cases (s.world.heapAllocs.allocSize ev.value).isSome <;> rfl
  | some p =>
      simp only [Option.map_some, Option.bind_some, Write.schismEpoch,
        heapAllocs_beforeNode]
      cases hsize : s.world.heapAllocs.allocSize ev.value with
      | none => rfl
      | some size => simp [hsize, TypeProjection.oldStamp, closeReason]

theorem typeEpochs_processAlloc (hkind : kindOf ev = .alloc) :
    (processAlloc host ev (countEvent s)).world.typeEpochs =
      s.world.typeEpochs.extend (recorded (host, ev) s) := by
  have hold : (Alloc.record ev (countEvent s)).2 = s.world.heapAllocs.allocSize ev.addr := rfl
  have hlookup : (Alloc.record ev (countEvent s)).1.world.stm.lookup ev.addr =
      s.world.stm.lookup ev.addr := rfl
  rw [processAlloc, typeEpochs_stampBirth, Alloc.track, hold]
  simp only [recorded, ending, hkind]
  cases hsize : s.world.heapAllocs.allocSize ev.addr with
  | none => rfl
  | some old =>
      by_cases hsame : old = Alloc.size ev
      · simp only [hsame, if_true]
        rfl
      · have hne : ¬ some old = some (Alloc.size ev) := fun heq => hsame (Option.some.inj heq)
        simp only [hne, hsame, if_false]
        refine (typeEpochs_closeEpoch old .realloc .realloc
          (s := (Alloc.record ev (countEvent s)).1)).trans ?_
        rw [hlookup]
        cases s.world.stm.lookup ev.addr with
        | none => rfl
        | some p =>
            simp only [Option.map_some, hsize, Option.getD_some]
            rfl

theorem typeEpochs_processFree (hkind : kindOf ev = .free) :
    (processFree ev (countEvent s)).world.typeEpochs =
      s.world.typeEpochs.extend (recorded (host, ev) s) := by
  have hold : ((countEvent s).world.heapAllocs.onFree ev.addr).2 =
      s.world.heapAllocs.allocSize ev.addr := rfl
  have hlookup : (countEvent s).world.stm.lookup ev.addr = s.world.stm.lookup ev.addr := rfl
  have hclose (size : UInt64) (allocs : HeapAllocTracker) :=
    @typeEpochs_closeEpoch ev { countEvent s with
      world := { (countEvent s).world with heapAllocs := allocs } } size .free .free
  rw [processFree]
  simp only [recorded, ending, hkind, hold]
  cases hsize : s.world.heapAllocs.allocSize ev.addr with
  | none =>
      dsimp only
      rw [hlookup]
      cases hp : s.world.stm.lookup ev.addr with
      | none => rfl
      | some p =>
          refine (hclose p.typeInfo.byteSize _).trans ?_
          rw [hlookup, hp]
          simp only [Option.map_some, hsize, Option.getD_none]
          rfl
  | some old =>
      refine (hclose old _).trans ?_
      rw [hlookup]
      cases s.world.stm.lookup ev.addr with
      | none => rfl
      | some p =>
          simp only [Option.map_some, hsize, Option.getD_some]
          rfl

/-- An event records the epoch that it ends, if any. -/
theorem typeEpochs_processEvent (e : HostEvent) (s : State) :
    (processEvent e.1 e.2 s).world.typeEpochs = s.world.typeEpochs.extend (recorded e s) := by
  obtain ⟨host, ev⟩ := e
  rw [processEvent, processKind]
  dsimp only
  cases hkind : kindOf ev with
  | write => exact typeEpochs_processWrite hkind
  | alloc => exact typeEpochs_processAlloc hkind
  | free => exact typeEpochs_processFree hkind
  | call =>
      simp only [recorded, ending, hkind]
      exact (of_core World.typeEpochs (core_processCall host ev (countEvent s)) :)
  | ret =>
      simp only [recorded, ending, hkind]
      exact (of_core World.typeEpochs (core_processReturn ev (countEvent s)) :)
  | moduleLoad =>
      simp only [recorded, ending, hkind, processModuleLoad]
      split
      · obtain ⟨m, hcore⟩ := core_populateGlobals host _ _ _ (countEvent s).world
        exact of_core World.typeEpochs (v := { (countEvent s).world with stm := m }) hcore
      · rfl
  | _ =>
      simp only [recorded, ending, hkind]
      rfl

end Closing

/-- The epochs that the events record, in order. -/
def epochsOf : List HostEvent → State → List TypeEpoch
  | [], _ => []
  | e :: es, s => (recorded e s).toList ++ epochsOf es (processEvent e.1 e.2 s)

/-- The state with an empty log. -/
def unlogged (s : State) : State := { s with world := { s.world with typeEpochs := {} } }

/-- After the events the log holds the last of their epochs, these are in order, and
a query within the lifetime of one that is held finds it. -/
structure LogExact (start : State) (events : List HostEvent) : Prop
    extends Chained (epochsOf events start) where
  held : (runEvents start events).world.typeEpochs.iter =
    (epochsOf events start).rtake (runEvents start events).world.typeEpochs.cap
  found : ∀ e ∈ (runEvents start events).world.typeEpochs.iter, ∀ seq, e.openSeq ≤ seq →
    seq < e.closeSeq → (runEvents start events).world.typeEpochs.query e.addr seq = some e

/-- The projection that the event ends was stamped under a number between that of
the address's last close and, of an ALLOC or a FREE, the event's own. -/
def Timely (epochs : List TypeEpoch) (e : HostEvent) (s : State) : Prop :=
  ∀ addr p, ending e s = some (addr, p) → lastClose epochs addr ≤ p.stampSeq ∧
    (kindOf e.2 ≠ .write → p.stampSeq ≤ seqOf e.2)

section Runs
variable {start : State} {front : List HostEvent} {e : HostEvent}

theorem epochsOf_snoc (front : List HostEvent) (e : HostEvent) (start : State) :
    epochsOf (front ++ [e]) start =
      epochsOf front start ++ (recorded e (runEvents start front)).toList := by
  induction front generalizing start with
  | nil => exact List.append_nil _
  | cons x front ih =>
      rw [List.cons_append, epochsOf, ih, epochsOf, List.append_assoc]
      rfl

/-- The log is the ring of the epochs recorded. -/
theorem holds_run (start : State) (events : List HostEvent) :
    (runEvents (unlogged start) events).world.typeEpochs.ring.Holds
      (epochsOf events (unlogged start)) := by
  induction events using List.reverseRecOn with
  | nil =>
      have hcap : 0 < 65536 := by decide
      exact RingLog.Holds.empty hcap
  | append_singleton front e ih =>
      have hrun : runEvents (unlogged start) (front ++ [e]) =
          processEvent e.1 e.2 (runEvents (unlogged start) front) := by
        rw [runEvents, List.foldl_append]
        rfl
      rw [hrun, typeEpochs_processEvent, epochsOf_snoc]
      cases recorded e (runEvents (unlogged start) front) with
      | none =>
          rw [Option.toList_none, List.append_nil]
          exact ih
      | some x => exact ih.push x

/-- The order of the epochs is all there is to it. -/
theorem logExact_iff (start : State) (events : List HostEvent) :
    LogExact (unlogged start) events ↔ Chained (epochsOf events (unlogged start)) := by
  have hholds := holds_run start events
  refine ⟨fun h => h.toChained, fun h => ⟨h, hholds.iter, fun e he seq hopen hclose => ?_⟩⟩
  exact (h.sublist hholds.sublist).find_spans he hopen hclose

/-- A WRITE ends only projections that are not younger. -/
theorem stampSeq_le_of_write {s : State} {addr : UInt64} {p : TypeProjection}
    (hkind : kindOf e.2 = .write) (hending : ending e s = some (addr, p)) :
    p.stampSeq ≤ seqOf e.2 := by
  simp only [ending, hkind] at hending
  split at hending
  · obtain ⟨q, hq, heq⟩ := Option.map_eq_some_iff.mp hending
    obtain ⟨-, rfl⟩ := Prod.mk.inj heq
    obtain ⟨h, -, hguard⟩ := Option.bind_eq_some_iff.mp hq
    split at hguard
    · obtain ⟨pointee, -, hfilter⟩ := Option.bind_eq_some_iff.mp hguard
      obtain ⟨-, hcond⟩ := Option.filter_eq_some_iff.mp hfilter
      simp only [Bool.and_eq_true, decide_eq_true_eq] at hcond
      exact hcond.2
    · cases hguard
  · cases hending

/-- The next event keeps the epochs in order exactly when it is timely. -/
theorem chained_next (h : Chained (epochsOf front start)) :
    Chained (epochsOf (front ++ [e]) start) ↔
      Timely (epochsOf front start) e (runEvents start front) := by
  rw [epochsOf_snoc, Timely, recorded]
  cases hending : ending e (runEvents start front) with
  | none =>
      rw [Option.map_none, Option.toList_none, List.append_nil]
      refine ⟨fun _ addr p hp => ?_, fun _ => h⟩
      cases hp
  | some x =>
      obtain ⟨addr, p⟩ := x
      rw [Option.map_some, Option.toList_some, chained_snoc h]
      dsimp only
      constructor
      · rintro ⟨hlast, hle⟩ addr' p' heq
        obtain ⟨rfl, rfl⟩ := Prod.mk.inj (Option.some.inj heq)
        exact ⟨hlast, fun _ => hle⟩
      · intro htimely
        obtain ⟨hlast, hle⟩ := htimely addr p rfl
        refine ⟨hlast, ?_⟩
        by_cases hkind : kindOf e.2 = .write
        · exact stampSeq_le_of_write hkind hending
        · exact hle hkind

end Runs

/-- All along a run the log is exact if and only if every event that ends an epoch is
timely. -/
theorem epochs_exact_iff (start : State) (events : List HostEvent) :
    (∀ front, front <+: events → LogExact (unlogged start) front) ↔
      ∀ front e, front ++ [e] <+: events →
        Timely (epochsOf front (unlogged start)) e (runEvents (unlogged start) front) := by
  simp only [logExact_iff]
  refine forall_prefix_iff ?_ (fun front e h => chained_next h) events
  exact ⟨fun e he => (List.not_mem_nil he).elim, .nil⟩

/-- Thread 1 allocates a block and stores its address in a typed variable with its
event 5; thread 2 frees it with its event 1. -/
def freedElsewhere : List HostEvent :=
  [(.plain, plainEvent EVENT_ALLOC 0x20000 0x40),
    (.plain, numbered 1 5 (plainEvent EVENT_WRITE 0x4000 0x20000)),
    (.plain, numbered 2 1 (plainEvent EVENT_FREE 0x20000 0))]

/-- The epoch opens under 5 and closes under 1: no query finds it. -/
theorem epoch_closes_before_it_opens :
    ¬ (∀ front, front <+: freedElsewhere → LogExact (unlogged twoVariables) front) ∧
      (runEvents (unlogged twoVariables) freedElsewhere).world.typeEpochs.iter.map
        (fun e => (e.addr, e.openSeq, e.closeSeq)) = [(0x20000, 5, 1)] := by
  have hlog : (runEvents (unlogged twoVariables) freedElsewhere).world.typeEpochs.iter.map
      (fun e => (e.addr, e.openSeq, e.closeSeq)) = [(0x20000, 5, 1)] := by
    decide +kernel
  refine ⟨fun hall => ?_, hlog⟩
  have hexact := hall freedElsewhere (List.prefix_refl _)
  have hmem : ((0x20000 : UInt64), 5, 1) ∈ (runEvents (unlogged twoVariables)
      freedElsewhere).world.typeEpochs.iter.map (fun e => (e.addr, e.openSeq, e.closeSeq)) := by
    rw [hlog]
    exact List.mem_singleton_self _
  obtain ⟨e, he, heq⟩ := List.mem_map.mp hmem
  obtain ⟨-, hopen, hclose⟩ : e.addr = 0x20000 ∧ e.openSeq = 5 ∧ e.closeSeq = 1 := by
    simpa using heq
  have hlived := hexact.lived e ((holds_run twoVariables freedElsewhere).sublist.mem he)
  omega

end Rtmap.Engine
